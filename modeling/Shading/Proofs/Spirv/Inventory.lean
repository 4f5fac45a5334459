import Mathlib.Data.List.Nodup
import Shading.Proofs.Spirv.ConstantKey
import Shading.Proofs.Spirv.Growth

/-! The section for types and constants. Each of its instructions is there for one type or constant, under whose text
its number is found, and no two of them are alike. -/
namespace Shading.Spirv

/-- What an instruction of the section declares, whatever its number. -/
inductive Declared
  | void
  | bool
  | int (signed : Bool)
  | float (double : Bool)
  | vector (component count : UInt32)
  | matrix (column count : UInt32)
  | array (element length : UInt32)
  | runtimeArray (element : UInt32)
  | struct (members : List UInt32)
  | image (sampled dim : UInt32) (depth : Bool)
  | sampledImage (id : UInt32)
  | pointer (storage base : UInt32)
  | function (result : UInt32) (params : List UInt32)
  | accept (type : UInt32)
  | reject (type : UInt32)
  | constant (type : UInt32) (words : List UInt32)
  | composite (type : UInt32) (parts : List UInt32)

namespace Instruction

/-- The instruction apart from the number of its result. -/
def unnumbered (i : Instruction) : Instruction :=
  match i.opcode.lead with
  | .plain => i
  | .result => ⟨i.opcode, i.operands.drop 1⟩
  | .typed => ⟨i.opcode, i.operands.take 1 ++ i.operands.drop 2⟩

end Instruction

namespace Declared

/-- The instruction without a number. -/
def content : Declared → Instruction
  | .void => ⟨.opTypeVoid, []⟩
  | .bool => ⟨.opTypeBool, []⟩
  | .int signed => ⟨.opTypeInt, [32, if signed then 1 else 0]⟩
  | .float double => ⟨.opTypeFloat, [if double then 64 else 32]⟩
  | .vector component count => ⟨.opTypeVector, [component, count]⟩
  | .matrix column count => ⟨.opTypeMatrix, [column, count]⟩
  | .array element length => ⟨.opTypeArray, [element, length]⟩
  | .runtimeArray element => ⟨.opTypeRuntimeArray, [element]⟩
  | .struct members => ⟨.opTypeStruct, members⟩
  | .image sampled dim depth => ⟨.opTypeImage, [sampled, dim, if depth then 1 else 0, 0, 0, 1, 0]⟩
  | .sampledImage id => ⟨.opTypeSampledImage, [id]⟩
  | .pointer storage base => ⟨.opTypePointer, [storage, base]⟩
  | .function result params => ⟨.opTypeFunction, result :: params⟩
  | .accept type => ⟨.opConstantTrue, [type]⟩
  | .reject type => ⟨.opConstantFalse, [type]⟩
  | .constant type words => ⟨.opConstant, type :: words⟩
  | .composite type parts => ⟨.opConstantComposite, type :: parts⟩

/-- The instruction with a number. -/
def instruction (d : Declared) (id : UInt32) : Instruction :=
  match d with
  | .accept type => ⟨.opConstantTrue, [type, id]⟩
  | .reject type => ⟨.opConstantFalse, [type, id]⟩
  | .constant type words => ⟨.opConstant, type :: id :: words⟩
  | .composite type parts => ⟨.opConstantComposite, type :: id :: parts⟩
  | d => ⟨d.content.opcode, id :: d.content.operands⟩

theorem unnumbered_instruction (d : Declared) (id : UInt32) : (d.instruction id).unnumbered = d.content := by
  cases d <;> rfl

theorem flag_inj {x y : Bool} {a b : UInt32} (h : a ≠ b) : ((if x then a else b) = if y then a else b) ↔ x = y := by
  cases x <;> cases y <;> simp [h, h.symm]

/-- What is declared can be read off the instruction. -/
theorem content_inj {d d' : Declared} (h : d.content = d'.content) : d = d' := by
  cases d <;> cases d' <;> first
    | rfl
    | exact absurd (Instruction.mk.inj h).1 (by decide)
    | simpa [content, flag_inj] using h

/-- Declares it. -/
def declare : Declared → Build UInt32
  | .void => Builder.typeVoid
  | .bool => Builder.typeBool
  | .int signed => Builder.typeInt 32 signed
  | .float double => Builder.typeFloat (if double then 64 else 32)
  | .vector component count => Builder.typeVector component count
  | .matrix column count => Builder.typeMatrix column count
  | .array element length => Builder.typeArray element length
  | .runtimeArray element => Builder.typeRuntimeArray element
  | .struct members => Builder.typeStruct members
  | .image sampled dim depth => Builder.typeImage sampled dim depth
  | .sampledImage id => Builder.typeSampledImage id
  | .pointer storage base => Builder.typePointer storage base
  | .function result params => Builder.typeFunction result params
  | .accept type => Builder.constantBool type true
  | .reject type => Builder.constantBool type false
  | .constant type words => Builder.constant type words
  | .composite type parts => Builder.constantComposite type parts

theorem declare_run (d : Declared) (b : Builder) :
    d.declare b = (b.next, { b with next := b.next + 1, types := b.types.push (d.instruction b.next) }) := by
  cases d <;> rfl

end Declared

open Pool (key constantKey functionKey)

/-- What a declaration is found by. An image is found by the type of its samplers only. -/
inductive Tag
  | type (key : Text)
  | image (dim : ImageDim) (p : Primitive) (depth : Bool)
  | pointer (storage base : UInt32)
  | function (key : Text)
  | constant (key : Text)
deriving DecidableEq

/-- What a module declares. -/
inductive Item
  | type (t : Ty)
  | image (dim : ImageDim) (p : Primitive) (depth : Bool)
  | pointer (storage base : UInt32)
  | function (result : UInt32) (params : List UInt32)
  | constant (v : Value)

def Item.tag : Item → Tag
  | .type t => .type (key t)
  | .image dim p depth => .image dim p depth
  | .pointer storage base => .pointer storage base
  | .function result params => .function (functionKey result params)
  | .constant v => .constant (constantKey v)

/-- The type of a number and its words. -/
def scalarWords? : Value → Option (Primitive × List UInt32)
  | .i32 n => some (.i32, [n.toUInt32])
  | .u32 n => some (.u32, [n])
  | .f32 x => some (.f32, [x.bits])
  | .f64 x => some (.f64, [x.bits.toUInt32, (x.bits >>> 32).toUInt32])
  | _ => none

theorem eq_of_halves {a b : UInt64} (hlow : a.toUInt32 = b.toUInt32)
    (hhigh : (a >>> 32).toUInt32 = (b >>> 32).toUInt32) : a = b := by
  have hlow := congrArg UInt32.toNat hlow
  have hhigh := congrArg UInt32.toNat hhigh
  have hshift : ∀ x : UInt64, (x >>> 32).toNat = x.toNat / 2 ^ 32 := fun x => by
    rw [UInt64.toNat_shiftRight, Nat.shiftRight_eq_div_pow]
    rfl
  rw [UInt64.toNat_toUInt32, UInt64.toNat_toUInt32] at hlow hhigh
  rw [hshift, hshift] at hhigh
  have ha := a.toNat_lt
  have hb := b.toNat_lt
  exact UInt64.toNat_inj.mp (by omega)

theorem scalarWords_inj {v w : Value} {x : Primitive × List UInt32} (hv : scalarWords? v = some x)
    (hw : scalarWords? w = some x) : v = w := by
  have h := hv.trans hw.symm
  cases v with
  | i32 m =>
    cases w with
    | i32 n =>
      simp only [scalarWords?, Option.some.injEq, Prod.mk.injEq, List.cons.injEq, and_true, true_and] at h
      exact congrArg (fun w => Value.i32 (.ofUInt32 w)) h
    | _ => cases h
  | u32 m =>
    cases w with
    | u32 n =>
      simp only [scalarWords?, Option.some.injEq, Prod.mk.injEq, List.cons.injEq, and_true, true_and] at h
      rw [h]
    | _ => cases h
  | f32 x =>
    cases w with
    | f32 y =>
      simp only [scalarWords?, Option.some.injEq, Prod.mk.injEq, List.cons.injEq, and_true, true_and] at h
      exact congrArg (fun bits => Value.f32 ⟨bits⟩) h
    | _ => cases h
  | f64 x =>
    cases w with
    | f64 y =>
      simp only [scalarWords?, Option.some.injEq, Prod.mk.injEq, List.cons.injEq, and_true, true_and] at h
      exact congrArg (fun bits => Value.f64 ⟨bits⟩) (eq_of_halves h.1 h.2)
    | _ => cases h
  | _ => cases hv

/-- How something is declared, given the numbers of its parts. -/
inductive Forms (number : Tag → UInt32 → Prop) : Item → Declared → Prop
  | void : Forms number (.type .void) .void
  | bool : Forms number (.type (.prim .bool)) .bool
  | i32 : Forms number (.type (.prim .i32)) (.int true)
  | u32 : Forms number (.type (.prim .u32)) (.int false)
  | f32 : Forms number (.type (.prim .f32)) (.float false)
  | f64 : Forms number (.type (.prim .f64)) (.float true)
  | vector {n p component} : number (.type (key (.prim p))) component →
      Forms number (.type (.vector n p)) (.vector component n)
  | matrix {c r p column} : number (.type (key (.vector r p))) column →
      Forms number (.type (.matrix c r p)) (.matrix column c)
  | array {t n element length} : n ≠ 0 → number (.type (key t)) element →
      number (.constant (constantKey (.u32 n))) length → Forms number (.type (.array t n)) (.array element length)
  | runtimeArray {t element} : number (.type (key t)) element →
      Forms number (.type (.array t 0)) (.runtimeArray element)
  | struct {r members} : Forms number (.type (.struct r)) (.struct members)
  | image {dim p depth sampled code} : dim ∈ ImageDim.named → code = Pool.dimension dim →
      number (.type (key (.prim p))) sampled → Forms number (.image dim p depth) (.image sampled code depth)
  | sampler {dim p depth image} : number (.image dim p depth) image →
      Forms number (.type (.sampler dim p depth)) (.sampledImage image)
  | pointer {storage base} : Forms number (.pointer storage base) (.pointer storage base)
  | function {result params} : Forms number (.function result params) (.function result params)
  | accept {type} : number (.type (key (.prim .bool))) type → Forms number (.constant (.bool true)) (.accept type)
  | reject {type} : number (.type (key (.prim .bool))) type → Forms number (.constant (.bool false)) (.reject type)
  | scalar {v p words type} : scalarWords? v = some (p, words) → number (.type (key (.prim p))) type →
      Forms number (.constant v) (.constant type words)
  | composite {cs type parts} : number (.type (key (Value.vector cs).type)) type →
      List.Forall₂ (fun v id => number (.constant (constantKey v)) id) cs parts →
      Forms number (.constant (.vector cs)) (.composite type parts)
  | columns {cols type parts} : number (.type (key (Value.matrix cols).type)) type →
      List.Forall₂ (fun c id => number (.constant (constantKey (.vector c))) id) cols parts →
      Forms number (.constant (.matrix cols)) (.composite type parts)

theorem prim_of_key {p q : Primitive} (h : key (.prim p) = key (.prim q)) : p = q :=
  eq_of_beq (Pool.same_of_key_eq rfl rfl rfl h).1

theorem vector_of_key {m n : UInt32} {p q : Primitive} (h : key (.vector m p) = key (.vector n q)) : m = n ∧ p = q := by
  have hsame := (Pool.same_of_key_eq rfl rfl rfl h).1
  simpa [Ty.same] using hsame

theorem dim_of_dimension {d d' : ImageDim} (hd : d ∈ ImageDim.named) (hd' : d' ∈ ImageDim.named)
    (h : Pool.dimension d = Pool.dimension d') : d = d' := by
  have hall : ∀ d ∈ ImageDim.named, ∀ d' ∈ ImageDim.named, Pool.dimension d = Pool.dimension d' → d = d' := by decide
  exact hall d hd d' hd' h

/-- A vector and a matrix are of different types. -/
theorem key_type_ne (cs : List Value) (cols : List (List Value)) :
    key (Value.vector cs).type ≠ key (Value.matrix cols).type := by
  intro h
  cases cols <;> cases h

namespace Forms

variable {number number' : Tag → UInt32 → Prop} {e e' : Item} {d : Declared}

theorem mono (h : Forms number e d) (hnumber : ∀ t id, number t id → number' t id) : Forms number' e d := by
  cases h with
  | vector hp => exact .vector (hnumber _ _ hp)
  | matrix hp => exact .matrix (hnumber _ _ hp)
  | array hn ht hl => exact .array hn (hnumber _ _ ht) (hnumber _ _ hl)
  | runtimeArray ht => exact .runtimeArray (hnumber _ _ ht)
  | image hd hcode hp => exact .image hd hcode (hnumber _ _ hp)
  | sampler hi => exact .sampler (hnumber _ _ hi)
  | accept ht => exact .accept (hnumber _ _ ht)
  | reject ht => exact .reject (hnumber _ _ ht)
  | scalar hw ht => exact .scalar hw (hnumber _ _ ht)
  | composite ht hs => exact .composite (hnumber _ _ ht) (hs.imp fun _ _ => hnumber _ _)
  | columns ht hs => exact .columns (hnumber _ _ ht) (hs.imp fun _ _ => hnumber _ _)
  | _ => constructor

/-- Numbers that are those of one thing each. -/
def Apart (number : Tag → UInt32 → Prop) : Prop := ∀ t t' id, number t id → number t' id → t = t'

theorem Apart.type (h : Apart number) {t u : Ty} {id : UInt32} (ht : number (.type (key t)) id)
    (hu : number (.type (key u)) id) : key t = key u := Tag.type.inj (h _ _ _ ht hu)

theorem Apart.constants {α : Type} {f : α → Text} (h : Apart number) {as bs : List α} {ids : List UInt32}
    (has : List.Forall₂ (fun a id => number (.constant (f a)) id) as ids)
    (hbs : List.Forall₂ (fun b id => number (.constant (f b)) id) bs ids) : as.map f = bs.map f := by
  induction has generalizing bs with
  | nil =>
    cases hbs
    rfl
  | cons ha has ih =>
    cases hbs with
    | cons hb hbs => rw [List.map_cons, List.map_cons, Tag.constant.inj (h _ _ _ ha hb), ih hbs]

/-- What is declared alike is found alike, as long as no number is that of two things. Structures are not: they may
have the same members and other names. -/
theorem tag_eq (hapart : Apart number) (h : Forms number e d) (h' : Forms number e' d)
    (hstruct : ∀ ids, d ≠ .struct ids) : e.tag = e'.tag := by
  cases h with
  | struct => exact absurd rfl (hstruct _)
  | vector hp =>
    cases h' with
    | vector hq => rw [prim_of_key (hapart.type hp hq)]
  | matrix hp =>
    cases h' with
    | matrix hq =>
      obtain ⟨hrows, hprim⟩ := vector_of_key (hapart.type hp hq)
      rw [hrows, hprim]
  | array hn ht hl =>
    cases h' with
    | array hn' ht' hl' =>
      have hlength := Pool.constantKey_eq_iff_same rfl rfl |>.mp (Tag.constant.inj (hapart _ _ _ hl hl'))
      rw [Item.tag, Item.tag, key, key, hapart.type ht ht', eq_of_beq hlength]
  | runtimeArray ht =>
    cases h' with
    | runtimeArray ht' => rw [Item.tag, Item.tag, key, key, hapart.type ht ht']
  | image hd hcode hp =>
    cases h' with
    | image hd' hcode' hq =>
      rw [dim_of_dimension hd hd' (hcode.symm.trans hcode'), prim_of_key (hapart.type hp hq)]
  | sampler hi =>
    cases h' with
    | sampler hj =>
      cases hapart _ _ _ hi hj
      rfl
  | scalar hv ht =>
    cases h' with
    | scalar hw hu =>
      rw [prim_of_key (hapart.type ht hu)] at hv
      rw [scalarWords_inj hv hw]
  | composite ht hs =>
    cases h' with
    | composite hu hs' =>
      rw [Item.tag, Item.tag, constantKey, constantKey, Pool.constantKeys_eq_map, Pool.constantKeys_eq_map,
        hapart.constants hs hs']
    | columns hu hs' => exact absurd (hapart.type ht hu) (key_type_ne _ _)
  | columns ht hs =>
    cases h' with
    | composite hu hs' => exact absurd (hapart.type hu ht) (key_type_ne _ _)
    | columns hu hs' =>
      rw [Item.tag, Item.tag, constantKey, constantKey, Pool.columnKeys_eq_map, Pool.columnKeys_eq_map,
        hapart.constants hs hs']
  | _ =>
    cases h'
    rfl

end Forms

/-- The number of the item that is found by a tag. Items are numbered in their order. -/
def Numbered (first : UInt32) (es : List Item) (t : Tag) (id : UInt32) : Prop :=
  ∃ i : Nat, (es.map Item.tag)[i]? = some t ∧ id = first + i.toUInt32

section

variable {first id id' : UInt32} {es : List Item} {e : Item} {t : Tag}

theorem numbered_concat :
    Numbered first (es ++ [e]) t id ↔ Numbered first es t id ∨ e.tag = t ∧ id = first + es.length.toUInt32 := by
  have hget : ∀ i : Nat, ((es ++ [e]).map Item.tag)[i]? = some t ↔
      (es.map Item.tag)[i]? = some t ∨ i = es.length ∧ e.tag = t := by
    intro i
    rw [List.map_append, List.getElem?_append, List.length_map]
    split
    · have hne : i ≠ es.length := by omega
      simp [hne]
    · have hnone : (es.map Item.tag)[i]? = none := List.getElem?_eq_none (by rw [List.length_map]; omega)
      by_cases hi : i = es.length
      · simp [hi]
      · have hpast : [e.tag][i - es.length]? = none :=
          List.getElem?_eq_none (by rw [List.length_singleton]; omega)
        simp [hnone, hi, hpast]
  constructor
  · rintro ⟨i, hi, hid⟩
    obtain hi | ⟨rfl, ht⟩ := (hget i).mp hi
    · exact .inl ⟨i, hi, hid⟩
    · exact .inr ⟨ht, hid⟩
  · rintro (⟨i, hi, hid⟩ | ⟨ht, hid⟩)
    · exact ⟨i, (hget i).mpr (.inl hi), hid⟩
    · exact ⟨es.length, (hget _).mpr (.inr ⟨rfl, ht⟩), hid⟩

theorem Numbered.mem (h : Numbered first es t id) : t ∈ es.map Item.tag := by
  obtain ⟨i, hi, -⟩ := h
  exact List.mem_of_getElem? hi

theorem Numbered.append (h : Numbered first es t id) (new : List Item) : Numbered first (es ++ new) t id := by
  obtain ⟨i, hi, hid⟩ := h
  obtain ⟨hlt, -⟩ := List.getElem?_eq_some_iff.mp hi
  refine ⟨i, ?_, hid⟩
  rw [List.map_append, List.getElem?_append_left hlt, hi]

theorem Numbered.unique (hnodup : (es.map Item.tag).Nodup) (h : Numbered first es t id) (h' : Numbered first es t id') :
    id = id' := by
  obtain ⟨i, hi, rfl⟩ := h
  obtain ⟨j, hj, rfl⟩ := h'
  obtain ⟨hlt, -⟩ := List.getElem?_eq_some_iff.mp hi
  rw [(List.getElem?_inj hlt hnodup).mp (hi.trans hj.symm)]

/-- As long as the numbers do not run over, each of them is that of one item. -/
theorem apart_numbered (hes : es.length ≤ 2 ^ 32) : Forms.Apart (Numbered first es) := by
  intro t t' id h h'
  obtain ⟨i, hi, rfl⟩ := h
  obtain ⟨j, hj, hij⟩ := h'
  obtain ⟨hlt, -⟩ := List.getElem?_eq_some_iff.mp hi
  obtain ⟨hlt', -⟩ := List.getElem?_eq_some_iff.mp hj
  rw [List.length_map] at hlt hlt'
  have hword : i.toUInt32 = j.toUInt32 := (UInt32.add_right_inj first).mp hij
  have hi' : i.toUInt32.toNat = i := UInt32.toNat_ofNat_of_lt (Nat.lt_of_lt_of_le hlt hes)
  have hj' : j.toUInt32.toNat = j := UInt32.toNat_ofNat_of_lt (Nat.lt_of_lt_of_le hlt' hes)
  have heq : i = j := by rw [← hi', ← hj', hword]
  rw [heq, hj] at hi
  exact (Option.some.inj hi).symm

end

namespace Pool

/-- The number under which something is found. -/
def find? (p : Pool) : Tag → Option UInt32
  | .type k => p.types.lookup k
  | .image .. => none
  | .pointer storage base => p.pointers.lookup (storage, base)
  | .function k => p.functionTypes.lookup k
  | .constant k => p.constants.lookup k

/-- Puts down the number under which something is found. -/
def file (p : Pool) (t : Tag) (id : UInt32) : Pool :=
  match t with
  | .type k => { p with types := (k, id) :: p.types }
  | .image .. => p
  | .pointer storage base => { p with pointers := ((storage, base), id) :: p.pointers }
  | .function k => { p with functionTypes := (k, id) :: p.functionTypes }
  | .constant k => { p with constants := (k, id) :: p.constants }

end Pool

/-- Is it found by its tag? -/
def Tag.isFiled : Tag → Bool
  | .image .. => false
  | _ => true

theorem lookup_cons_eq {α β : Type} [BEq α] [LawfulBEq α] [DecidableEq α] (a k : α) (b : β) (es : List (α × β)) :
    ((k, b) :: es).lookup a = if a = k then some b else es.lookup a := by
  by_cases h : a = k
  · rw [if_pos h, h, List.lookup_cons_self]
  · rw [if_neg h, List.lookup_cons, beq_false_of_ne h]

theorem Pool.find_file {p : Pool} {t t' : Tag} {id : UInt32} (h : t.isFiled) :
    (p.file t id).find? t' = if t' = t then some id else p.find? t' := by
  cases t with
  | image => cases h
  | _ => cases t' <;> simp [find?, file, lookup_cons_eq]

/-- What a module has declared from some number on. -/
structure Holds (first : UInt32) (p : Pool) (es : List Item) : Prop where
  size : p.builder.types.size = es.length
  next : p.builder.next = first + es.length.toUInt32
  nodup : (es.map Item.tag).Nodup
  found : ∀ {t id}, t.isFiled → (p.find? t = some id ↔ Numbered first es t id)
  forms : ∀ {i : Nat} {e : Item}, es[i]? = some e →
    ∃ d, Forms (Numbered first es) e d ∧ p.builder.types[i]? = some (d.instruction (first + i.toUInt32))

namespace Holds

variable {first : UInt32} {p q : Pool} {es : List Item} {e : Item} {d : Declared}

/-- One more declaration. -/
theorem push (h : Holds first p es) (hnew : e.tag ∉ es.map Item.tag) (hforms : Forms (Numbered first es) e d)
    (hnext : q.builder.next = p.builder.next + 1)
    (htypes : q.builder.types = p.builder.types.push (d.instruction p.builder.next))
    (hfind : ∀ t, t.isFiled → q.find? t = if t = e.tag then some p.builder.next else p.find? t) :
    Holds first q (es ++ [e]) := by
  have hmono : ∀ t id, Numbered first es t id → Numbered first (es ++ [e]) t id := fun t id h => h.append [e]
  constructor
  · rw [htypes, Array.size_push, h.size, List.length_append, List.length_singleton]
  · rw [hnext, h.next, List.length_append, List.length_singleton, UInt32.add_assoc]
    congr 1
    exact (UInt32.ofNat_add es.length 1).symm
  · rw [List.map_append, List.map_singleton]
    exact List.nodup_append'.mpr ⟨h.nodup, List.nodup_singleton _, List.disjoint_singleton.mpr hnew⟩
  · intro t id ht
    rw [hfind t ht, numbered_concat, ← h.next]
    split
    case isTrue htag =>
      subst htag
      have hnot : ¬ Numbered first es e.tag id := fun hn => hnew hn.mem
      simp [hnot, eq_comm]
    case isFalse htag =>
      rw [h.found ht]
      simp [Ne.symm htag]
  · intro i x hx
    rw [List.getElem?_append] at hx
    split at hx
    case isTrue hlt =>
      obtain ⟨d', hd', hget⟩ := h.forms hx
      refine ⟨d', hd'.mono hmono, ?_⟩
      rw [htypes, Array.getElem?_push, if_neg (by rw [h.size]; omega), hget]
    case isFalse hle =>
      have hi : i = es.length := by
        have hlt := (List.getElem?_eq_some_iff.mp hx).1
        rw [List.length_singleton] at hlt
        omega
      subst hi
      rw [Nat.sub_self] at hx
      cases hx
      refine ⟨d, hforms.mono hmono, ?_⟩
      rw [htypes, Array.getElem?_push, if_pos h.size.symm, h.next]

/-- No two instructions but those of structures are alike. -/
theorem nodup_unnumbered (h : Holds first p es) (hes : es.length ≤ 2 ^ 32) :
    ((p.builder.types.toList.filter (·.opcode ≠ .opTypeStruct)).map Instruction.unnumbered).Nodup := by
  rw [List.Nodup, List.pairwise_map, List.pairwise_filter, List.pairwise_iff_getElem]
  intro i j hi hj hij hopi hopj heq
  rw [Array.length_toList, h.size] at hi hj
  obtain ⟨d, hd, hgeti⟩ := h.forms (List.getElem?_eq_getElem hi)
  obtain ⟨d', hd', hgetj⟩ := h.forms (List.getElem?_eq_getElem hj)
  have hfirst := (Array.getElem?_eq_some_iff.mp hgeti).2
  have hsecond := (Array.getElem?_eq_some_iff.mp hgetj).2
  rw [Array.getElem_toList, hfirst] at hopi heq
  rw [Array.getElem_toList, hsecond, Declared.unnumbered_instruction, Declared.unnumbered_instruction] at heq
  have hsame := Declared.content_inj heq
  have hstruct : ∀ ids, d ≠ .struct ids := by
    rintro ids rfl
    exact of_decide_eq_true hopi rfl
  have htag := hd.tag_eq (apart_numbered hes) (hsame ▸ hd') hstruct
  have htags : (es.map Item.tag)[i]? = (es.map Item.tag)[j]? := by
    rw [List.getElem?_map, List.getElem?_map, List.getElem?_eq_getElem hi, List.getElem?_eq_getElem hj,
      Option.map_some, Option.map_some, htag]
  have hindex := (List.getElem?_inj (by rwa [List.length_map]) h.nodup).mp htags
  omega

end Holds

end Shading.Spirv
