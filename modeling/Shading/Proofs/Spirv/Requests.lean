import Shading.Proofs.Spirv.Inventory
import Shading.Proofs.Spirv.Part

/-! Requests for types and constants. Each of them succeeds, and gives the number of what is declared once for all
requests of the kind. -/
namespace Shading.Spirv.Pooling

open Pool

/-- No image is declared without the type of its samplers. -/
def Paired (es : List Item) : Prop :=
  ∀ dim p depth, Tag.image dim p depth ∈ es.map Item.tag → Tag.type (key (.sampler dim p depth)) ∈ es.map Item.tag

/-- A module between two requests. -/
structure Sound (first : UInt32) (p : Pool) (es : List Item) : Prop extends Holds first p es where
  paired : Paired es

/-- Modules that differ in nothing that requests look at. -/
structure Like (p q : Pool) : Prop where
  next : q.builder.next = p.builder.next
  types : q.builder.types = p.builder.types
  find : ∀ t, q.find? t = p.find? t

/-- A step succeeds. What it declares has tags of a kind. -/
def Grants {α : Type} (first : UInt32) (kind : Tag → Prop) (p : Pool) (es : List Item) (act : Pooling α)
    (post : List Item → α → Prop) : Prop :=
  ∃ a q new, act p = .ok (a, q) ∧ Sound first q (es ++ new) ∧ (∀ x ∈ new, kind x.tag) ∧ post (es ++ new) a

/-- A step succeeds, and declares an item last. The type of samplers is missing until then where its image is
declared already. -/
def Finishes (first : UInt32) (kind : Tag → Prop) (p : Pool) (es : List Item) (declare : Pooling UInt32) (e : Item) :
    Prop :=
  ∃ q r new d, declare p = .ok (q.builder.next, r) ∧ Holds first q (es ++ new) ∧ Paired (es ++ new ++ [e]) ∧
    (∀ x ∈ new, kind x.tag) ∧ Forms (Numbered first (es ++ new)) e d ∧
    Like { q with builder := (d.declare q.builder).2 } r

section

variable {α β : Type} {first : UInt32} {kind kind' : Tag → Prop} {p q : Pool} {es : List Item} {e : Item}
  {post : List Item → α → Prop} {post' : List Item → β → Prop}

theorem find_builder (p : Pool) (b : Builder) (t : Tag) : { p with builder := b }.find? t = p.find? t := by
  cases t <;> rfl

theorem builder_file (p : Pool) (t : Tag) (id : UInt32) : (p.file t id).builder = p.builder := by
  cases t <;> rfl

theorem Like.refl (p : Pool) : Like p p := ⟨rfl, rfl, fun _ => rfl⟩

theorem Like.trans {r : Pool} (h : Like p q) (h' : Like q r) : Like p r :=
  ⟨h'.next.trans h.next, h'.types.trans h.types, fun t => (h'.find t).trans (h.find t)⟩

theorem Like.sound (h : Like p q) (hp : Sound first p es) : Sound first q es where
  size := by rw [h.types, hp.size]
  next := by rw [h.next, hp.next]
  nodup := hp.nodup
  found := fun {t id} ht => by rw [h.find t, hp.found ht]
  forms := fun {i e} he => by rw [h.types]; exact hp.forms he
  paired := hp.paired

theorem Grants.imp (h : Grants first kind p es act post) (hkind : ∀ t, kind t → kind' t) :
    Grants first kind' p es act post := by
  obtain ⟨a, q, new, hact, hsound, hnew, hpost⟩ := h
  exact ⟨a, q, new, hact, hsound, fun x hx => hkind _ (hnew x hx), hpost⟩

theorem Grants.bind {act : Pooling α} {f : α → Pooling β} (h : Grants first kind p es act post)
    (hf : ∀ a q new, Sound first q (es ++ new) → post (es ++ new) a → Grants first kind q (es ++ new) (f a) post') :
    Grants first kind p es (act >>= f) post' := by
  obtain ⟨a, q, new, hact, hsound, hnew, hpost⟩ := h
  obtain ⟨b, r, more, hrest, hsound', hmore, hpost'⟩ := hf a q new hsound hpost
  rw [List.append_assoc] at hsound' hpost'
  refine ⟨b, r, new ++ more, bind_ok.mpr ⟨a, q, hact, hrest⟩, hsound', ?_, hpost'⟩
  exact List.forall_mem_append.mpr ⟨hnew, hmore⟩

theorem Grants.pure {a : α} (hp : Sound first p es) (hpost : post es a) : Grants first kind p es (pure a) post :=
  ⟨a, p, [], rfl, by rwa [List.append_nil], List.forall_mem_nil _, by rwa [List.append_nil]⟩

/-- One number after the other. -/
theorem Grants.cons {act : Pooling UInt32} {acts : Pooling (List UInt32)} {t : Tag} {ts : List Tag}
    (h : Grants first kind p es act (fun es id => Numbered first es t id))
    (hrest : ∀ q new, Sound first q (es ++ new) →
      Grants first kind q (es ++ new) acts (fun es ids => List.Forall₂ (Numbered first es) ts ids)) :
    Grants first kind p es (do
      let id ← act
      return id :: (← acts)) (fun es ids => List.Forall₂ (Numbered first es) (t :: ts) ids) := by
  refine h.bind fun id q new hq hid => (hrest q new hq).bind fun ids r more hr hids => .pure hr ?_
  exact .cons (hid.append more) hids

theorem Finishes.bind {act : Pooling α} {f : α → Pooling UInt32} (h : Grants first kind p es act post)
    (hf : ∀ a q new, Sound first q (es ++ new) → (∀ x ∈ new, kind x.tag) → post (es ++ new) a →
      Finishes first kind q (es ++ new) (f a) e) :
    Finishes first kind p es (act >>= f) e := by
  obtain ⟨a, q, new, hact, hsound, hnew, hpost⟩ := h
  obtain ⟨q', r, more, d, hrest, hholds, hpaired, hmore, hforms, hlike⟩ := hf a q new hsound hnew hpost
  rw [List.append_assoc es new more] at hholds hpaired hforms
  refine ⟨q', r, new ++ more, d, bind_ok.mpr ⟨a, q, hact, hrest⟩, hholds, hpaired, ?_, hforms, hlike⟩
  exact List.forall_mem_append.mpr ⟨hnew, hmore⟩

theorem tag_not_mem_append {t : Tag} {new : List Item} (h : t ∉ es.map Item.tag) (hnew : ∀ x ∈ new, x.tag ≠ t) :
    t ∉ (es ++ new).map Item.tag := by
  rw [List.map_append, List.mem_append]
  rintro (hmem | hmem)
  · exact h hmem
  · obtain ⟨x, hx, hxt⟩ := List.mem_map.mp hmem
    exact hnew x hx hxt

theorem Paired.concat (h : Paired es) (he : e.tag.isFiled) : Paired (es ++ [e]) := by
  intro dim p depth himage
  rw [List.map_append, List.mem_append] at himage ⊢
  obtain himage | himage := himage
  · exact .inl (h dim p depth himage)
  · rw [List.map_singleton, List.mem_singleton] at himage
    rw [← himage] at he
    cases he

/-- The parts are declared. -/
theorem Finishes.last {d : Declared} (hp : Sound first p es) (he : e.tag.isFiled)
    (h : Forms (Numbered first es) e d) : Finishes first kind p es (build d.declare) e := by
  refine ⟨p, { p with builder := (d.declare p.builder).2 }, [], d, ?_, ?_, ?_, List.forall_mem_nil _, ?_, .refl _⟩
  · rw [build, Declared.declare_run]
  · rw [List.append_nil]
    exact hp.toHolds
  · rw [List.append_nil]
    exact hp.paired.concat he
  · rwa [List.append_nil]

/-- What is found is not declared again. -/
theorem grants_declared {t : Tag} {declare : Pooling UInt32} {lookup : Pool → Option UInt32}
    {file : UInt32 → Pool → Pool} (hp : Sound first p es) (he : e.tag = t) (ht : t.isFiled)
    (hlookup : lookup p = p.find? t) (hfile : ∀ id q, file id q = q.file t id) (hkind : kind t)
    (hpart : ∀ u, kind' u → kind u ∧ u ≠ t) (h : t ∉ es.map Item.tag → Finishes first kind' p es declare e) :
    Grants first kind p es (do
      match lookup (← get) with
      | some id => return id
      | none =>
        let id ← declare
        modify (file id)
        return id) (fun es id => Numbered first es t id) := by
  cases hfind : p.find? t with
  | some id =>
    refine ⟨id, p, [], bind_ok.mpr ⟨p, p, rfl, ?_⟩, ?_, List.forall_mem_nil _, ?_⟩
    · rw [hlookup, hfind]
      rfl
    · rwa [List.append_nil]
    · rw [List.append_nil]
      exact (hp.found ht).mp hfind
  | none =>
    have hnew : t ∉ es.map Item.tag := by
      intro hmem
      obtain ⟨i, hi⟩ := List.mem_iff_getElem?.mp hmem
      rw [(hp.found ht).mpr ⟨i, hi, rfl⟩] at hfind
      cases hfind
    obtain ⟨q, r, new, d, hdeclare, hholds, hpaired, hkinds, hforms, hlike⟩ := h hnew
    have hnot := tag_not_mem_append hnew fun x hx => (hpart _ (hkinds x hx)).2
    rw [← he] at hnot
    have hrun := Declared.declare_run d q.builder
    have hpush : Holds first (r.file t q.builder.next) (es ++ new ++ [e]) := by
      refine hholds.push hnot hforms ?_ ?_ fun u hu => ?_
      · rw [builder_file, hlike.next, hrun]
      · rw [builder_file, hlike.types, hrun]
      · rw [find_file ht, hlike.find, find_builder, he]
    rw [List.append_assoc] at hpush hpaired
    refine ⟨q.builder.next, _, new ++ [e], bind_ok.mpr ⟨p, p, rfl, ?_⟩, ⟨hpush, hpaired⟩, ?_, ?_⟩
    · rw [hlookup, hfind]
      refine bind_ok.mpr ⟨_, r, hdeclare, bind_ok.mpr ⟨(), _, rfl, ?_⟩⟩
      rw [hfile]
      rfl
    · rw [List.forall_mem_append, List.forall_mem_singleton, he]
      exact ⟨fun x hx => (hpart _ (hkinds x hx)).1, hkind⟩
    · rw [← List.append_assoc]
      exact numbered_concat.mpr (.inr ⟨he, hholds.next⟩)

end

-- The text of a part is shorter than that of the whole, so that a request never declares along the way what it
-- found to be missing.

/-- The tag of a type with a text shorter than a bound, or of an image. -/
def TypeBelow (n : Nat) : Tag → Prop
  | .type k => k.length < n
  | .image .. => True
  | _ => False

/-- The tag of anything, but only of types with texts shorter than a bound. -/
def TypesBelow (n : Nat) : Tag → Prop
  | .type k => k.length < n
  | _ => True

/-- The tag of anything, but only of constants with texts shorter than a bound. -/
def ConstantsBelow (n : Nat) : Tag → Prop
  | .constant k => k.length < n
  | _ => True

section

variable {m n : Nat} {t : Tag}

theorem TypeBelow.mono (h : TypeBelow m t) (hmn : m ≤ n) : TypeBelow n t := by
  cases t with
  | type => exact Nat.lt_of_lt_of_le h hmn
  | _ => exact h

theorem TypesBelow.mono (h : TypesBelow m t) (hmn : m ≤ n) : TypesBelow n t := by
  cases t with
  | type => exact Nat.lt_of_lt_of_le h hmn
  | _ => exact h

theorem ConstantsBelow.mono (h : ConstantsBelow m t) (hmn : m ≤ n) : ConstantsBelow n t := by
  cases t with
  | constant => exact Nat.lt_of_lt_of_le h hmn
  | _ => exact h

theorem TypeBelow.types (h : TypeBelow n t) : TypesBelow n t := by
  cases t with
  | type => exact h
  | _ => exact trivial

theorem TypeBelow.constants (h : TypeBelow n t) : ConstantsBelow m t := by
  cases t with
  | constant => cases h
  | _ => exact trivial

/-- What a scalar needs below a bound on constants. -/
theorem constantsBelow_scalar {k : Text} (h : TypeBelow m t ∨ t = .constant k) : ConstantsBelow (k.length + 1) t := by
  obtain h | rfl := h
  · exact h.constants
  · exact Nat.lt_succ_self _

theorem TypesBelow.ne {k : Text} (h : TypesBelow k.length t) : t ≠ .type k := by
  rintro rfl
  exact Nat.lt_irrefl _ h

theorem ConstantsBelow.ne {k : Text} (h : ConstantsBelow k.length t) : t ≠ .constant k := by
  rintro rfl
  exact Nat.lt_irrefl _ h

end

section

variable {first : UInt32} {kind kind' : Tag → Prop} {p : Pool} {es : List Item}

theorem grants_declaredType {t : Ty} {declare : Pooling UInt32} (hp : Sound first p es) (hkind : kind (.type (key t)))
    (hpart : ∀ u, kind' u → kind u ∧ u ≠ .type (key t))
    (h : Tag.type (key t) ∉ es.map Item.tag → Finishes first kind' p es declare (.type t)) :
    Grants first kind p es (declaredType t declare) (fun es id => Numbered first es (.type (key t)) id) :=
  grants_declared hp rfl rfl rfl (fun _ _ => rfl) hkind hpart h

/-- A type of which all parts have shorter texts. -/
theorem grants_type {t : Ty} {declare : Pooling UInt32} (hp : Sound first p es)
    (h : Tag.type (key t) ∉ es.map Item.tag → Finishes first (TypeBelow (key t).length) p es declare (.type t)) :
    Grants first (TypeBelow ((key t).length + 1)) p es (declaredType t declare)
      (fun es id => Numbered first es (.type (key t)) id) :=
  grants_declaredType hp (Nat.lt_succ_self _) (fun _ hu => ⟨hu.mono (Nat.le_succ _), hu.types.ne⟩) h

theorem grants_voidId (hp : Sound first p es) :
    Grants first (TypeBelow ((key .void).length + 1)) p es voidId
      (fun es id => Numbered first es (.type (key .void)) id) :=
  grants_type hp fun _ => Finishes.last (d := .void) hp rfl .void

theorem grants_capability (hp : Sound first p es) (c : UInt32) :
    Grants first kind p es (build (Builder.capability c)) (fun _ _ => True) := by
  have hstep : (Builder.capability c p.builder).2 =
    if p.builder.capabilities.contains ⟨.opCapability, [c]⟩ then p.builder
    else { p.builder with capabilities := p.builder.capabilities.push ⟨.opCapability, [c]⟩ } := rfl
  have hlike : Like p { p with builder := (Builder.capability c p.builder).2 } := by
    rw [hstep]
    split
    · exact .refl p
    · exact ⟨rfl, rfl, find_builder p _⟩
  refine ⟨(), _, [], rfl, ?_, List.forall_mem_nil _, trivial⟩
  rw [List.append_nil]
  exact hlike.sound hp

theorem grants_primitiveId {q : Primitive} (hq : q ∈ Primitive.named) (hp : Sound first p es) :
    Grants first (TypeBelow ((key (.prim q)).length + 1)) p es (primitiveId q)
      (fun es id => Numbered first es (.type (key (.prim q))) id) := by
  apply grants_type hp
  intro _
  cases q with
  | bool => exact Finishes.last (d := .bool) hp rfl .bool
  | i32 => exact Finishes.last (d := .int true) hp rfl .i32
  | u32 => exact Finishes.last (d := .int false) hp rfl .u32
  | f32 => exact Finishes.last (d := .float false) hp rfl .f32
  | f64 =>
    refine Finishes.bind (grants_capability hp _) fun _ q new hq _ _ => ?_
    exact Finishes.last (d := .float true) hq rfl .f64
  | reserved => simp [Primitive.named] at hq

theorem length_key_vector (n : UInt32) (q : Primitive) : (key (.prim q)).length < (key (.vector n q)).length := by
  simp only [key, List.length_append]
  have hprefix : (Text.ofString "scalar:").length < (Text.ofString ":scalar:").length := by decide
  omega

theorem length_key_matrix (c r : UInt32) (q : Primitive) :
    (key (.vector r q)).length < (key (.matrix c r q)).length := by
  have hprefix : (Text.ofString "vec:").length = (Text.ofString "mat:").length := rfl
  have htimes : 0 < (Text.ofString "x").length := by decide
  simp only [key, List.length_append]
  omega

theorem length_key_sampler (d : ImageDim) (q : Primitive) (depth : Bool) :
    (key (.prim q)).length < (key (.sampler d q depth)).length := by
  have hprefix : (Text.ofString "scalar:").length < (Text.ofString "sampler:").length := by decide
  simp only [key, List.length_append]
  omega

theorem grants_vectorId {q : Primitive} (hq : q ∈ Primitive.named) (n : UInt32) (hp : Sound first p es) :
    Grants first (TypeBelow ((key (.vector n q)).length + 1)) p es (vectorId n q)
      (fun es id => Numbered first es (.type (key (.vector n q))) id) := by
  apply grants_type hp
  intro _
  refine Finishes.bind ((grants_primitiveId hq hp).imp fun t ht => ht.mono (length_key_vector n q)) ?_
  intro component r new hr _ hcomponent
  exact Finishes.last (d := .vector component n) hr rfl (.vector hcomponent)

theorem grants_matrixId {q : Primitive} (hq : q ∈ Primitive.named) (c r : UInt32) (hp : Sound first p es) :
    Grants first (TypeBelow ((key (.matrix c r q)).length + 1)) p es (matrixId c r q)
      (fun es id => Numbered first es (.type (key (.matrix c r q))) id) := by
  apply grants_type hp
  intro _
  refine Finishes.bind ((grants_vectorId hq r hp).imp fun t ht => ht.mono (length_key_matrix c r q)) ?_
  intro column s new hs _ hcolumn
  exact Finishes.last (d := .matrix column c) hs rfl (.matrix hcolumn)

/-- An image is declared along with the type of its samplers. -/
theorem finishes_sampler {d : ImageDim} {q : Primitive} {depth : Bool} {sampled : UInt32} (hd : d ∈ ImageDim.named)
    (hp : Sound first p es) (hsampled : Numbered first es (.type (key (.prim q))) sampled)
    (hnew : Tag.type (key (.sampler d q depth)) ∉ es.map Item.tag) (hkind : kind (.image d q depth)) :
    Finishes first kind p es (do
      let image ← build (Builder.typeImage sampled (dimension d) depth)
      build (Builder.typeSampledImage image)) (.type (.sampler d q depth)) := by
  let image : Item := .image d q depth
  -- no table has images, but one that is declared already would come with the type of its samplers
  have himage : image.tag ∉ es.map Item.tag := fun hmem => hnew (hp.paired d q depth hmem)
  let middle : Pool := { p with builder := (Builder.typeImage sampled (dimension d) depth p.builder).2 }
  have hmiddle : Holds first middle (es ++ [image]) := by
    refine hp.push himage (.image hd rfl hsampled) rfl rfl fun t ht => ?_
    rw [if_neg (by rintro rfl; cases ht)]
    exact find_builder p _ t
  refine ⟨middle, _, [image], .sampledImage p.builder.next, rfl, hmiddle, ?_, ?_, ?_, .refl _⟩
  · intro dim q' depth' hmem
    simp only [List.map_append, List.mem_append, List.map_singleton, List.mem_singleton] at hmem ⊢
    obtain (hmem | hmem) | hmem := hmem
    · exact .inl (.inl (hp.paired dim q' depth' hmem))
    · cases hmem
      exact .inr rfl
    · cases hmem
  · rw [List.forall_mem_singleton]
    exact hkind
  · exact .sampler (numbered_concat.mpr (.inr ⟨rfl, hp.next⟩))

theorem grants_samplerId {d : ImageDim} {q : Primitive} (hd : d ∈ ImageDim.named) (hq : q ∈ Primitive.named)
    (depth : Bool) (hp : Sound first p es) :
    Grants first (TypeBelow ((key (.sampler d q depth)).length + 1)) p es (samplerId d q depth)
      (fun es id => Numbered first es (.type (key (.sampler d q depth))) id) := by
  apply grants_type hp
  intro hnew
  refine Finishes.bind ((grants_primitiveId hq hp).imp fun t ht => ht.mono (length_key_sampler d q depth)) ?_
  intro sampled r new hr hkinds hsampled
  have hmissing := tag_not_mem_append hnew fun x hx => (hkinds x hx).types.ne
  split
  · refine Finishes.bind (grants_capability hr _) fun _ s more hs hmore _ => ?_
    exact finishes_sampler hd hs (hsampled.append more)
      (tag_not_mem_append hmissing fun x hx => (hmore x hx).types.ne) trivial
  · exact finishes_sampler hd hr hsampled hmissing trivial

end

section

variable {first : UInt32} {kind kind' : Tag → Prop} {p : Pool} {es : List Item}

theorem grants_declaredConstant {v : Value} {declare : Pooling UInt32} (hp : Sound first p es)
    (hkind : kind (.constant (constantKey v))) (hpart : ∀ u, kind' u → kind u ∧ u ≠ .constant (constantKey v))
    (h : Tag.constant (constantKey v) ∉ es.map Item.tag → Finishes first kind' p es declare (.constant v)) :
    Grants first kind p es (declaredConstant v declare)
      (fun es id => Numbered first es (.constant (constantKey v)) id) :=
  grants_declared hp rfl rfl rfl (fun _ _ => rfl) hkind hpart h

/-- A scalar needs its type only. -/
theorem grants_scalar {v : Value} {q : Primitive} {declare : UInt32 → Pooling UInt32} (hq : q ∈ Primitive.named)
    (hp : Sound first p es)
    (h : ∀ type r new, Sound first r (es ++ new) → Numbered first (es ++ new) (.type (key (.prim q))) type →
      Finishes first (TypeBelow ((key (.prim q)).length + 1)) r (es ++ new) (declare type) (.constant v)) :
    Grants first (fun t => TypeBelow ((key (.prim q)).length + 1) t ∨ t = .constant (constantKey v)) p es
      (declaredConstant v (primitiveId q >>= declare))
      (fun es id => Numbered first es (.constant (constantKey v)) id) := by
  have hpart : ∀ u, TypeBelow ((key (.prim q)).length + 1) u →
      (TypeBelow ((key (.prim q)).length + 1) u ∨ u = .constant (constantKey v)) ∧ u ≠ .constant (constantKey v) := by
    intro u hu
    refine ⟨.inl hu, ?_⟩
    rintro rfl
    cases hu
  refine grants_declaredConstant hp (.inr rfl) hpart fun _ => ?_
  exact Finishes.bind (grants_primitiveId hq hp) fun type r new hr _ htype => h type r new hr htype

theorem grants_bool (b : Bool) (hp : Sound first p es) :
    Grants first (fun t => TypeBelow ((key (.prim .bool)).length + 1) t ∨ t = .constant (constantKey (.bool b))) p es
      (constantId (.bool b)) (fun es id => Numbered first es (.constant (constantKey (.bool b))) id) := by
  rw [constantId]
  refine grants_scalar (by decide) hp fun type r new hr htype => ?_
  cases b with
  | true => exact Finishes.last (d := .accept type) hr rfl (.accept htype)
  | false => exact Finishes.last (d := .reject type) hr rfl (.reject htype)

theorem grants_number {v : Value} {q : Primitive} {words : List UInt32} (hv : scalarWords? v = some (q, words))
    (hp : Sound first p es) :
    Grants first (fun t => TypeBelow ((key (.prim q)).length + 1) t ∨ t = .constant (constantKey v)) p es
      (constantId v) (fun es id => Numbered first es (.constant (constantKey v)) id) := by
  have hlast : ∀ type r new, Sound first r (es ++ new) → Numbered first (es ++ new) (.type (key (.prim q))) type →
      Finishes first (TypeBelow ((key (.prim q)).length + 1)) r (es ++ new) (build (Builder.constant type words))
        (.constant v) := by
    intro type r new hr htype
    exact Finishes.last (d := .constant type words) hr rfl (.scalar hv htype)
  cases v with
  | i32 n =>
    cases hv
    rw [constantId]
    exact grants_scalar (by decide) hp hlast
  | u32 n =>
    cases hv
    rw [constantId]
    exact grants_scalar (by decide) hp hlast
  | f32 x =>
    cases hv
    rw [constantId]
    exact grants_scalar (by decide) hp hlast
  | f64 x =>
    cases hv
    rw [constantId]
    exact grants_scalar (by decide) hp hlast
  | _ => cases hv

end

mutual

/-- The component type of a value is a scalar type. -/
theorem named_scalar : ∀ (v : Value) (q : Primitive), v.type.scalar? = some q → q ∈ Primitive.named
  | .absent, q, h => by cases h
  | .bool _, q, h | .i32 _, q, h | .u32 _, q, h | .f32 _, q, h | .f64 _, q, h => by
    cases h
    decide
  | .vector cs, q, h => by
    cases h
    exact named_componentType cs
  | .matrix [], q, h => by
    cases h
    decide
  | .matrix (c :: cols), q, h => by
    cases h
    exact named_componentType c

theorem named_componentType : ∀ vs : List Value, Value.componentType (Value.types vs) ∈ Primitive.named
  | [] => by decide
  | v :: vs => by
    rw [Value.types, Value.componentType]
    cases h : v.type.scalar? with
    | none => decide
    | some q => exact named_scalar v q h

end

theorem length_le_join {sep t : Text} {ts : List Text} (h : t ∈ ts) : t.length ≤ (Text.join sep ts).length := by
  cases ts with
  | nil => cases h
  | cons u us =>
    rw [Text.join_cons, List.length_append]
    obtain rfl | h := List.mem_cons.mp h
    · omega
    · obtain ⟨front, back, rfl⟩ := List.append_of_mem h
      simp only [List.flatMap_append, List.flatMap_cons, List.length_append]
      omega

theorem length_constantKey_component {v : Value} {cs : List Value} (h : v ∈ cs) :
    (constantKey v).length < (constantKey (.vector cs)).length := by
  have hprefix : 0 < (Text.ofString "vec(").length := by decide
  have hpart : (constantKey v).length ≤ (Text.join "," (constantKeys cs)).length :=
    length_le_join (by rw [constantKeys_eq_map]; exact List.mem_map_of_mem h)
  simp only [constantKey, List.length_append]
  omega

theorem length_constantKey_column {c : List Value} {cols : List (List Value)} (h : c ∈ cols) :
    (constantKey (.vector c)).length < (constantKey (.matrix cols)).length := by
  have hprefix : 0 < (Text.ofString "mat(").length := by decide
  have hpart : (constantKey (.vector c)).length ≤ (Text.join "," (columnKeys cols)).length :=
    length_le_join (by rw [columnKeys_eq_map]; exact List.mem_map_of_mem h)
  have hkey : constantKey (.matrix cols) = "mat(" ++ Text.join "," (columnKeys cols) ++ ")" := rfl
  rw [hkey]
  simp only [List.length_append]
  omega

section

variable {first : UInt32}

theorem grants_valueTypeId {v : Value} (hv : v.isComplete) {p : Pool} {es : List Item} (hp : Sound first p es) :
    Grants first (TypeBelow ((key v.type).length + 1)) p es (valueTypeId v)
      (fun es id => Numbered first es (.type (key v.type)) id) := by
  cases v with
  | absent => cases hv
  | vector cs => exact grants_vectorId (named_componentType cs) _ hp
  | matrix cols =>
    cases cols with
    | nil => exact grants_matrixId (by decide) 0 0 hp
    | cons c cols => exact grants_matrixId (named_componentType c) _ _ hp
  | _ => exact grants_primitiveId (by decide) hp

/-- A composite needs its type and its parts. -/
theorem grants_composite {v : Value} {parts : Pooling (List UInt32)} (ts : List Tag) (hv : v.isComplete)
    (hforms : ∀ {number type ids}, number (.type (key v.type)) type → List.Forall₂ number ts ids →
      Forms number (.constant v) (.composite type ids))
    (hparts : ∀ {p es}, Sound first p es → Grants first (ConstantsBelow (constantKey v).length) p es parts
      (fun es ids => List.Forall₂ (Numbered first es) ts ids))
    {p : Pool} {es : List Item} (hp : Sound first p es) :
    Grants first (ConstantsBelow ((constantKey v).length + 1)) p es
      (declaredConstant v do
        let type ← valueTypeId v
        build (Builder.constantComposite type (← parts)))
      (fun es id => Numbered first es (.constant (constantKey v)) id) := by
  have hpart : ∀ u, ConstantsBelow (constantKey v).length u →
      ConstantsBelow ((constantKey v).length + 1) u ∧ u ≠ .constant (constantKey v) :=
    fun u hu => ⟨hu.mono (Nat.le_succ _), hu.ne⟩
  refine grants_declaredConstant hp (Nat.lt_succ_self _) hpart fun _ => ?_
  refine Finishes.bind ((grants_valueTypeId hv hp).imp fun t ht => ht.constants) fun type q new hq _ htype => ?_
  refine Finishes.bind (hparts hq) fun ids r more hr _ hids => ?_
  exact Finishes.last (d := .composite type ids) hr rfl (hforms (htype.append more) hids)

theorem grants_vector {cs : List Value} (hcs : Value.areComplete cs)
    (hparts : ∀ {p es}, Sound first p es → Grants first (ConstantsBelow (constantKey (.vector cs)).length) p es
      (constantIds cs) (fun es ids => List.Forall₂ (Numbered first es) (cs.map fun v => .constant (constantKey v)) ids))
    {p : Pool} {es : List Item} (hp : Sound first p es) :
    Grants first (ConstantsBelow ((constantKey (.vector cs)).length + 1)) p es
      (declaredConstant (.vector cs) do
        let type ← valueTypeId (.vector cs)
        build (Builder.constantComposite type (← constantIds cs)))
      (fun es id => Numbered first es (.constant (constantKey (.vector cs))) id) :=
  grants_composite (v := .vector cs) _ hcs
    (fun htype hids => .composite htype (List.forall₂_map_left_iff.mp hids)) hparts hp

mutual

theorem grants_constantId : ∀ v : Value, v.isComplete → ∀ {p es}, Sound first p es →
    Grants first (ConstantsBelow ((constantKey v).length + 1)) p es (constantId v)
      (fun es id => Numbered first es (.constant (constantKey v)) id)
  | .absent, hv => by cases hv
  | .bool b, _ => fun hp => (grants_bool b hp).imp fun _ => constantsBelow_scalar
  | .i32 n, _ => fun hp => (grants_number rfl hp).imp fun _ => constantsBelow_scalar
  | .u32 n, _ => fun hp => (grants_number rfl hp).imp fun _ => constantsBelow_scalar
  | .f32 x, _ => fun hp => (grants_number rfl hp).imp fun _ => constantsBelow_scalar
  | .f64 x, _ => fun hp => (grants_number rfl hp).imp fun _ => constantsBelow_scalar
  | .vector cs, hcs => by
    intro hp
    rw [constantId]
    exact grants_vector hcs (fun hp => grants_constantIds cs hcs (fun v hv => length_constantKey_component hv) hp) hp
  | .matrix cols, hcols => by
    intro hp
    rw [constantId]
    apply grants_composite (cols.map fun c => .constant (constantKey (.vector c))) hcols
    · exact fun htype hids => .columns htype (List.forall₂_map_left_iff.mp hids)
    · exact fun hp => grants_columnIds cols hcols (fun c hc => length_constantKey_column hc) hp
    · exact hp

theorem grants_constantIds : ∀ vs : List Value, Value.areComplete vs → ∀ {n},
    (∀ v ∈ vs, (constantKey v).length < n) → ∀ {p es}, Sound first p es →
    Grants first (ConstantsBelow n) p es (constantIds vs)
      (fun es ids => List.Forall₂ (Numbered first es) (vs.map fun v => .constant (constantKey v)) ids)
  | [], _ => by
    intro _ p es hp
    rw [constantIds]
    exact .pure hp .nil
  | v :: vs, hvs => by
    intro hn p es hp
    simp only [Value.areComplete, Bool.and_eq_true] at hvs
    rw [List.forall_mem_cons] at hn
    rw [constantIds]
    apply Grants.cons
    · exact (grants_constantId v hvs.1 hp).imp fun _ ht => ht.mono hn.1
    · exact fun q new hq => grants_constantIds vs hvs.2 hn.2 hq

theorem grants_columnIds : ∀ cols : List (List Value), Value.columnsAreComplete cols → ∀ {n},
    (∀ c ∈ cols, (constantKey (.vector c)).length < n) → ∀ {p es}, Sound first p es →
    Grants first (ConstantsBelow n) p es (columnIds cols)
      (fun es ids => List.Forall₂ (Numbered first es) (cols.map fun c => .constant (constantKey (.vector c))) ids)
  | [], _ => by
    intro _ p es hp
    rw [columnIds]
    exact .pure hp .nil
  | c :: cols, hcols => by
    intro hn p es hp
    simp only [Value.columnsAreComplete, Bool.and_eq_true] at hcols
    rw [List.forall_mem_cons] at hn
    rw [columnIds]
    apply Grants.cons
    · have hvector := grants_vector hcols.1
        (fun hp => grants_constantIds c hcols.1 (fun v hv => length_constantKey_component hv) hp) hp
      exact hvector.imp fun _ ht => ht.mono hn.1
    · exact fun q new hq => grants_columnIds cols hcols.2 hn.2 hq

end

end

theorem nameMembers_run (id : UInt32) (name : Text) (members : List Text) (p : Pool) :
    ∃ q, nameMembers id name members p = .ok ((), q) ∧ Like p q := by
  have hname : ∀ (i : Instruction) (p : Pool), Like p { p with builder := (Builder.debugName i p.builder).2 } :=
    fun i p => ⟨rfl, rfl, find_builder p _⟩
  have hall : ∀ (indexed : List (Text × Nat)) (p : Pool), ∃ q,
      (indexed.forM fun m => build (Builder.memberName id m.2.toUInt32 m.1)) p = .ok ((), q) ∧ Like p q := by
    intro indexed
    induction indexed with
    | nil => exact fun p => ⟨p, rfl, .refl p⟩
    | cons m indexed ih =>
      intro p
      obtain ⟨q, hq, hlike⟩ := ih _
      exact ⟨q, bind_ok.mpr ⟨(), _, rfl, hq⟩, (hname _ p).trans hlike⟩
  obtain ⟨q, hq, hlike⟩ := hall members.zipIdx _
  exact ⟨q, bind_ok.mpr ⟨(), _, rfl, hq⟩, (hname _ p).trans hlike⟩

theorem length_key_length (t : Ty) (n : UInt32) : (key (.prim .u32)).length + 1 ≤ (key (.array t n)).length := by
  have hword : (key (.prim .u32)).length = 8 := by decide
  have hprefix : (Text.ofString "array:").length = 6 := by decide
  have hcolon : (Text.ofString ":").length = 1 := by decide
  have hsize : 0 < (if n = 0 then Text.ofString "runtime" else Text.ofNat n.toNat).length := by
    split
    · decide
    · exact List.length_pos_iff.mpr (Text.ofNat_ne_nil _)
  have helement : 0 < (key t).length := by
    cases t <;> exact Nat.zero_lt_succ _
  have hkey : key (.array t n) =
    "array:" ++ (if n = 0 then Text.ofString "runtime" else Text.ofNat n.toNat) ++ ":" ++ key t := rfl
  rw [hkey]
  simp only [List.length_append]
  omega

section

variable {first : UInt32} {kind : Tag → Prop} {p : Pool} {es : List Item}

theorem finishes_struct (r : Record Ty) (ids : List UInt32) (hp : Sound first p es) :
    Finishes first kind p es (do
      let id ← build (Builder.typeStruct ids)
      if (← get).debug then nameMembers id r.name (r.members.map (·.1))
      return id) (.type (.struct r)) := by
  let middle : Pool := { p with builder := (Builder.typeStruct ids p.builder).2 }
  have hlast : ∃ q, Like middle q ∧ (do
      if (← get).debug then nameMembers p.builder.next r.name (r.members.map (·.1))
      return p.builder.next : Pooling UInt32) middle = .ok (p.builder.next, q) := by
    obtain ⟨q, hq, hlike⟩ := nameMembers_run p.builder.next r.name (r.members.map (·.1)) middle
    cases hdebug : middle.debug with
    | true =>
      refine ⟨q, hlike, bind_ok.mpr ⟨middle, middle, rfl, ?_⟩⟩
      rw [if_pos hdebug]
      exact bind_ok.mpr ⟨(), q, hq, rfl⟩
    | false =>
      refine ⟨middle, .refl _, bind_ok.mpr ⟨middle, middle, rfl, ?_⟩⟩
      rw [if_neg (by rw [hdebug]; decide)]
      rfl
  obtain ⟨q, hlike, hrun⟩ := hlast
  refine ⟨p, q, [], .struct ids, bind_ok.mpr ⟨_, _, rfl, hrun⟩, ?_, ?_, List.forall_mem_nil _, .struct, hlike⟩
  · rw [List.append_nil]
    exact hp.toHolds
  · rw [List.append_nil]
    exact hp.paired.concat rfl

theorem grants_compound {t : Ty} {declare : Pooling UInt32} (hp : Sound first p es)
    (h : Finishes first (TypesBelow (key t).length) p es declare (.type t)) :
    Grants first (TypesBelow ((key t).length + 1)) p es (declaredType t declare)
      (fun es id => Numbered first es (.type (key t)) id) :=
  grants_declaredType hp (Nat.lt_succ_self _) (fun _ hu => ⟨hu.mono (Nat.le_succ _), hu.ne⟩) fun _ => h

end

section

variable {first : UInt32}

theorem grants_member {struct name : Text} {t : Ty} {kind : Tag → Prop} {post : List Item → UInt32 → Prop} {p : Pool}
    {es : List Item} (h : Grants first kind p es (typeId t) post) :
    Grants first kind p es (fun p => (typeId t p).mapError (.inMember struct name)) post := by
  obtain ⟨a, q, new, hact, hrest⟩ := h
  exact ⟨a, q, new, mapError_ok.mpr hact, hrest⟩

mutual

theorem grants_typeId : ∀ t : Ty, t.isDeclarable → ∀ {p es}, Sound first p es →
    Grants first (TypesBelow ((key t).length + 1)) p es (typeId t) (fun es id => Numbered first es (.type (key t)) id)
  | .void, _ => fun hp => by
    rw [typeId]
    exact (grants_voidId hp).imp fun _ => TypeBelow.types
  | .prim q, hq => fun hp => by
    rw [typeId]
    exact (grants_primitiveId (List.contains_iff_mem.mp hq) hp).imp fun _ => TypeBelow.types
  | .vector n q, hq => fun hp => by
    rw [typeId]
    exact (grants_vectorId (List.contains_iff_mem.mp hq) n hp).imp fun _ => TypeBelow.types
  | .matrix c r q, hq => fun hp => by
    rw [typeId]
    exact (grants_matrixId (List.contains_iff_mem.mp hq) c r hp).imp fun _ => TypeBelow.types
  | .sampler d q depth, h => fun hp => by
    simp only [Ty.isDeclarable, Bool.and_eq_true, List.contains_iff_mem] at h
    rw [typeId]
    exact (grants_samplerId h.1 h.2 depth hp).imp fun _ => TypeBelow.types
  | .array t n, ht => fun hp => by
    rw [typeId]
    apply grants_compound hp
    refine Finishes.bind ((grants_typeId t ht hp).imp fun _ hu => hu.mono (length_key_array t n)) ?_
    intro element q new hq _ helement
    split
    case isTrue hn =>
      subst hn
      exact Finishes.last (d := .runtimeArray element) hq rfl (.runtimeArray helement)
    case isFalse hn =>
      have hlength : ∀ u, TypeBelow ((key (.prim .u32)).length + 1) u ∨ u = .constant (constantKey (.u32 n)) →
          TypesBelow (key (.array t n)).length u := by
        rintro u (hu | rfl)
        · exact hu.types.mono (length_key_length t n)
        · exact trivial
      refine Finishes.bind ((grants_number (v := .u32 n) rfl hq).imp hlength) fun length r more hr _ hlength => ?_
      exact Finishes.last (d := .array element length) hr rfl (.array hn (helement.append more) hlength)
  | .struct r, hr => fun hp => by
    rw [typeId]
    apply grants_compound hp
    refine Finishes.bind (grants_memberIds r.name r.members hr (fun m hm => length_key_struct hm) hp) ?_
    intro ids q new hq _ _
    exact finishes_struct r ids hq
  | .unknown, h | .uniform _, h | .storage _, h | .func .., h | .intrinsic _, h => by cases h

theorem grants_memberIds (struct : Text) : ∀ ms : List (Text × Ty), Ty.areDeclarable ms → ∀ {n},
    (∀ m ∈ ms, (key m.2).length < n) → ∀ {p es}, Sound first p es →
    Grants first (TypesBelow n) p es (memberIds struct ms)
      (fun es ids => List.Forall₂ (Numbered first es) (ms.map fun m => .type (key m.2)) ids)
  | [], _ => by
    intro _ p es hp
    rw [memberIds]
    exact .pure hp .nil
  | (name, t) :: ms, hms => by
    intro hn p es hp
    simp only [Ty.areDeclarable, Bool.and_eq_true] at hms
    rw [List.forall_mem_cons] at hn
    rw [memberIds]
    apply Grants.cons
    · exact (grants_member (grants_typeId t hms.1 hp)).imp fun _ ht => ht.mono hn.1
    · exact fun q new hq => grants_memberIds struct ms hms.2 hn.2 hq

end

end

/-- A request for a number. -/
inductive Request
  | type (t : Ty)
  | pointer (storage base : UInt32)
  | function (result : UInt32) (params : List UInt32)
  | constant (v : Value)

namespace Request

/-- Is it for a type that a module declares, in which no name has separators, or for a constant in which nothing is
left out? Types of pointers and functions are requested by numbers, and these may be any. -/
def isProper : Request → Bool
  | .type t => t.isDeclarable && t.isSpelled
  | .constant v => v.isComplete
  | .pointer .. | .function .. => true

/-- The answer to a request. -/
def answer : Request → Pooling UInt32
  | .type t => typeId t
  | .pointer storage base => pointerType storage base
  | .function result params => functionType result params
  | .constant v => constantId v

/-- What is asked for. -/
def item : Request → Item
  | .type t => .type t
  | .pointer storage base => .pointer storage base
  | .function result params => .function result params
  | .constant v => .constant v

end Request

/-- Types and constants share a number if and only if they are equal, and no two declarations but those of structures
are alike apart from their numbers. -/
structure Exact (answers : List (Request × UInt32)) (declarations : List Instruction) : Prop where
  types : ∀ {t u a b}, (.type t, a) ∈ answers → (.type u, b) ∈ answers → (a = b ↔ t.same u)
  constants : ∀ {v w a b}, (.constant v, a) ∈ answers → (.constant w, b) ∈ answers → (a = b ↔ v.same w)
  unlike : ((declarations.filter (·.opcode ≠ .opTypeStruct)).map Instruction.unnumbered).Nodup

section

variable {first : UInt32} {p : Pool} {es : List Item}

theorem grants_answer {r : Request} (hr : r.isProper) (hp : Sound first p es) :
    Grants first (fun _ => True) p es r.answer (fun es id => Numbered first es r.item.tag id) := by
  cases r with
  | type t =>
    simp only [Request.isProper, Bool.and_eq_true] at hr
    exact (grants_typeId t hr.1 hp).imp fun _ _ => trivial
  | constant v => exact (grants_constantId v hr hp).imp fun _ _ => trivial
  | pointer storage base =>
    have hlast : Finishes first (· ≠ .pointer storage base) p es (build (Builder.typePointer storage base))
        (.pointer storage base) := Finishes.last (d := .pointer storage base) hp rfl .pointer
    exact grants_declared hp rfl rfl rfl (fun _ _ => rfl) trivial (fun _ hu => ⟨trivial, hu⟩) fun _ => hlast
  | function result params =>
    have hlast : Finishes first (· ≠ .function (functionKey result params)) p es
        (build (Builder.typeFunction result params)) (.function result params) :=
      Finishes.last (d := .function result params) hp rfl .function
    exact grants_declared hp rfl rfl rfl (fun _ _ => rfl) trivial (fun _ hu => ⟨trivial, hu⟩) fun _ => hlast

theorem grants_answers {rs : List Request} (hrs : ∀ r ∈ rs, r.isProper) (hp : Sound first p es) :
    Grants first (fun _ => True) p es (rs.mapM Request.answer)
      (fun es ids => List.Forall₂ (Numbered first es) (rs.map (·.item.tag)) ids) := by
  induction rs generalizing p es with
  | nil => exact .pure hp .nil
  | cons r rs ih =>
    rw [List.forall_mem_cons] at hrs
    rw [List.mapM_cons]
    exact Grants.cons (grants_answer hrs.1 hp) fun q new hq => ih hrs.2 hq

theorem exact_of_numbered {rs : List Request} {ids : List UInt32} (hrs : ∀ r ∈ rs, r.isProper) (hp : Holds first p es)
    (hes : es.length ≤ 2 ^ 32) (hids : List.Forall₂ (Numbered first es) (rs.map (·.item.tag)) ids) :
    Exact (rs.zip ids) p.builder.types.toList := by
  have hnumbered : ∀ {r a}, (r, a) ∈ rs.zip ids → r.isProper ∧ Numbered first es r.item.tag a := by
    intro r a hmem
    exact ⟨hrs r (List.of_mem_zip hmem).1, (List.forall₂_iff_zip.mp (List.forall₂_map_left_iff.mp hids)).2 hmem⟩
  constructor
  · intro t u a b ht hu
    obtain ⟨ht, hta⟩ := hnumbered ht
    obtain ⟨hu, hub⟩ := hnumbered hu
    simp only [Request.isProper, Bool.and_eq_true] at ht hu
    rw [← key_eq_iff_same ht.1 hu.1 ht.2 hu.2]
    constructor
    · rintro rfl
      exact Tag.type.inj (apart_numbered hes _ _ _ hta hub)
    · intro hkey
      have hua : Numbered first es (.type (key u)) a := hkey ▸ hta
      exact hua.unique hp.nodup hub
  · intro v w a b hv hw
    obtain ⟨hv, hva⟩ := hnumbered hv
    obtain ⟨hw, hwb⟩ := hnumbered hw
    rw [← constantKey_eq_iff_same hv hw]
    constructor
    · rintro rfl
      exact Tag.constant.inj (apart_numbered hes _ _ _ hva hwb)
    · intro hkey
      have hwa : Numbered first es (.constant (constantKey w)) a := hkey ▸ hva
      exact hwa.unique hp.nodup hwb
  · exact hp.nodup_unnumbered hes

theorem sound_start (b : Builder) (debug : Bool) (hb : b.types = #[]) :
    Sound b.next { builder := b, debug := debug } [] where
  size := by rw [hb]; rfl
  next := (UInt32.add_zero b.next).symm
  nodup := List.nodup_nil
  found := fun {t id} _ => by
    constructor
    · intro h
      cases t <;> cases h
    · rintro ⟨i, hi, -⟩
      cases hi
  forms := fun h => by cases h
  paired := fun _ _ _ h => by cases h

end

/-- In a module that declares no type and no constant yet, every sequence of proper requests is answered, and as long
as the numbers do not run over, no type and no constant is declared twice and none shares a number with another. -/
theorem requests_exact {b : Builder} (hb : b.types = #[]) (debug : Bool) {rs : List Request}
    (hrs : ∀ r ∈ rs, r.isProper) :
    ∃ ids q, rs.mapM Request.answer { builder := b, debug := debug } = .ok (ids, q) ∧ ids.length = rs.length ∧
      (q.builder.types.size ≤ 2 ^ 32 → Exact (rs.zip ids) q.builder.types.toList) := by
  obtain ⟨ids, q, es, hrun, hsound, -, hids⟩ := grants_answers hrs (sound_start b debug hb)
  refine ⟨ids, q, hrun, ?_, fun hsize => ?_⟩
  · rw [← hids.length_eq, List.length_map]
  · rw [hsound.size] at hsize
    exact exact_of_numbered hrs hsound.toHolds hsize hids

/-- Requests for an array twice, for its length, for a structure with it, and for types that need them. -/
def sampleRequests : List Request :=
  [.type (.array (.prim .f32) 4), .constant (.u32 4), .type (.struct ⟨0, "A", [("x", .array (.prim .f32) 4)]⟩),
    .type (.sampler .two .f32 false), .constant (.vector [.u32 4, .u32 4]), .pointer 7 4, .function 1 [4],
    .type (.array (.prim .f32) 4)]

theorem requests_exact_sample : (∀ r ∈ sampleRequests, r.isProper) ∧
    ∃ ids q, sampleRequests.mapM Request.answer { builder := { version := .v1_3 } } = .ok (ids, q) ∧
      ids = [4, 3, 5, 7, 9, 10, 11, 4] ∧ Exact (sampleRequests.zip ids) q.builder.types.toList := by
  have hproper : ∀ r ∈ sampleRequests, r.isProper := by decide
  obtain ⟨ids, q, hrun, -, hexact⟩ := requests_exact (b := { version := .v1_3 }) rfl false hproper
  have hids : (sampleRequests.mapM Request.answer { builder := { version := .v1_3 } }).toOption.map
      (fun x => (x.1, x.2.builder.types.size)) = some ([4, 3, 5, 7, 9, 10, 11, 4], 11) := by decide +kernel
  rw [hrun] at hids
  have hpair := Option.some.inj hids
  have hsize : q.builder.types.size = 11 := congrArg Prod.snd hpair
  exact ⟨hproper, ids, q, hrun, congrArg Prod.fst hpair, hexact (by omega)⟩

end Shading.Spirv.Pooling
