import Mathlib.Data.List.Perm.Basic
import Shading.Proofs.Module.Comparison
import Shading.Proofs.Wire.Locality
import Shading.Proofs.Wire.RoundTrip

/-! The binary form of a module: the texts that it uses stand in a table in front of the tree, and whatever is read
from arbitrary bytes can be stored again. -/
namespace Shading

namespace Wire

/-- Is the number, or the length of the text, one of 64 bits? -/
def Piece.HasMachineSize : Piece → Prop
  | .byte _ => True
  | .uint n => n < 2 ^ 64
  | .int n => -2 ^ 63 ≤ n ∧ n < 2 ^ 63
  | .text t => t.length < 2 ^ 64

instance (p : Piece) : Decidable p.HasMachineSize :=
  match p with
  | .byte _ => inferInstanceAs (Decidable True)
  | .uint n => inferInstanceAs (Decidable (n < 2 ^ 64))
  | .int n => inferInstanceAs (Decidable (-2 ^ 63 ≤ n ∧ n < 2 ^ 63))
  | .text t => inferInstanceAs (Decidable (t.length < 2 ^ 64))

/-- The text of a piece goes to the end of the table unless it stands there already. -/
private theorem mem_gather (ts table : List Text) (t : Text) :
    t ∈ ts.foldl (fun table t => if table.elem t then table else table ++ [t]) table ↔
      t ∈ table ∨ t ∈ ts := by
  induction ts generalizing table with
  | nil => simp
  | cons u ts ih =>
    rw [List.foldl_cons, ih]
    by_cases hu : u ∈ table
    · rw [if_pos (by simpa using hu), List.mem_cons]
      constructor
      · rintro (h | h)
        · exact .inl h
        · exact .inr (.inr h)
      · rintro (h | rfl | h)
        · exact .inl h
        · exact .inl hu
        · exact .inr h
    · rw [if_neg (by simpa using hu)]
      simp [or_assoc]

private theorem nodup_gather (ts table : List Text) (h : table.Nodup) :
    (ts.foldl (fun table t => if table.elem t then table else table ++ [t]) table).Nodup := by
  induction ts generalizing table with
  | nil => exact h
  | cons u ts ih =>
    rw [List.foldl_cons]
    split
    · exact ih table h
    · next hu =>
      have hne : ∀ a ∈ table, a ≠ u := by
        rintro a ha rfl
        exact hu (by simpa using ha)
      exact ih _ (List.nodup_append.mpr ⟨h, by simp, by simpa using hne⟩)

@[simp] theorem mem_tableOf {ps : List Piece} {t : Text} : t ∈ tableOf ps ↔ .text t ∈ ps := by
  rw [tableOf, mem_gather, List.mem_filterMap]
  constructor
  · rintro (h | ⟨p, hp, ht⟩)
    · simp at h
    · cases p with
      | text u =>
        obtain rfl : u = t := by simpa [Piece.text?] using ht
        exact hp
      | _ => simp [Piece.text?] at ht
  · intro h
    exact .inr ⟨.text t, h, rfl⟩

theorem nodup_tableOf (ps : List Piece) : (tableOf ps).Nodup := nodup_gather _ _ (by simp)

/-- The table of texts in bytes. -/
def tableBytes (table : List Text) : Text := table.flatMap fun t => uvarint t.length ++ t

/-- What stands between the magic and the tree. -/
def preambleBytes (table : List Text) : Text :=
  uvarint formatVersion ++ (uvarint table.length ++ tableBytes table)

theorem tableBytes_cons (t : Text) (table : List Text) :
    tableBytes (t :: table) = uvarint t.length ++ (t ++ tableBytes table) := by
  simp [tableBytes]

/-- Every entry takes at least the byte of its length. -/
theorem length_le_length_tableBytes (table : List Text) :
    table.length ≤ (tableBytes table).length := by
  induction table with
  | nil => simp
  | cons t table ih =>
    have ht := List.length_pos_iff.mpr (Piece.uvarint_ne_nil t.length)
    simp only [tableBytes_cons, List.length_cons, List.length_append]
    omega

namespace Decoder

/-- The bytes of a table entry are taken whole, whatever they are. -/
theorem tableEntry_bytes (t rest : Text) (size place : Nat) (ht : t.length < 2 ^ 64)
    (hsize : place + ((Wire.uvarint t.length).length + (t.length + rest.length)) ≤ size) :
    tableEntry ⟨#[], size⟩ ⟨place, Wire.uvarint t.length ++ (t ++ rest)⟩ =
      .ok (t, ⟨place + ((Wire.uvarint t.length).length + t.length), rest⟩) := by
  have hu : Decoder.uvarint ⟨#[], size⟩ ⟨place, Wire.uvarint t.length ++ (t ++ rest)⟩ =
      .ok (t.length, ⟨place + (Wire.uvarint t.length).length, t ++ rest⟩) := by
    simp only [Decoder.uvarint, varintAs, readUvarint_ten _ _ ht]
  unfold tableEntry
  rw [bind_of_ok (length_of_uvarint hu (by change _ ≤ size - (place + _); omega))]
  change Except.ok ((t ++ rest).take t.length, Cursor.mk _ ((t ++ rest).drop t.length)) = _
  rw [List.take_left, List.drop_left, Nat.add_assoc]

theorem times_tableEntry (table : List Text) (rest : Text) (size place : Nat)
    (ht : ∀ t ∈ table, t.length < 2 ^ 64)
    (hsize : place + ((tableBytes table).length + rest.length) ≤ size) :
    times tableEntry table.length ⟨#[], size⟩ ⟨place, tableBytes table ++ rest⟩ =
      .ok (table, ⟨place + (tableBytes table).length, rest⟩) := by
  induction table generalizing place with
  | nil => rfl
  | cons t table ih =>
    simp only [tableBytes_cons, List.length_append, List.append_assoc] at hsize ⊢
    have h₁ := tableEntry_bytes t (tableBytes table ++ rest) size place (ht t (by simp))
      (by simp only [List.length_append]; omega)
    have h₂ := ih (place + ((Wire.uvarint t.length).length + t.length))
      (fun u hu => ht u (by simp [hu])) (by omega)
    rw [List.length_cons, times, bind_of_ok h₁, bind_of_ok h₂, Nat.add_assoc place, Nat.add_assoc]
    rfl

/-- The format version and the table are read off a stored module. -/
theorem preamble_bytes (table : List Text) (rest : Text) (size place : Nat)
    (htable : table.length < 2 ^ 64) (ht : ∀ t ∈ table, t.length < 2 ^ 64)
    (hsize : place + ((preambleBytes table).length + rest.length) ≤ size) :
    preamble ⟨#[], size⟩ ⟨place, preambleBytes table ++ rest⟩ =
      .ok (table, ⟨place + (preambleBytes table).length, rest⟩) := by
  have hentries := length_le_length_tableBytes table
  simp only [preambleBytes, List.length_append, List.append_assoc] at hsize ⊢
  have hv : Decoder.uvarint ⟨#[], size⟩ ⟨place, Wire.uvarint formatVersion ++
      (Wire.uvarint table.length ++ (tableBytes table ++ rest))⟩ = .ok (formatVersion,
        ⟨place + (Wire.uvarint formatVersion).length,
          Wire.uvarint table.length ++ (tableBytes table ++ rest)⟩) := by
    simp only [Decoder.uvarint, varintAs, readUvarint_ten formatVersion _ (by decide)]
  have hn : Decoder.uvarint ⟨#[], size⟩ ⟨place + (Wire.uvarint formatVersion).length,
      Wire.uvarint table.length ++ (tableBytes table ++ rest)⟩ = .ok (table.length,
        ⟨place + (Wire.uvarint formatVersion).length + (Wire.uvarint table.length).length,
          tableBytes table ++ rest⟩) := by
    simp only [Decoder.uvarint, varintAs, readUvarint_ten table.length _ htable]
  have hl := length_of_uvarint hn (by simp only; omega)
  have hts := times_tableEntry table rest size
    (place + (Wire.uvarint formatVersion).length + (Wire.uvarint table.length).length) ht (by omega)
  unfold preamble
  rw [bind_of_ok hv]
  change (list tableEntry) _ _ = _
  unfold list
  rw [bind_of_ok hl, hts]
  simp only [Nat.add_assoc]

end Decoder

end Wire

namespace Module

open Wire

theorem encode_eq (m : Module) :
    m.encode = magic ++ (preambleBytes (tableOf (Encoder.moduleTree m)) ++
      Piece.bytes (tableOf (Encoder.moduleTree m)) (Encoder.moduleTree m)) := by
  simp only [encode, preambleBytes, tableBytes, Piece.bytes, List.append_assoc]

/-- A module whose tree can be read is read from its binary form. -/
theorem decode_encode_of_reads {m : Module}
    (hm : Decoder.Reads (tableOf (Encoder.moduleTree m)) (Decoder.moduleTree maxDepth)
      (Encoder.moduleTree m) m)
    (hfit : ∀ p ∈ Encoder.moduleTree m, p.Fits (tableOf (Encoder.moduleTree m)))
    (htexts : ∀ t ∈ tableOf (Encoder.moduleTree m), t.length < 2 ^ 64)
    (htable : (tableOf (Encoder.moduleTree m)).length < 2 ^ 64) : decode m.encode = .ok m := by
  have hlen := congrArg List.length (encode_eq m)
  simp only [List.length_append] at hlen
  have hdrop : Text.dropStart? magic m.encode =
      some (preambleBytes (tableOf (Encoder.moduleTree m)) ++
        Piece.bytes (tableOf (Encoder.moduleTree m)) (Encoder.moduleTree m)) := by
    rw [encode_eq, Text.dropStart?, if_pos (by simp), List.drop_left]
  have hpre := Decoder.preamble_bytes _
    (Piece.bytes (tableOf (Encoder.moduleTree m)) (Encoder.moduleTree m)) m.encode.length magic.length
    htable htexts (by omega)
  have htree := hm (Nat.le_of_lt htable) hfit m.encode.length
    (magic.length + (preambleBytes (tableOf (Encoder.moduleTree m))).length) []
    (by simp only [List.length_nil]; omega)
  rw [List.append_nil] at htree
  simp only [decode, hdrop, hpre, htree, bind, Except.bind]
  rfl

/-- What the binary form can hold: numbers and counts of 64 bits, selectors of at most four components,
and nodes that are nested no deeper than they are followed when the module is read. -/
structure IsStorable (m : Module) : Prop where
  sizes : ∀ p ∈ Encoder.moduleTree m, p.HasMachineSize
  texts : (tableOf (Encoder.moduleTree m)).length < 2 ^ 64
  selectors : ∀ e ∈ m.exprs, e.selectorsFit
  nesting : m.depth ≤ maxDepth

theorem IsStorable.decode_encode {m : Module} (h : m.IsStorable) : decode m.encode = .ok m := by
  refine decode_encode_of_reads (.moduleTree m maxDepth h.nesting h.selectors) ?_ ?_ h.texts
  · intro p hp
    have hsize := h.sizes p hp
    cases p with
    | text t => exact mem_tableOf.mpr hp
    | _ => exact hsize
  · intro t ht
    exact h.sizes _ (mem_tableOf.mp ht)

/-- Storing a module and reading it again gives the very same module, and storing that one gives the
same bytes. The two are found equal, unless a root is missing: then they cannot be compared. -/
theorem encode_decode_encode (m : Module) (h : m.IsStorable) :
    ∃ data m', encoded (some m) = .ok data ∧ decode data = .ok m' ∧ m' = m ∧
      m.equal? m' = (if m.isRooted then some true else none) ∧ encoded (some m') = .ok data :=
  ⟨m.encode, m, rfl, h.decode_encode, rfl, equal?_self m, rfl⟩

/-- A module with an import, a swizzle, a NaN, a number below zero, a structure type and texts that are
used more than once. -/
private def sample : Module where
  metadata := some { name := "a.b", version := 102, imports := ["lib"] }
  imported := [("lib", { root := some { body := [.noOp {}] } })]
  root := some
    { body := [
        .const {} { name := "c", id := -3, value := .literal {} (.matrix [[.f32 ⟨0x7FC00001⟩], [.i32 (-7)]]) },
        .function {} { name := "c", stage := .known .fragment } [
          .returnWith {} (.swizzle ⟨{}, .struct ⟨4, "s", [("x", .array (.vector 3 .f32) 0)]⟩⟩
            (.name {} "lib") ⟨2, 1, 0, 0, 3⟩)]] }

example : sample.IsStorable := ⟨by decide +kernel, by decide +kernel, by decide +kernel, by decide +kernel⟩

example : sample.isRooted = true ∧ equal? {} {} = none := ⟨by decide, rfl⟩

end Module

-- Modules read from arbitrary bytes. Readers give only values that they would read back from what is written for
-- these, so whatever is read can be stored again.

namespace Wire

namespace Decoder

variable {α β : Type}

/-- A reader whose values would be read back: what is written for the value is what was written for
`before` and some pieces from which the reader gets the value again, whatever the table. -/
structure Sound (d : Decoder α) (before : List Piece) (put : α → List Piece) : Prop extends Local d where
  traced : ∀ {i : Input} {c c' : Cursor} {x : α}, c.Within i.size → d i c = .ok (x, c') →
    ∃ ps, put x = before ++ ps ∧ (∀ p ∈ ps, p.Fits i.table.toList) ∧ ∀ table, Reads table d ps x

namespace Sound

variable {before : List Piece} {put : α → List Piece} {put' : β → List Piece}

protected theorem pure {x : α} (h : put x = before) : Sound (Pure.pure x) before put where
  toLocal := .pure x
  traced := by
    intro i c c' y _ h'
    cases h'
    exact ⟨[], by rw [h, List.append_nil], by simp, fun _ => .pure x⟩

theorem bindOf {d : Decoder α} {f : α → Decoder β} (hd : Sound d [] put)
    (hf : ∀ x, d.Gives x → Sound (f x) (before ++ put x) put') : Sound (d >>= f) before put' where
  toLocal := hd.toLocal.bind fun x hx => (hf x hx).toLocal
  traced := by
    intro i c c' y hc h
    obtain ⟨x, c₁, h₁, h₂⟩ := bind_ok h
    obtain ⟨ps, hps, hpfit, hpread⟩ := hd.traced hc h₁
    obtain ⟨qs, hqs, hqfit, hqread⟩ :=
      (hf x ⟨i, c, c₁, hc, h₁⟩).traced (hd.within hc h₁) h₂
    refine ⟨ps ++ qs, ?_, ?_, fun table => (hpread table).bind (hqread table)⟩
    · rw [hqs, hps, List.nil_append, List.append_assoc]
    · exact List.forall_mem_append.mpr ⟨hpfit, hqfit⟩

protected theorem bind {d : Decoder α} {f : α → Decoder β} (hd : Sound d [] put)
    (hf : ∀ x, Sound (f x) (before ++ put x) put') : Sound (d >>= f) before put' :=
  hd.bindOf fun x _ => hf x

/-- The last reader of a sequence, whose value only has to be put into place. -/
theorem last {d : Decoder α} {f : α → β} (hd : Sound d [] put)
    (hf : ∀ x, put' (f x) = before ++ put x) : Sound (d >>= fun x => Pure.pure (f x)) before put' :=
  hd.bind fun x => .pure (hf x)

theorem bindMap {γ : Type} {d : Decoder γ} {g : γ → α} {f : α → Decoder β} {put : γ → List Piece}
    (hd : Sound d [] put) (hf : ∀ x, Sound (f (g x)) (before ++ put x) put') :
    Sound (g <$> d >>= f) before put' := by
  rw [map_eq_bind, bind_assoc]
  exact hd.bind fun x => hf x

theorem bindPure {x : α} {f : α → Decoder β} (hf : Sound (f x) before put') :
    Sound (Pure.pure x >>= f) before put' := hf

theorem fail (f : Fault) : Sound (Decoder.fail f) before put where
  toLocal := .fail f
  traced := by
    intro i c c' x _ h
    cases h

theorem byte : Sound Decoder.byte [] fun b => [.byte b] where
  toLocal := .byte
  traced := by
    intro i c c' b _ _
    exact ⟨[.byte b], rfl, by simp [Piece.Fits], fun _ => .byte b⟩

theorem uvarint : Sound Decoder.uvarint [] fun n => [.uint n] where
  toLocal := .varintAs .uvarint
  traced := by
    intro i c c' n hc h
    have hn := varintAs_lt ⟨i, c, c', hc, h⟩
    exact ⟨[.uint n], rfl, by simpa [Piece.Fits] using hn, fun _ => .uvarint n⟩

theorem int : Sound Decoder.int [] fun n => [.int n] where
  toLocal := (Local.varintAs .varint).bind fun _ _ => .pure _
  traced := by
    intro i c c' n hc h
    obtain ⟨k, c₁, h₁, h₂⟩ := bind_ok h
    have hk := varintAs_lt ⟨i, c, c₁, hc, h₁⟩
    cases h₂
    have hfit : -2 ^ 63 ≤ unzigzag k ∧ unzigzag k < 2 ^ 63 := by
      simp only [unzigzag]
      split <;> omega
    exact ⟨[.int (unzigzag k)], rfl, by simpa [Piece.Fits] using hfit, fun _ => .int _⟩

theorem uint32 : Sound Decoder.uint32 [] Encoder.uint32 := by
  refine .bind uvarint fun n => ?_
  split
  · next hn => exact .pure (by simp [Encoder.uint32, Piece.ofUInt32, Nat.mod_eq_of_lt hn])
  · exact .fail _

theorem bool : Sound Decoder.bool [] Encoder.bool := by
  refine .bind byte fun b => ?_
  split
  · next hb => exact .pure (by simp [Encoder.bool, Piece.ofBool, hb])
  · split
    · next hb => exact .pure (by simp [Encoder.bool, Piece.ofBool, hb])
    · exact .fail _

theorem text : Sound Decoder.text [] fun t => [.text t] where
  toLocal := .text
  traced := by
    intro i c c' t _ h
    obtain ⟨n, _, hu⟩ := text_ok h
    have hmem : t ∈ i.table.toList := Array.mem_toList_iff.mpr (Array.mem_of_getElem? hu)
    exact ⟨[.text t], rfl, by simpa [Piece.Fits] using hmem, fun _ => .text t⟩

/-- The things that a run gives one after the other. -/
theorem times_ok {d : Decoder α} (hd : Sound d [] put) (n : Nat) {i : Input} {c c' : Cursor}
    {xs : List α} (hc : c.Within i.size) (h : d.times n i c = .ok (xs, c')) :
    xs.length = n ∧ (∀ p ∈ xs.flatMap put, p.Fits i.table.toList) ∧
      ∀ table, ∀ x ∈ xs, Reads table d (put x) x := by
  induction n generalizing c xs with
  | zero =>
    cases h
    exact ⟨rfl, by simp, by simp⟩
  | succ n ih =>
    obtain ⟨x, c₁, h₁, h₂⟩ := bind_ok h
    obtain ⟨ys, c₂, h₃, h₄⟩ := bind_ok h₂
    cases h₄
    obtain ⟨ps, hps, hfit, hread⟩ := hd.traced hc h₁
    obtain ⟨hlen, hfits, hreads⟩ := ih (hd.within hc h₁) h₃
    rw [List.nil_append] at hps
    subst hps
    refine ⟨by rw [List.length_cons, hlen], ?_, fun table => ?_⟩
    · rw [List.flatMap_cons]
      exact List.forall_mem_append.mpr ⟨hfit, hfits⟩
    · exact List.forall_mem_cons.mpr ⟨hread table, hreads table⟩

theorem list {d : Decoder α} (hd : Sound d [] put) (hne : ∀ x, put x ≠ []) :
    Sound d.list [] fun xs => .length xs :: xs.flatMap put where
  toLocal := hd.toLocal.list
  traced := by
    intro i c c' xs hc h
    obtain ⟨n, c₁, h₁, h₂⟩ := bind_ok h
    obtain ⟨hlen, hfit, hread⟩ := times_ok hd n (Local.length.within hc h₁) h₂
    have hn : xs.length < 2 ^ 64 := hlen ▸ (length_ok hc h₁).1
    refine ⟨_, rfl, List.forall_mem_cons.mpr ⟨hn, hfit⟩, fun table => ?_⟩
    exact .list put (fun x _ => hne x) (hread table)

theorem span : Sound Decoder.span [] Encoder.span := by
  have hpos : Sound position [] fun p => [.int p.line, .int p.column, .int p.offset] :=
    .bind int fun _ => .bind int fun _ => int.last fun _ => rfl
  exact .bind hpos fun _ => .bind hpos fun _ => text.last fun _ => rfl

theorem primitive : Sound Decoder.primitive [] fun p => [.byte p.code] :=
  byte.last fun _ => by simp

theorem record {d : Decoder Ty} (hd : Sound d [] Encoder.type) :
    Sound (Decoder.record d) [] fun r =>
      .int r.id :: .text r.name :: .length r.members :: Encoder.members r.members := by
  have hm : Sound (do return (← Decoder.text, ← d)) [] fun m => .text m.1 :: Encoder.type m.2 :=
    .bind text fun _ => hd.last fun _ => rfl
  refine .bind int fun id => .bind text fun name => (hm.list (by simp)).last fun ms => ?_
  simp [Encoder.members_eq_flatMap]

/-- The readers of types are sound in as many levels as there are. -/
theorem type (n : Nat) : Sound (Decoder.type n) [] Encoder.type := by
  induction n with
  | zero => exact .fail _
  | succ n ih =>
    refine .bind byte fun tag => ?_
    split
    · exact .pure rfl
    · exact primitive.last fun _ => rfl
    · exact .bind uint32 fun _ => primitive.last fun _ => rfl
    · exact .bind uint32 fun _ => .bind uint32 fun _ => primitive.last fun _ => rfl
    · exact .bind uint32 fun _ => ih.last fun _ => rfl
    · exact (record ih).last fun _ => rfl
    · exact .bind byte fun _ => .bind primitive fun _ => bool.last fun _ => by
        simp [Encoder.type, Encoder.bool]
    · exact (record ih).last fun _ => rfl
    · exact (record ih).last fun _ => rfl
    · exact .bind int fun _ => .bind text fun _ => .bind (ih.list Encoder.type_ne_nil) fun _ =>
        ih.last fun _ => by simp [Encoder.type, Encoder.types_eq_flatMap]
    · exact byte.last fun _ => by simp [Encoder.type]
    · exact .pure rfl
    · exact .fail _

theorem column {d : Decoder Value} (hd : Sound d [] Encoder.value) :
    Sound (Decoder.column d) [] fun c => Encoder.value (.vector c) := by
  refine hd.bind fun v => ?_
  split
  · exact .pure rfl
  · exact .fail _

theorem value (n : Nat) : Sound (Decoder.value n) [] Encoder.value := by
  induction n with
  | zero => exact .fail _
  | succ n ih =>
    refine .bind byte fun tag => ?_
    split
    · exact .pure rfl
    · exact bool.last fun _ => rfl
    · refine .bind int fun k => ?_
      split
      · next hk =>
        simp only [Bool.and_eq_true, decide_eq_true_eq] at hk
        exact .pure (by simp [Encoder.value, Int32.toInt_ofInt_of_le hk.1 (Int.lt_add_one_of_le hk.2)])
      · exact .fail _
    · exact uint32.last fun _ => rfl
    · exact uint32.last fun _ => rfl
    · refine uvarint.bindOf fun k hk => .pure ?_
      have hlt : k < 2 ^ 64 := varintAs_lt hk
      simpa [Encoder.value, Double.toNat] using Nat.mod_eq_of_lt hlt
    · exact (ih.list Encoder.value_ne_nil).last fun _ => by
        simp [Encoder.value, Encoder.values_eq_flatMap]
    · exact ((column ih).list fun _ => Encoder.value_ne_nil _).last fun _ => by
        simp [Encoder.value, Encoder.columns_eq_flatMap]
    · exact .fail _

theorem selector :
    Sound Decoder.selector [] fun s => .ofUInt32 s.count :: s.all.map .ofUInt32 := by
  refine .bind uint32 fun count => .bind uint32 fun _ => .bind uint32 fun _ => .bind uint32 fun _ =>
    .bind uint32 fun _ => ?_
  split
  · exact .fail _
  · exact .pure rfl

theorem nameAt : Sound Decoder.nameAt [] fun x => .text x.text :: Encoder.span x.span :=
  .bind text fun _ => span.last fun _ => rfl

theorem expr (n : Nat) : Sound (Decoder.expr n) [] Encoder.expr := by
  induction n with
  | zero => exact .fail _
  | succ n ih =>
    have ihs : Sound (Decoder.expr n).list [] fun es => .length es :: Encoder.exprs es := by
      simpa only [Encoder.exprs_eq_flatMap] using ih.list Encoder.expr_ne_nil
    refine .bind byte fun tag => ?_
    by_cases htag : tag = 0
    · rw [if_pos htag, htag]
      exact .pure rfl
    rw [if_neg htag]
    refine .bind span fun place => .bind (type n) fun t => ?_
    split
    case h_1 => exact text.last fun _ => by simp [Encoder.expr, Encoder.exprInfo]
    case h_2 => exact int.last fun _ => by simp [Encoder.expr, Encoder.exprInfo]
    case h_3 => exact int.last fun _ => by simp [Encoder.expr, Encoder.exprInfo]
    case h_4 => exact (value n).last fun _ => by simp [Encoder.expr, Encoder.exprInfo]
    case h_5 => exact .bind byte fun _ => .bind ih fun _ => ih.last fun _ => by
                  simp [Encoder.expr, Encoder.exprInfo]
    case h_6 => exact .bind byte fun _ => ih.last fun _ => by simp [Encoder.expr, Encoder.exprInfo]
    case h_7 => exact .bind byte fun _ => .bind ih fun _ => ih.last fun _ => by
                  simp [Encoder.expr, Encoder.exprInfo]
    case h_8 => exact .bind ih fun _ => ihs.last fun _ => by simp [Encoder.expr, Encoder.exprInfo]
    case h_9 => exact .bind ih fun _ => .bind ih fun _ => ih.last fun _ => by
                  simp [Encoder.expr, Encoder.exprInfo]
    case h_10 => exact .bind ih fun _ => ihs.last fun _ => by simp [Encoder.expr, Encoder.exprInfo]
    case h_11 => exact .bind ih fun _ => (nameAt.list (by simp)).last fun _ => by
                  simp [Encoder.expr, Encoder.exprInfo]
    case h_12 => exact .bind selector fun _ => ih.last fun _ => by
                  simp [Encoder.expr, Encoder.exprInfo]
    case h_13 => exact .bind ih fun _ => ihs.last fun _ => by simp [Encoder.expr, Encoder.exprInfo]
    case h_14 => exact .bind text fun _ => .bind ih fun _ => ihs.last fun _ => by
                  simp [Encoder.expr, Encoder.exprInfo]
    case h_15 => exact .bind byte fun _ => ihs.last fun _ => by simp [Encoder.expr, Encoder.exprInfo]
    case h_16 => exact int.last fun _ => by simp [Encoder.expr, Encoder.exprInfo]
    case h_17 => exact byte.last fun _ => by simp [Encoder.expr, Encoder.exprInfo]
    case h_18 => exact int.last fun _ => by simp [Encoder.expr, Encoder.exprInfo]
    case h_19 => exact (type n).last fun _ => by simp [Encoder.expr, Encoder.exprInfo]
    case h_20 => exact .fail _

section

variable {e : Decoder Expr}

theorem attr {d : Decoder α} (he : Sound e [] Encoder.expr) (hd : Sound d [] put) :
    Sound (Decoder.attr e d) [] (Encoder.attr put) := by
  refine .bind bool fun known => ?_
  cases known with
  | false => exact .bindPure <| he.last fun _ => rfl
  | true => exact .bindMap hd fun _ => he.last fun _ => by simp [Encoder.attr, Encoder.bool]

/-- An attribute whose value is kept as a code. -/
theorem attrCode {ofCode : UInt8 → α} {code : α → UInt8} (he : Sound e [] Encoder.expr)
    (h : ∀ b, code (ofCode b) = b) :
    Sound (Decoder.attr e (ofCode <$> Decoder.byte)) [] (Encoder.attr fun x => [.byte (code x)]) := by
  refine attr he ?_
  rw [map_eq_bind]
  exact byte.last fun b => by simp [h b]

theorem structMember (he : Sound e [] Encoder.expr) :
    Sound (Decoder.structMember e) [] Encoder.structMember :=
  .bind span fun _ => .bind text fun _ => .bind he fun _ =>
    .bind (attrCode he Builtin.code_ofCode) fun _ => .bind (attr he uint32) fun _ =>
    he.last fun _ => by simp [Encoder.structMember]

theorem param (he : Sound e [] Encoder.expr) : Sound (Decoder.param e) [] Encoder.param :=
  .bind span fun _ => .bind text fun _ => .bind int fun _ => he.last fun _ => by
    simp [Encoder.param]

theorem external (he : Sound e [] Encoder.expr) : Sound (Decoder.external e) [] Encoder.external :=
  .bind span fun _ => .bind text fun _ => .bind int fun _ => .bind he fun _ =>
    .bind (attr he uint32) fun _ => (attr he uint32).last fun _ => by simp [Encoder.external]

theorem importItem : Sound Decoder.importItem [] Encoder.importItem :=
  .bind span fun _ => .bind text fun _ => text.last fun _ => by simp [Encoder.importItem]

theorem sizes : Sound Decoder.sizes [] Encoder.sizes :=
  .bind uint32 fun _ => .bind uint32 fun _ => uint32.last fun _ => rfl

theorem head (he : Sound e [] Encoder.expr) : Sound (Decoder.head e) [] Encoder.head :=
  .bind text fun _ => .bind int fun _ =>
    .bind ((param he).list (by simp [Encoder.param, Encoder.span])) fun _ => .bind he fun _ =>
    .bind (attrCode he Stage.code_ofCode) fun _ => .bind (attr he bool) fun _ =>
    .bind (attrCode he DepthWrite.code_ofCode) fun _ => .bind (attr he sizes) fun _ =>
    (attr he bool).last fun _ => by simp [Encoder.head]

theorem unroll (he : Sound e [] Encoder.expr) : Sound (Decoder.unroll e) [] Encoder.unroll :=
  attrCode he Unroll.code_ofCode

end

theorem stmt (n : Nat) : Sound (Decoder.stmt n) [] Encoder.stmt := by
  induction n with
  | zero => exact .fail _
  | succ n ih =>
    have he := expr n
    have ihs : Sound (Decoder.stmt n).list [] fun ss => .length ss :: Encoder.stmts ss := by
      simpa only [Encoder.stmts_eq_flatMap] using ih.list Encoder.stmt_ne_nil
    have harms : Sound (Decoder.list do return (← Decoder.expr n, ← Decoder.stmt n)) []
        fun as => .length as :: Encoder.arms as := by
      have harm : Sound (do return (← Decoder.expr n, ← Decoder.stmt n)) []
          fun a => Encoder.expr a.1 ++ Encoder.stmt a.2 := .bind he fun _ => ih.last fun _ => rfl
      simpa only [Encoder.arms_eq_flatMap] using harm.list (by simp [Encoder.expr_ne_nil])
    have hitems := importItem.list (by simp [Encoder.importItem])
    have hmembers := (structMember he).list (by simp [Encoder.structMember])
    have hvars := (external he).list (by simp [Encoder.external])
    refine .bind byte fun tag => ?_
    by_cases htag : tag = 0
    · rw [if_pos htag, htag]
      exact .pure rfl
    rw [if_neg htag]
    refine .bind span fun place => ?_
    split
    case h_1 => exact he.last fun _ => by simp [Encoder.stmt]
    case h_2 => exact .bind text fun _ => .bind int fun _ => .bind he fun _ => he.last fun _ => by
                  simp [Encoder.stmt]
    case h_3 => exact .bind text fun _ => .bind int fun _ => .bind (attr he bool) fun _ =>
                  .bind he fun _ => he.last fun _ => by simp [Encoder.stmt]
    case h_4 => exact .bind text fun _ => .bind int fun _ => .bind (attr he bool) fun _ =>
                  he.last fun _ => by simp [Encoder.stmt]
    case h_5 => exact .bind text fun _ => .bind int fun _ => .bind he fun _ => he.last fun _ => by
                  simp [Encoder.stmt]
    case h_6 => exact .bind text fun _ => .bind int fun _ => .bind (attr he bool) fun _ =>
                  .bind (attrCode he Layout.code_ofCode) fun _ => hmembers.last fun _ => by
                  simp [Encoder.stmt]
    case h_7 => exact .bind (head he) fun _ => ihs.last fun _ => by simp [Encoder.stmt]
    case h_8 => exact .bind (attr he uint32) fun _ => hvars.last fun _ => by simp [Encoder.stmt]
    case h_9 => exact .bind bool fun _ => .bind harms fun _ => ih.last fun _ => by
                  simp [Encoder.stmt, Encoder.bool]
    case h_10 => exact .bind he fun _ => ih.last fun _ => by simp [Encoder.stmt]
    case h_11 => exact .bind text fun _ => .bind int fun _ => .bind (unroll he) fun _ =>
                  .bind he fun _ => .bind he fun _ => .bind he fun _ => ih.last fun _ => by
                  simp [Encoder.stmt]
    case h_12 => exact .bind text fun _ => .bind int fun _ => .bind (unroll he) fun _ =>
                  .bind he fun _ => ih.last fun _ => by simp [Encoder.stmt]
    case h_13 => exact .bind (unroll he) fun _ => .bind he fun _ => ih.last fun _ => by
                  simp [Encoder.stmt]
    case h_14 => exact he.last fun _ => by simp [Encoder.stmt]
    case h_15 => exact .pure (by simp [Encoder.stmt])
    case h_16 => exact .pure (by simp [Encoder.stmt])
    case h_17 => exact .pure (by simp [Encoder.stmt])
    case h_18 => exact .bind text fun _ => hitems.last fun _ => by simp [Encoder.stmt]
    case h_19 => exact ihs.last fun _ => by simp [Encoder.stmt]
    case h_20 => exact ih.last fun _ => by simp [Encoder.stmt]
    case h_21 => exact .pure (by simp [Encoder.stmt])
    case h_22 => exact .fail _

theorem metadata : Sound Decoder.metadata [] fun d => .text d.name :: .ofUInt32 d.version ::
    .text d.author :: .text d.description :: .text d.license :: .length d.imports ::
    d.imports.map .text :=
  .bind text fun _ => .bind uint32 fun _ => .bind text fun _ => .bind text fun _ =>
    .bind text fun _ => (text.list (by simp)).last fun _ => by
    simp [Encoder.uint32, List.map_eq_flatMap]

theorem moduleTree (n : Nat) : Sound (Decoder.moduleTree n) [] Encoder.moduleTree := by
  induction n with
  | zero => exact .fail _
  | succ n ih =>
    have himports : Sound (Decoder.list do return (← Decoder.text, ← Decoder.moduleTree n)) []
        fun ms => .length ms :: Encoder.imports ms := by
      have himport : Sound (do return (← Decoder.text, ← Decoder.moduleTree n)) []
          fun m => .text m.1 :: Encoder.moduleTree m.2 := .bind text fun _ => ih.last fun _ => rfl
      simpa only [Encoder.imports_eq_flatMap] using himport.list (by simp)
    refine .bind bool fun known => ?_
    cases known with
    | false =>
      refine .bindPure <| .bind himports fun _ => .bind (stmt n) fun _ => ?_
      split
      · exact .pure (by simp [Encoder.moduleTree, Encoder.metadata, Encoder.bool, Encoder.stmt])
      · exact .pure (by simp [Encoder.moduleTree, Encoder.metadata, Encoder.bool, Block.toStmt])
      · exact .fail _
    | true =>
      refine .bindMap metadata fun _ => .bind himports fun _ => .bind (stmt n) fun _ => ?_
      split
      · exact .pure (by simp [Encoder.moduleTree, Encoder.metadata, Encoder.bool, Encoder.stmt])
      · exact .pure (by simp [Encoder.moduleTree, Encoder.metadata, Encoder.bool, Block.toStmt])
      · exact .fail _

end Sound

theorem times_tableEntry_ok (n : Nat) {i : Input} {c c' : Cursor} {table : List Text}
    (hc : c.Within i.size) (h : times tableEntry n i c = .ok (table, c')) :
    table.length = n ∧ ∀ t ∈ table, t.length < 2 ^ 64 := by
  induction n generalizing c table with
  | zero =>
    cases h
    exact ⟨rfl, by simp⟩
  | succ n ih =>
    obtain ⟨t, c₁, h₁, h₂⟩ := bind_ok h
    obtain ⟨ts, c₂, h₃, h₄⟩ := bind_ok h₂
    cases h₄
    obtain ⟨k, c₃, h₅, h₆⟩ := bind_ok h₁
    have hk := (length_ok hc h₅).1
    obtain ⟨hlen, htexts⟩ := ih (Local.tableEntry.within hc h₁) h₃
    cases h₆
    refine ⟨by rw [List.length_cons, hlen], List.forall_mem_cons.mpr ⟨?_, htexts⟩⟩
    exact Nat.lt_of_le_of_lt (List.length_take_le _ _) hk

/-- The table and its texts have lengths of 64 bits. -/
theorem preamble_ok {i : Input} {c c' : Cursor} {table : List Text} (hc : c.Within i.size)
    (h : preamble i c = .ok (table, c')) :
    table.length < 2 ^ 64 ∧ ∀ t ∈ table, t.length < 2 ^ 64 := by
  obtain ⟨v, c₁, h₁, h₂⟩ := bind_ok h
  have hc₁ := (Local.varintAs .uvarint).within hc h₁
  by_cases hv : v = formatVersion
  · subst hv
    obtain ⟨n, c₂, h₃, h₄⟩ := bind_ok (show list tableEntry i c₁ = .ok (table, c') from h₂)
    obtain ⟨hlen, htexts⟩ := times_tableEntry_ok n (Local.length.within hc₁ h₃) h₄
    exact ⟨hlen ▸ (length_ok hc₁ h₃).1, htexts⟩
  · rw [if_pos hv] at h₂
    cases h₂

/-- Every run from a place of the input ends at a later place of the input, or fails at one. -/
def StaysInside (data : Text) (d : Decoder α) : Prop :=
  ∀ (table : Array Text) (c : Cursor), c.place ≤ data.length → c.rest = data.drop c.place →
    match d ⟨table, data.length⟩ c with
    | .ok (_, c') => c.place ≤ c'.place ∧ c'.place ≤ data.length ∧ c'.rest = data.drop c'.place
    | .error e => e.InRange data.length

theorem Local.staysInside {d : Decoder α} (hd : Local d) (data : Text) : d.StaysInside data := by
  intro table c hplace hrest
  have hc : c.Within data.length := by
    rw [Cursor.Within, hrest, List.length_drop]
    omega
  split
  · next x c' h =>
    obtain ⟨front, hfront, hplace'⟩ := hd.advances hc h
    have hc' : c'.place + c'.rest.length = data.length := hd.within hc h
    refine ⟨by omega, by omega, ?_⟩
    rw [hplace', ← List.drop_drop, ← hrest, hfront, List.drop_left]
  · next e h => exact hd.fails hc h

end Decoder

end Wire

/-- The message of every error starts alike. -/
theorem Wire.DecodeError.message_invalid (e : Wire.DecodeError) :
    Text.ofString "serialize: invalid encoding: " <+: e.message := by
  cases e with
  | magic => decide
  | version v => exact List.IsPrefix.trans (by decide) (List.prefix_append _ _)
  | trailing n =>
    rw [message, List.append_assoc]
    exact List.prefix_append _ _
  | invalid f place =>
    rw [message, List.append_assoc, List.append_assoc]
    exact List.prefix_append _ _

namespace Module

open Wire

theorem decode_of_not_magic {data : Text} (h : ¬ magic <+: data) : decode data = .error .magic := by
  have hdrop : Text.dropStart? magic data = none := by simpa [Text.dropStart?] using h
  simp only [decode, hdrop]
  rfl

theorem decode_magic (rest : Text) :
    decode (magic ++ rest) =
      match Decoder.preamble ⟨#[], (magic ++ rest).length⟩ ⟨magic.length, rest⟩ with
      | .error e => .error e
      | .ok (table, c) =>
        match Decoder.moduleTree maxDepth ⟨table.toArray, (magic ++ rest).length⟩ c with
        | .error e => .error e
        | .ok (m, c') => if c'.rest.isEmpty then .ok m else .error (.trailing c'.rest.length) := by
  have hdrop : Text.dropStart? magic (magic ++ rest) = some rest := by
    rw [Text.dropStart?, if_pos (by simp), List.drop_left]
  simp only [decode, hdrop, bind, Except.bind]
  cases Decoder.preamble ⟨#[], (magic ++ rest).length⟩ ⟨magic.length, rest⟩ with
  | error e => rfl
  | ok r =>
    obtain ⟨table, c⟩ := r
    dsimp only
    cases Decoder.moduleTree maxDepth ⟨table.toArray, (magic ++ rest).length⟩ c <;> rfl

/-- The cursor after the table stands in the same input. -/
theorem preamble_within {rest : Text} {table : List Text} {c : Cursor}
    (h : Decoder.preamble ⟨#[], (magic ++ rest).length⟩ ⟨magic.length, rest⟩ = .ok (table, c)) :
    c.Within (Input.mk table.toArray (magic ++ rest).length).size := by
  have hc : Cursor.Within ⟨magic.length, rest⟩ (magic ++ rest).length := by simp [Cursor.Within]
  have hc' := Decoder.Local.preamble.within hc h
  exact hc'

/-- What a module is read from. -/
theorem decode_ok {data : Text} {m : Module} (h : decode data = .ok m) :
    ∃ rest table c c', data = magic ++ rest ∧
      Decoder.preamble ⟨#[], data.length⟩ ⟨magic.length, rest⟩ = .ok (table, c) ∧
      Decoder.moduleTree maxDepth ⟨table.toArray, data.length⟩ c = .ok (m, c') ∧ c'.rest = [] := by
  by_cases hmagic : magic <+: data
  · obtain ⟨rest, rfl⟩ := hmagic
    rw [decode_magic] at h
    split at h
    · cases h
    · next table c hpre =>
      split at h
      · cases h
      · next m' c' htree =>
        split at h
        · next hend =>
          cases h
          exact ⟨rest, table, c, c', rfl, hpre, htree, List.isEmpty_iff.mp hend⟩
        · cases h
  · rw [decode_of_not_magic hmagic] at h
    cases h

theorem decode_error {data : Text} {e : DecodeError} (h : decode data = .error e) :
    e.InRange data.length := by
  by_cases hmagic : magic <+: data
  · obtain ⟨rest, rfl⟩ := hmagic
    have hc : Cursor.Within ⟨magic.length, rest⟩ (magic ++ rest).length := by simp [Cursor.Within]
    rw [decode_magic] at h
    split at h
    · next e' hpre =>
      cases h
      exact Decoder.Local.preamble.fails hc hpre
    · next table c hpre =>
      split at h
      · next e' htree =>
        cases h
        exact (Decoder.Sound.moduleTree maxDepth).fails (preamble_within hpre) htree
      · split at h
        · cases h
        · cases h
          trivial
  · rw [decode_of_not_magic hmagic] at h
    cases h
    trivial

/-- What is read can be stored, and is read again. -/
theorem decode_encode_of_decode {data : Text} {m : Module} (h : decode data = .ok m) :
    decode m.encode = .ok m := by
  obtain ⟨rest, table, c, c', rfl, hpre, htree, -⟩ := decode_ok h
  have hc : Cursor.Within ⟨magic.length, rest⟩ (magic ++ rest).length := by simp [Cursor.Within]
  obtain ⟨htable, htexts⟩ := Decoder.preamble_ok hc hpre
  obtain ⟨ps, hps, hfit, hread⟩ := (Decoder.Sound.moduleTree maxDepth).traced (preamble_within hpre) htree
  obtain rfl : Encoder.moduleTree m = ps := hps
  -- the texts of the tree come from the table that was read, each at most once
  have hsub : tableOf (Encoder.moduleTree m) ⊆ table := fun t ht => hfit _ (mem_tableOf.mp ht)
  have hlen := (List.subperm_of_subset (nodup_tableOf _) hsub).length_le
  refine decode_encode_of_reads (hread _) ?_ (fun t ht => htexts t (hsub ht)) (by omega)
  intro p hp
  have hsize := hfit p hp
  cases p with
  | text t => exact mem_tableOf.mpr hp
  | _ => exact hsize

/-- Bytes after a stored module are reported. -/
theorem decode_append {data : Text} {m : Module} (h : decode data = .ok m) {more : Text}
    (hmore : more ≠ []) : decode (data ++ more) = .error (.trailing more.length) := by
  obtain ⟨rest, table, c, c', rfl, hpre, htree, hend⟩ := decode_ok h
  have hc : Cursor.Within ⟨magic.length, rest⟩ (magic ++ rest).length := by simp [Cursor.Within]
  have hpre' := Decoder.Local.preamble.extended more hc hpre
  have htree' := (Decoder.Sound.moduleTree maxDepth).extended more (preamble_within hpre) htree
  rw [← List.length_append] at hpre' htree'
  rw [List.append_assoc] at hpre' htree' ⊢
  rw [decode_magic, hpre']
  simp only [htree', hend, List.nil_append, List.isEmpty_iff, if_neg hmore]

/-- Any bytes are either a stored module or reported as an invalid encoding at a place inside them. All
readers stay inside them. A module that is read from them is stored and read again as it is, and neither
a part of them from the start nor a continuation is a stored module as well. -/
theorem decode_arbitrary (data : Text) :
    ((∃ m, decode data = .ok m) ∨
      ∃ e, decode data = .error e ∧ Text.ofString "serialize: invalid encoding: " <+: e.message ∧
        e.InRange data.length) ∧
    (Decoder.preamble.StaysInside data ∧ ∀ levels,
      (Decoder.moduleTree levels).StaysInside data ∧ (Decoder.stmt levels).StaysInside data ∧
      (Decoder.expr levels).StaysInside data ∧ (Decoder.value levels).StaysInside data ∧
      (Decoder.type levels).StaysInside data) ∧
    ∀ m, decode data = .ok m →
      (∃ stored, encoded (some m) = .ok stored ∧ decode stored = .ok m) ∧
      (∀ more, more ≠ [] → ∀ m', decode (data ++ more) ≠ .ok m') ∧
      (∀ start, start <+: data → start ≠ data → ∀ m', decode start ≠ .ok m') := by
  refine ⟨?_, ⟨Decoder.Local.preamble.staysInside data, fun levels => ⟨?_, ?_, ?_, ?_, ?_⟩⟩, ?_⟩
  · cases h : decode data with
    | ok m => exact .inl ⟨m, rfl⟩
    | error e =>
      exact .inr ⟨e, rfl, e.message_invalid, decode_error h⟩
  · exact (Decoder.Sound.moduleTree levels).staysInside data
  · exact (Decoder.Sound.stmt levels).staysInside data
  · exact (Decoder.Sound.expr levels).staysInside data
  · exact (Decoder.Sound.value levels).staysInside data
  · exact (Decoder.Sound.type levels).staysInside data
  · intro m h
    refine ⟨⟨m.encode, rfl, decode_encode_of_decode h⟩, ?_, ?_⟩
    · intro more hmore m' h'
      rw [decode_append h hmore] at h'
      cases h'
    · rintro start ⟨more, rfl⟩ hne m' h'
      have hmore : more ≠ [] := by
        rintro rfl
        exact hne (List.append_nil start).symm
      rw [decode_append h' hmore] at h
      cases h

end Module

end Shading
