import Mathlib.Algebra.Group.Int.Defs
import Mathlib.Algebra.Group.Nat.Defs
import Shading.Wire.Decoder
import Shading.Wire.Encoder

/-! Readers undo writers piece by piece. A reader that gets the bytes of some pieces takes exactly these
and leaves the rest of the input alone. -/
namespace Shading.Wire

/-- The bytes of some pieces, one after the other. -/
def Piece.bytes (table : List Text) (ps : List Piece) : Text := ps.flatMap (Piece.render table)

/-- What can be stored: numbers of 64 bits and texts of the table. -/
def Piece.Fits (table : List Text) : Piece → Prop
  | .byte _ => True
  | .uint n => n < 2 ^ 64
  | .int n => -2 ^ 63 ≤ n ∧ n < 2 ^ 63
  | .text t => t ∈ table

namespace Piece

@[simp] theorem bytes_nil (table : List Text) : bytes table [] = [] := rfl

@[simp] theorem bytes_cons (table : List Text) (p : Piece) (ps : List Piece) :
    bytes table (p :: ps) = p.render table ++ bytes table ps := rfl

@[simp] theorem bytes_append (table : List Text) (ps qs : List Piece) :
    bytes table (ps ++ qs) = bytes table ps ++ bytes table qs := by
  simp [bytes]

theorem uvarint_ne_nil (n : Nat) : uvarint n ≠ [] := by
  rw [uvarint]
  split <;> simp

theorem one_le_length_render (table : List Text) (p : Piece) : 1 ≤ (p.render table).length := by
  cases p with
  | byte b => exact Nat.le_refl 1
  | uint n => exact List.length_pos_iff.mpr (uvarint_ne_nil n)
  | int n => exact List.length_pos_iff.mpr (uvarint_ne_nil _)
  | text t => exact List.length_pos_iff.mpr (uvarint_ne_nil _)

/-- Every piece takes at least one byte. -/
theorem length_le_length_bytes (table : List Text) (ps : List Piece) :
    ps.length ≤ (bytes table ps).length := by
  induction ps with
  | nil => simp
  | cons p ps ih =>
    have hp := one_le_length_render table p
    simp only [bytes_cons, List.length_cons, List.length_append]
    omega

end Piece

/-- A number below `2 * 128 ^ limit` is read back from its bytes. -/
theorem readUvarint_uvarint (limit n : Nat) (rest : Text) (hn : n < 2 * 128 ^ limit) :
    Decoder.readUvarint (limit + 1) (uvarint n ++ rest) = some (n, (uvarint n).length, rest) := by
  induction limit generalizing n with
  | zero =>
    have hsmall : n < 128 := by omega
    rw [uvarint, if_pos hsmall]
    have hb : n.toUInt8.toNat = n := by simp; omega
    have hlt : n.toUInt8 < 128 := by rw [UInt8.lt_iff_toNat_lt, hb]; simpa using hsmall
    have hle : ¬ 1 < n.toUInt8 := by rw [UInt8.lt_iff_toNat_lt, hb]; simp; omega
    simp [Decoder.readUvarint, hlt, hle, hb]
  | succ limit ih =>
    rw [uvarint]
    by_cases hsmall : n < 128
    · have hb : n.toUInt8.toNat = n := by simp; omega
      have hlt : n.toUInt8 < 128 := by rw [UInt8.lt_iff_toNat_lt, hb]; simpa using hsmall
      simp [hsmall, Decoder.readUvarint, hlt, hb]
    · have hb : (n % 128 + 128).toUInt8.toNat = n % 128 + 128 := by simp; omega
      have hge : ¬ (n % 128 + 128).toUInt8 < 128 := by rw [UInt8.lt_iff_toNat_lt, hb]; simp
      have hdiv : n / 128 < 2 * 128 ^ limit := by
        rw [Nat.div_lt_iff_lt_mul (by decide)]
        rw [Nat.pow_succ] at hn
        omega
      have hvalue : n % 128 + 128 * (n / 128) = n := Nat.mod_add_div n 128
      simp only [if_neg hsmall, List.cons_append, Decoder.readUvarint, if_neg hge, ih _ hdiv, hb]
      simp [hvalue]

theorem readUvarint_ten (n : Nat) (rest : Text) (hn : n < 2 ^ 64) :
    Decoder.readUvarint 10 (uvarint n ++ rest) = some (n, (uvarint n).length, rest) :=
  readUvarint_uvarint 9 n rest hn

@[simp] theorem unzigzag_zigzag (n : Int) : unzigzag (zigzag n) = n := by
  cases n with
  | ofNat n => simp [zigzag, unzigzag]
  | negSucc n =>
    have hodd : (2 * n + 1) % 2 ≠ 0 := by omega
    have hhalf : (2 * n + 1) / 2 = n := by omega
    rw [zigzag, unzigzag, if_neg hodd, hhalf]

theorem zigzag_lt {n : Int} (hlo : -2 ^ 63 ≤ n) (hhi : n < 2 ^ 63) : zigzag n < 2 ^ 64 := by
  cases n with
  | ofNat n => rw [zigzag]; change (n : Int) < _ at hhi; omega
  | negSucc n => rw [zigzag]; omega

namespace Decoder

variable {α β : Type}

theorem bind_of_ok {d : Decoder α} {f : α → Decoder β} {i : Input} {c c' : Cursor} {x : α}
    (h : d i c = .ok (x, c')) : (d >>= f) i c = f x i c' := by
  change (d i c >>= fun r => f r.1 i r.2) = f x i c'
  rw [h]
  rfl

theorem bind_of_error {d : Decoder α} {f : α → Decoder β} {i : Input} {c : Cursor} {e : DecodeError}
    (h : d i c = .error e) : (d >>= f) i c = .error e := by
  change (d i c >>= fun r => f r.1 i r.2) = .error e
  rw [h]
  rfl

/-- A count that does not exceed what is left is taken as it is. -/
theorem length_of_uvarint {i : Input} {c c' : Cursor} {n : Nat} (h : uvarint i c = .ok (n, c'))
    (hn : n ≤ i.size - c'.place) : length i c = .ok (n, c') := by
  unfold length
  rw [bind_of_ok h]
  change (if i.size - c'.place < n then fail (.length n) else pure n : Decoder Nat) i c' = _
  rw [if_neg (by omega)]
  rfl

/-- A text is looked up in the table by its number. -/
theorem text_of_uvarint {i : Input} {c c' : Cursor} {n : Nat} (h : uvarint i c = .ok (n, c')) :
    text i c = (i.table[n]?).elim (.error (.invalid (.textIndex n) c'.place)) fun t => .ok (t, c') := by
  unfold text
  have hread : (read : Decoder Input) i c' = .ok (i, c') := rfl
  rw [bind_of_ok h, bind_of_ok hread]
  cases i.table[n]? <;> rfl

theorem map_eq_bind (f : α → β) (d : Decoder α) : f <$> d = d >>= fun a => pure (f a) :=
  map_eq_pure_bind f d

end Decoder

/-- A reader takes the bytes of some pieces off the input and gives a value. -/
def Decoder.Reads {α : Type} (table : List Text) (d : Decoder α) (ps : List Piece) (x : α) : Prop :=
  table.length ≤ 2 ^ 64 → (∀ p ∈ ps, p.Fits table) → ∀ (size place : Nat) (rest : Text),
    place + ((Piece.bytes table ps).length + rest.length) ≤ size →
    d ⟨table.toArray, size⟩ ⟨place, Piece.bytes table ps ++ rest⟩ =
      .ok (x, ⟨place + (Piece.bytes table ps).length, rest⟩)

namespace Decoder.Reads

variable {α β : Type} {table : List Text} {ps qs : List Piece}

protected theorem pure (x : α) : Reads table (pure x) [] x := by
  intro _ _ size place rest _
  rfl

protected theorem bind {d : Decoder α} {f : α → Decoder β} {x : α} {y : β}
    (hd : Reads table d ps x) (hf : Reads table (f x) qs y) : Reads table (d >>= f) (ps ++ qs) y := by
  intro ht hfit size place rest hsize
  rw [Piece.bytes_append, List.length_append] at hsize
  have h₁ := hd ht (fun p hp => hfit p (List.mem_append_left _ hp)) size place
    (Piece.bytes table qs ++ rest) (by simp only [List.length_append]; omega)
  have h₂ := hf ht (fun p hp => hfit p (List.mem_append_right _ hp)) size
    (place + (Piece.bytes table ps).length) rest (by omega)
  rw [Piece.bytes_append, List.append_assoc, List.length_append, ← Nat.add_assoc]
  rw [bind_of_ok h₁, h₂]

/-- A reader after which nothing is read any more. -/
theorem bindNil {d : Decoder α} {f : α → Decoder β} {x : α} {y : β} (hd : Reads table d ps x)
    (hf : Reads table (f x) [] y) : Reads table (d >>= f) ps y := by
  have h := hd.bind hf
  rwa [List.append_nil] at h

/-- The last reader of a sequence, whose value only has to be put into place. -/
theorem last {d : Decoder α} {x : α} {y : β} {f : α → β} (hd : Reads table d ps x) (hy : f x = y) :
    Reads table (d >>= fun a => Pure.pure (f a)) ps y :=
  hd.bindNil (hy ▸ .pure (f x))

protected theorem map {d : Decoder α} {x : α} {y : β} {f : α → β} (hd : Reads table d ps x)
    (hy : f x = y) : Reads table (f <$> d) ps y := by
  rw [map_eq_bind]
  exact hd.last hy

/-- The reader of one piece, and the readers after it. -/
protected theorem cons {d : Decoder α} {f : α → Decoder β} {p : Piece} {x : α} {y : β}
    (hd : Reads table d [p] x) (hf : Reads table (f x) qs y) : Reads table (d >>= f) (p :: qs) y :=
  hd.bind hf

theorem done {x y : α} (h : x = y) : Reads table (Pure.pure x) [] y := h ▸ .pure x

theorem byte (b : UInt8) : Reads table Decoder.byte [.byte b] b := by
  intro _ _ size place rest _
  rfl

theorem varintAs (f : Fault) (n : Nat) {p : Piece} (hp : p.render table = Wire.uvarint n)
    (hn : table.length ≤ 2 ^ 64 → p.Fits table → n < 2 ^ 64) :
    Reads table (Decoder.varintAs f) [p] n := by
  intro ht hfit size place rest _
  have h := readUvarint_ten n rest (hn ht (hfit p (by simp)))
  simp only [Piece.bytes_cons, Piece.bytes_nil, List.append_nil, hp, Decoder.varintAs, h]

theorem uvarint (n : Nat) : Reads table Decoder.uvarint [.uint n] n :=
  varintAs .uvarint n rfl fun _ h => h

theorem int (n : Int) : Reads table Decoder.int [.int n] n := by
  have h : Reads table (Decoder.varintAs .varint) [.int n] (zigzag n) :=
    varintAs .varint (zigzag n) rfl fun _ h => zigzag_lt h.1 h.2
  have hb : Reads table Decoder.int [.int n] (unzigzag (zigzag n)) := h.last rfl
  rwa [unzigzag_zigzag] at hb

theorem uint32 (n : UInt32) : Reads table Decoder.uint32 [.ofUInt32 n] n := by
  have hn : n.toNat < UInt32.size := n.toNat_lt
  refine .cons (uvarint n.toNat) ?_
  rw [if_pos hn]
  exact .done (by simp)

theorem bool (b : Bool) : Reads table Decoder.bool [.ofBool b] b := by
  refine .cons (byte _) ?_
  cases b with
  | false => exact .pure false
  | true => exact .pure true

theorem text (t : Text) : Reads table Decoder.text [.text t] t := by
  intro ht hfit size place rest hsize
  have hmem : t ∈ table := hfit (.text t) (by simp)
  have hidx : table.idxOf t < table.length := List.idxOf_lt_length_of_mem hmem
  have hget : table.toArray[table.idxOf t]? = some t := by
    rw [List.getElem?_toArray, List.getElem?_eq_getElem hidx, List.getElem_idxOf hidx]
  have hn : Reads table Decoder.uvarint [.text t] (table.idxOf t) :=
    varintAs .uvarint _ rfl fun ht _ => Nat.lt_of_lt_of_le hidx ht
  have h := hn ht hfit size place rest hsize
  rw [text_of_uvarint h, hget]
  rfl

theorem span (s : Span) : Reads table Decoder.span (Encoder.span s) s := by
  have hpos : ∀ p : Position, Reads table position [.int p.line, .int p.column, .int p.offset] p :=
    fun p => .cons (int _) <| .cons (int _) <| .cons (int _) <| .done rfl
  exact .bind (hpos s.start) <| .bind (hpos s.stop) <| .cons (text _) <| .done rfl

theorem times {d : Decoder α} (put : α → List Piece) {xs : List α}
    (h : ∀ x ∈ xs, Reads table d (put x) x) :
    Reads table (d.times xs.length) (xs.flatMap put) xs := by
  induction xs with
  | nil => exact .pure []
  | cons x xs ih =>
    have hx := h x (by simp)
    have hxs := ih fun y hy => h y (by simp [hy])
    exact .bind hx <| hxs.last rfl

/-- The number of things never exceeds what is left, because each of them takes a byte. -/
theorem list {d : Decoder α} (put : α → List Piece) {xs : List α}
    (hne : ∀ x ∈ xs, put x ≠ []) (h : ∀ x ∈ xs, Reads table d (put x) x) :
    Reads table d.list (.length xs :: xs.flatMap put) xs := by
  have hlen : xs.length ≤ (xs.flatMap put).length := by
    clear h
    induction xs with
    | nil => simp
    | cons x xs ih =>
      have hx : 0 < (put x).length := List.length_pos_iff.mpr (hne x (by simp))
      have hxs := ih fun y hy => hne y (by simp [hy])
      simp only [List.flatMap_cons, List.length_append, List.length_cons]
      omega
  intro ht hfit size place rest hsize
  have hbytes := Piece.length_le_length_bytes table (xs.flatMap put)
  rw [Piece.bytes_cons, List.length_append] at hsize ⊢
  have hn : Decoder.uvarint ⟨table.toArray, size⟩
      ⟨place, Wire.uvarint xs.length ++ (Piece.bytes table (xs.flatMap put) ++ rest)⟩ =
      .ok (xs.length, ⟨place + (Wire.uvarint xs.length).length,
        Piece.bytes table (xs.flatMap put) ++ rest⟩) := by
    have hu : Reads table Decoder.uvarint [.uint xs.length] xs.length := uvarint _
    have h := hu ht (fun p hp => hfit p (by simp_all [Piece.length])) size place
      (Piece.bytes table (xs.flatMap put) ++ rest)
    simp only [Piece.bytes_cons, Piece.bytes_nil, List.append_nil, List.length_append] at h
    exact h (by simp only [Piece.length, Piece.render] at hsize ⊢; omega)
  have hxs := times put h ht (fun p hp => hfit p (List.mem_cons_of_mem _ hp)) size
    (place + (Wire.uvarint xs.length).length) rest
    (by simp only [Piece.length, Piece.render] at hsize; omega)
  have hl := length_of_uvarint hn (by simp only [Piece.length, Piece.render] at hsize ⊢; omega)
  unfold Decoder.list
  rw [Piece.length, Piece.render, List.append_assoc, bind_of_ok hl, hxs, Nat.add_assoc]

end Decoder.Reads

end Shading.Wire
