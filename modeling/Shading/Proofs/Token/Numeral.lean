import Shading.Literal
import Shading.Proofs.Token.Lexing

/-! Numbers as they are written are read as one token. -/
namespace Shading

/-- What holds of the ten digits holds of all bytes that are digits. -/
theorem Decimal.forall_isDigit {p : UInt8 → Prop} (h : ∀ d : Fin 10, p (Text.byte '0' + d.val.toUInt8)) :
    ∀ b, isDigit b → p b := by
  intro b hb
  rw [isDigit, Bool.and_eq_true, decide_eq_true_eq, decide_eq_true_eq, UInt8.le_iff_toNat_le,
    UInt8.le_iff_toNat_le] at hb
  have hzero : (Text.byte '0').toNat = 48 := rfl
  have hnine : (Text.byte '9').toNat = 57 := rfl
  have hdigit := h ⟨b.toNat - 48, by omega⟩
  have heq : Text.byte '0' + (b.toNat - 48).toUInt8 = b := by
    apply UInt8.toNat_inj.mp
    rw [UInt8.toNat_add, hzero, Nat.toUInt8_eq, UInt8.toNat_ofNat']
    omega
  rwa [heq] at hdigit

namespace Lexer

open Rune (ofText ascii)

/-- Digits of ASCII as bytes and as characters. -/
theorem isDigit_ascii : ∀ b, Decimal.isDigit b → b < 0x80 ∧ (ascii b).char.isDigit :=
  Decimal.forall_isDigit (by decide)

theorem ahead_append {p : Char → Bool} {rs rest : List Rune} (hrs : ∀ r ∈ rs, p r.char = false)
    (hrest : ahead p rest = false) : ahead p (rs ++ rest) = false := by
  cases rs with
  | nil => exact hrest
  | cons r rs => exact hrs r (by simp)

/-- What fails for all digits fails for the runes that are digits. -/
theorem forall_digit {p : Char → Bool} (hp : ∀ c ∈ "0123456789".toList, p c = false) {c : Char}
    (hc : c.isDigit) : p c = false := by
  have hmem : c.isDigit → c ∈ "0123456789".toList :=
    forall_ascii (fun c => c.isDigit → c ∈ "0123456789".toList) (by decide) (toNat_lt_of_isDigit hc)
  exact hp c (hmem hc)

/-- No point that starts softly starts a fraction. -/
theorem fraction_of_softAhead {rs : List Rune} (h : softAhead rs) :
    (ahead (· = '.') rs && !ahead isWordStart (rs.drop 1)) = false := by
  cases rs with
  | nil => rfl
  | cons r rs =>
    simp only [softAhead, Bool.or_eq_true, Bool.and_eq_true, beq_iff_eq, List.elem_eq_mem,
      decide_eq_true_eq] at h
    rw [ahead, List.drop_one, List.tail_cons]
    rcases h with h | ⟨_, h⟩
    · have hne : ∀ c ∈ " \n()[],;:".toList, (decide (c = '.')) = false := by decide
      rw [hne _ h, Bool.false_and]
    · rw [h, Bool.not_true, Bool.and_false]

/-- The end of a number, where it may be marked as a float or as unsigned. -/
def numberEnd (isFloat : Bool) (size : Nat) (rest : List Rune) : Step :=
  let kind : TokenKind := if isFloat || ahead (· = 'f') rest then .floatLiteral else .intLiteral
  let ending := if ahead (· = 'f') rest || (!isFloat && ahead (· = 'u') rest) then 1 else 0
  if ahead (fun c => Letter.isLetter c || c.isDigit) (rest.drop ending) then .fault .suffix (size + ending)
  else .token kind (size + ending)

/-- A number from its exponent on. -/
def numberScale (isFloat : Bool) (size : Nat) (rest : List Rune) : Step :=
  let scaled := ahead (fun c => c = 'e' || c = 'E') rest
  let mark := if !scaled then 0
    else if ahead (fun c => c = '+' || c = '-') (rest.drop 1) then 2 else 1
  if scaled && !ahead Char.isDigit (rest.drop mark) then .fault .exponent (size + mark)
  else
    let power := if scaled then run Char.isDigit (rest.drop mark) else 0
    numberEnd (isFloat || scaled) (size + mark + power) ((rest.drop mark).drop power)

/-- A decimal number has a fraction if a point without a name follows its digits. -/
theorem number_eq {c : Char} {ds rest : List Rune} (hc : c.isDigit) (hds : ∀ r ∈ ds, r.char.isDigit)
    (hrest : ahead (fun c => c.isDigit || c = '_' || c = 'x' || c = 'X') rest = false) :
    number c (ds ++ rest) =
      if ahead (· = '.') rest && !ahead isWordStart (rest.drop 1) then
        numberScale true (1 + ds.length + (1 + run Char.isDigit (rest.drop 1)))
          (rest.drop (1 + run Char.isDigit (rest.drop 1)))
      else numberScale false (1 + ds.length) rest := by
  have hsplit : ∀ {p q : Char → Bool} {rs}, ahead (fun c => p c || q c) rs = false →
      ahead p rs = false ∧ ahead q rs = false := by
    intro p q rs h
    cases rs with
    | nil => exact ⟨rfl, rfl⟩
    | cons r rs => simpa [ahead] using h
  have hX := hsplit (p := fun c => c.isDigit || c = '_' || c = 'x') hrest
  have hxx := hsplit (p := fun c => c.isDigit || c = '_') hX.1
  have hx : ahead (fun c => c = 'x' || c = 'X') (ds ++ rest) = false := by
    refine ahead_append
      (fun r hr => forall_digit (p := fun c => c = 'x' || c = 'X') (by decide) (hds r hr)) ?_
    cases rest with
    | nil => rfl
    | cons r rest =>
      have h₁ := hxx.2
      have h₂ := hX.2
      simp only [ahead, decide_eq_false_iff_not] at h₁ h₂
      simp [ahead, h₁, h₂]
  have hrun : run (fun c => c.isDigit || c = '_') (ds ++ rest) = ds.length :=
    run_append (fun r hr => by simp [hds r hr]) hxx.1
  have hdot : decide (c = '.') = false := forall_digit (p := fun c => c = '.') (by decide) hc
  have hdot' : decide (c ≠ '.') = true := by simpa using hdot
  unfold number
  simp only [hx, Bool.and_false, hrun, List.drop_left, hdot, hdot', Bool.true_and, Bool.false_or,
    Bool.false_eq_true, if_false]
  cases hp : ahead (fun x => decide (x = '.')) rest && !ahead isWordStart (List.drop 1 rest) with
  | false => rfl
  | true => rfl

theorem numberEnd_float {size : Nat} {rest : List Rune} (h : softAhead rest) :
    numberEnd true size rest = .token .floatLiteral size := by
  have hf : ahead (· = 'f') rest = false := ahead_of_softAhead _ h (by decide)
  have hl : ahead (fun c => Letter.isLetter c || c.isDigit) rest = false :=
    ahead_of_softAhead _ h (by decide)
  simp [numberEnd, hf, hl]

theorem numberEnd_int {size : Nat} {rest : List Rune} (h : softAhead rest) :
    numberEnd false size rest = .token .intLiteral size := by
  have hf : ahead (· = 'f') rest = false := ahead_of_softAhead _ h (by decide)
  have hu : ahead (· = 'u') rest = false := ahead_of_softAhead _ h (by decide)
  have hl : ahead (fun c => Letter.isLetter c || c.isDigit) rest = false :=
    ahead_of_softAhead _ h (by decide)
  simp [numberEnd, hf, hu, hl]

theorem numberEnd_unsigned {size : Nat} {rest : List Rune} (h : softAhead rest) :
    numberEnd false size (ascii 117 :: rest) = .token .intLiteral (size + 1) := by
  have hf : ahead (· = 'f') (ascii 117 :: rest) = false := rfl
  have hu : ahead (· = 'u') (ascii 117 :: rest) = true := rfl
  have hl : ahead (fun c => Letter.isLetter c || c.isDigit) rest = false :=
    ahead_of_softAhead _ h (by decide)
  simp [numberEnd, hf, hu, hl]

theorem numberScale_plain {isFloat : Bool} {size : Nat} {rest : List Rune}
    (h : ahead (fun c => c = 'e' || c = 'E') rest = false) :
    numberScale isFloat size rest = numberEnd isFloat size rest := by
  simp [numberScale, h]

theorem numberScale_scaled {isFloat : Bool} {size : Nat} {sign : UInt8} {xs rest : List Rune}
    (hsign : sign = 43 ∨ sign = 45) (hne : xs ≠ []) (hxs : ∀ r ∈ xs, r.char.isDigit)
    (hrest : softAhead rest) :
    numberScale isFloat size (ascii 101 :: ascii sign :: (xs ++ rest)) =
      .token .floatLiteral (size + 2 + xs.length) := by
  have he : ahead (fun c => c = 'e' || c = 'E') (ascii 101 :: ascii sign :: (xs ++ rest)) = true := rfl
  have hs : ahead (fun c => c = '+' || c = '-') (ascii sign :: (xs ++ rest)) = true := by
    rcases hsign with rfl | rfl <;> rfl
  have hdigit : ahead Char.isDigit (xs ++ rest) = true := by
    cases xs with
    | nil => exact absurd rfl hne
    | cons x xs => exact hxs x (by simp)
  have hrun : run Char.isDigit (xs ++ rest) = xs.length :=
    run_append hxs (ahead_of_softAhead _ hrest (by decide))
  simp only [numberScale, he, hs, hdigit, hrun, List.drop_succ_cons, List.drop_zero, Bool.not_true,
    Bool.false_eq_true, if_false, if_true, Bool.and_false, List.drop_left, Bool.or_true]
  exact numberEnd_float hrest

theorem step_number {r : Rune} (h : r.char.isDigit) (rs : List Rune) : step r rs = number r.char rs := by
  have hne : ∀ d, d.isDigit = false → r.char ≠ d := by
    rintro d hd rfl
    rw [h] at hd
    cases hd
  unfold step
  simp only [hne ' ' (by decide), hne '\r' (by decide), hne '\t' (by decide), hne '\n' (by decide),
    hne '/' (by decide), hne '"' (by decide), h, decide_false, Bool.or_self, Bool.false_and,
    Bool.false_eq_true, if_false, Bool.true_or, if_true]

/-- A text of ASCII that starts with a digit is one token if it is one number. -/
theorem Yields.of_number {b : UInt8} {t : Text} {k : TokenKind} (hb : Decimal.isDigit b)
    (ht : ∀ c ∈ t, c < 0x80)
    (h : ∀ rest, softAhead rest → number (ascii b).char (t.map ascii ++ rest) = .token k (1 + t.length)) :
    Yields (b :: t) [(k, b :: t)] := by
  intro u ls hs hu
  obtain ⟨hlt, hdigit⟩ := isDigit_ascii b hb
  have hstep : step (ascii b) (t.map ascii ++ ofText u) = .token k (1 + (t.map ascii).length) := by
    rw [step_number hdigit, h _ hs, List.length_map]
  have hscan := Scans.token hstep hu
  have htext : Rune.text (ascii b :: t.map ascii) = b :: t := by
    simp [Rune.text, ascii, List.flatMap_map]
  rw [htext] at hscan
  rw [Spells, List.cons_append, Rune.ofText_cons_ascii _ hlt, Rune.ofText_append_ascii _ ht]
  exact hscan

section

variable {b : UInt8} {t f x : Text}

theorem lt_of_digits (ht : ∀ c ∈ t, Decimal.isDigit c) : ∀ c ∈ t, c < 0x80 :=
  fun c hc => (isDigit_ascii c (ht c hc)).1

theorem isDigit_of_mem_map (ht : ∀ c ∈ t, Decimal.isDigit c) :
    ∀ r ∈ t.map ascii, r.char.isDigit := by
  intro r hr
  obtain ⟨c, hc, rfl⟩ := List.mem_map.mp hr
  exact (isDigit_ascii c (ht c hc)).2

theorem Yields.int (hb : Decimal.isDigit b) (ht : ∀ c ∈ t, Decimal.isDigit c) :
    Yields (b :: t) [(.intLiteral, b :: t)] := by
  refine .of_number hb (lt_of_digits ht) fun rest hrest => ?_
  rw [number_eq (isDigit_ascii b hb).2 (isDigit_of_mem_map ht) (ahead_of_softAhead _ hrest (by decide)),
    fraction_of_softAhead hrest]
  simp only [Bool.false_eq_true, if_false]
  rw [numberScale_plain (ahead_of_softAhead _ hrest (by decide)), numberEnd_int hrest, List.length_map]

theorem Yields.unsigned (hb : Decimal.isDigit b) (ht : ∀ c ∈ t, Decimal.isDigit c) :
    Yields (b :: (t ++ [117])) [(.intLiteral, b :: (t ++ [117]))] := by
  refine .of_number hb ?_ fun rest hrest => ?_
  · exact List.forall_mem_append.mpr ⟨lt_of_digits ht, by decide⟩
  · rw [List.map_append, List.append_assoc, List.map_singleton, List.singleton_append,
      number_eq (isDigit_ascii b hb).2 (isDigit_of_mem_map ht) rfl]
    change numberScale false _ (ascii 117 :: rest) = _
    rw [numberScale_plain rfl, numberEnd_unsigned hrest, List.length_map, List.length_append]
    rfl

/-- The exponent of a number: a mark, a sign and digits. -/
def IsScale (x : Text) : Prop :=
  ∃ sign xs, x = 101 :: sign :: xs ∧ (sign = 43 ∨ sign = 45) ∧ xs ≠ [] ∧ ∀ c ∈ xs, Decimal.isDigit c

/-- A point and digits. -/
def IsFraction (f : Text) : Prop := ∃ fs, f = 46 :: fs ∧ fs ≠ [] ∧ ∀ c ∈ fs, Decimal.isDigit c

theorem IsScale.lt (h : IsScale x) : ∀ c ∈ x, c < 0x80 := by
  obtain ⟨sign, xs, rfl, hsign, -, hxs⟩ := h
  have hs : sign < 0x80 := by rcases hsign with rfl | rfl <;> decide
  exact List.forall_mem_cons.mpr ⟨by decide, List.forall_mem_cons.mpr ⟨hs, lt_of_digits hxs⟩⟩

theorem IsScale.number (h : IsScale x) {isFloat : Bool} {size : Nat} {rest : List Rune}
    (hrest : softAhead rest) :
    numberScale isFloat size (x.map ascii ++ rest) = .token .floatLiteral (size + x.length) := by
  obtain ⟨sign, xs, rfl, hsign, hne, hxs⟩ := h
  have h : numberScale isFloat size _ = _ :=
    numberScale_scaled hsign (by simpa using hne) (isDigit_of_mem_map hxs) hrest
  simp only [List.map_cons, List.cons_append, List.length_cons]
  rw [h, List.length_map]
  congr 1
  omega

theorem IsFraction.lt (h : IsFraction f) : ∀ c ∈ f, c < 0x80 := by
  obtain ⟨fs, rfl, -, hfs⟩ := h
  exact List.forall_mem_cons.mpr ⟨by decide, lt_of_digits hfs⟩

/-- A fraction is taken as far as its digits go. -/
theorem IsFraction.number (h : IsFraction f) (hb : Decimal.isDigit b)
    (ht : ∀ c ∈ t, Decimal.isDigit c) {rest : List Rune} (hrest : ahead Char.isDigit rest = false) :
    number (ascii b).char (t.map ascii ++ (f.map ascii ++ rest)) =
      numberScale true (1 + t.length + f.length) rest := by
  obtain ⟨fs, rfl, hne, hfs⟩ := h
  have hdigits := isDigit_of_mem_map hfs
  have hrun : run Char.isDigit (fs.map ascii ++ rest) = fs.length := by
    rw [run_append hdigits hrest, List.length_map]
  have hword : ahead isWordStart (fs.map ascii ++ rest) = false := by
    cases fs with
    | nil => exact absurd rfl hne
    | cons c fs => exact isWordStart_of_isDigit (hdigits _ (by simp))
  rw [number_eq (isDigit_ascii b hb).2 (isDigit_of_mem_map ht) rfl]
  have hdot : ahead (fun c => decide (c = '.')) (ascii 46 :: (fs.map ascii ++ rest)) = true := rfl
  have hdrop : (ascii 46 :: (fs.map ascii ++ rest)).drop (1 + fs.length) = rest := by
    rw [Nat.add_comm, List.drop_succ_cons, List.drop_left' (List.length_map ascii)]
  simp only [List.map_cons, List.cons_append, List.drop_succ_cons, List.drop_zero, hword, hrun, hdot,
    hdrop, Bool.not_false, Bool.and_self, if_true, List.length_map, List.length_cons]
  rw [Nat.add_comm 1 fs.length]

theorem Yields.pointed (hb : Decimal.isDigit b) (ht : ∀ c ∈ t, Decimal.isDigit c) (hf : IsFraction f) :
    Yields (b :: (t ++ f)) [(.floatLiteral, b :: (t ++ f))] := by
  refine .of_number hb (List.forall_mem_append.mpr ⟨lt_of_digits ht, hf.lt⟩) fun rest hrest => ?_
  rw [List.map_append, List.append_assoc, hf.number hb ht (ahead_of_softAhead _ hrest (by decide)),
    numberScale_plain (ahead_of_softAhead _ hrest (by decide)), numberEnd_float hrest,
    List.length_append, Nat.add_assoc]

theorem Yields.scaled (hb : Decimal.isDigit b) (ht : ∀ c ∈ t, Decimal.isDigit c) (hx : IsScale x) :
    Yields (b :: (t ++ x)) [(.floatLiteral, b :: (t ++ x))] := by
  refine .of_number hb (List.forall_mem_append.mpr ⟨lt_of_digits ht, hx.lt⟩) fun rest hrest => ?_
  have hahead : ∀ p : Char → Bool, p 'e' = false → ahead p (x.map ascii ++ rest) = false := by
    obtain ⟨sign, xs, rfl, -⟩ := hx
    exact fun p hp => hp
  have hpoint : ahead (fun c => decide (c = '.')) (x.map ascii ++ rest) = false := hahead _ (by decide)
  rw [List.map_append, List.append_assoc,
    number_eq (isDigit_ascii b hb).2 (isDigit_of_mem_map ht) (hahead _ (by decide)), hpoint,
    Bool.false_and]
  simp only [Bool.false_eq_true, if_false]
  rw [hx.number hrest, List.length_map, List.length_append, Nat.add_assoc]

theorem Yields.pointedScaled (hb : Decimal.isDigit b) (ht : ∀ c ∈ t, Decimal.isDigit c)
    (hf : IsFraction f) (hx : IsScale x) :
    Yields (b :: (t ++ (f ++ x))) [(.floatLiteral, b :: (t ++ (f ++ x)))] := by
  refine .of_number hb (List.forall_mem_append.mpr ⟨lt_of_digits ht,
    List.forall_mem_append.mpr ⟨hf.lt, hx.lt⟩⟩) fun rest hrest => ?_
  have hahead : ahead Char.isDigit (x.map ascii ++ rest) = false := by
    obtain ⟨sign, xs, rfl, -⟩ := hx
    rfl
  rw [List.map_append, List.map_append, List.append_assoc, List.append_assoc, hf.number hb ht hahead,
    hx.number hrest]
  simp [Nat.add_assoc]

end

end Lexer

end Shading
