import Shading.Glsl.Code
import Shading.Proofs.Literal

/-! When the text of a constant is one that GLSL reads as a float: for numbers always, and for no infinity and no NaN.
-/
namespace Shading

/-- Is the datum a number, with or without a sign? -/
def FloatDatum.isFinite : FloatDatum → Bool
  | .finite .. => true
  | _ => false

namespace Value

/-- Is the value a scalar of a float type? -/
def isFloat : Value → Bool
  | .f32 _ | .f64 _ => true
  | _ => false

/-- Is the value a scalar of a float type and a number? -/
def isFinite : Value → Bool
  | .f32 x => x.datum.isFinite
  | .f64 x => x.datum.isFinite
  | _ => false

end Value

namespace Glsl

open Decimal (isDigit IsNumberByte IsNumeral)

/-- Digits and a point, which may stand at either end. -/
inductive IsPointed : Text → Prop
  | mk {whole fraction : Text} (hne : whole ++ fraction ≠ []) (hdigits : ∀ b ∈ whole ++ fraction, isDigit b) :
    IsPointed (whole ++ 46 :: fraction)

/-- An exponent: a mark, a sign that may be missing, and digits. -/
inductive IsExponent : Text → Prop
  | mk {mark : UInt8} {sign ds : Text} (hmark : mark = 101 ∨ mark = 69)
    (hsign : sign = [] ∨ sign = [43] ∨ sign = [45]) (hne : ds ≠ []) (hdigits : ∀ b ∈ ds, isDigit b) :
    IsExponent (mark :: (sign ++ ds))

/-- A float without a sign and an ending. It has a point or an exponent. -/
inductive IsUnsignedFloat : Text → Prop
  | pointed {t : Text} (ht : IsPointed t) : IsUnsignedFloat t
  | scaled {t x : Text} (ht : IsPointed t) (hx : IsExponent x) : IsUnsignedFloat (t ++ x)
  | whole {ds x : Text} (hne : ds ≠ []) (hdigits : ∀ b ∈ ds, isDigit b) (hx : IsExponent x) :
    IsUnsignedFloat (ds ++ x)

/-- A float without an ending. A minus may stand in front. -/
inductive SpellsFloat : Text → Prop
  | plain {t : Text} (ht : IsUnsignedFloat t) : SpellsFloat t
  | minus {t : Text} (ht : IsUnsignedFloat t) : SpellsFloat (45 :: t)

theorem IsPointed.bytes {t : Text} (h : IsPointed t) : ∀ b ∈ t, IsNumberByte b := by
  cases h with
  | mk hne hdigits =>
    obtain ⟨hwhole, hfraction⟩ := List.forall_mem_append.mp hdigits
    exact List.forall_mem_append.mpr ⟨fun b hb => .inl (hwhole b hb),
      List.forall_mem_cons.mpr ⟨.inr (by decide), fun b hb => .inl (hfraction b hb)⟩⟩

theorem IsExponent.bytes {x : Text} (h : IsExponent x) : ∀ b ∈ x, IsNumberByte b := by
  cases h with
  | mk hmark hsign hne hdigits =>
    refine List.forall_mem_cons.mpr ⟨?_, List.forall_mem_append.mpr ⟨?_, fun b hb => .inl (hdigits b hb)⟩⟩
    · rcases hmark with rfl | rfl <;> exact .inr (by decide)
    · rcases hsign with rfl | rfl | rfl
      · exact fun b hb => absurd hb List.not_mem_nil
      · exact List.forall_mem_singleton.mpr (.inr (by decide))
      · exact List.forall_mem_singleton.mpr (.inr (by decide))

theorem IsUnsignedFloat.bytes {t : Text} (h : IsUnsignedFloat t) : ∀ b ∈ t, IsNumberByte b := by
  cases h with
  | pointed ht => exact ht.bytes
  | scaled ht hx => exact List.forall_mem_append.mpr ⟨ht.bytes, hx.bytes⟩
  | whole hne hdigits hx => exact List.forall_mem_append.mpr ⟨fun b hb => .inl (hdigits b hb), hx.bytes⟩

theorem SpellsFloat.bytes {t : Text} (h : SpellsFloat t) : ∀ b ∈ t, IsNumberByte b := by
  cases h with
  | plain ht => exact ht.bytes
  | minus ht => exact List.forall_mem_cons.mpr ⟨.inr (by decide), ht.bytes⟩

section

open Lexer (IsFraction IsScale)

variable {b : UInt8} {ds f x : Text}

theorem isExponent_of_isScale (h : IsScale x) : IsExponent x := by
  obtain ⟨sign, xs, rfl, hsign, hne, hxs⟩ := h
  have hmark : IsExponent (101 :: ([sign] ++ xs)) := by
    refine .mk (.inl rfl) ?_ hne hxs
    rcases hsign with rfl | rfl
    · exact .inr (.inl rfl)
    · exact .inr (.inr rfl)
  exact hmark

theorem isPointed_of_isFraction (hb : isDigit b) (hds : ∀ c ∈ ds, isDigit c) (h : IsFraction f) :
    IsPointed (b :: ds ++ f) := by
  obtain ⟨fs, rfl, -, hfs⟩ := h
  exact .mk (List.cons_ne_nil _ _) (List.forall_mem_append.mpr ⟨List.forall_mem_cons.mpr ⟨hb, hds⟩, hfs⟩)

/-- Digits get a point. -/
theorem floatText_digits (h : ∀ c ∈ ds, isDigit c) : floatText ds = ds ++ ".0" := by
  have hmark : ∀ c, isDigit c → (Text.ofString ".eE").contains c = false := Decimal.forall_isDigit (by decide)
  have hnone : ds.any (Text.ofString ".eE").contains = false :=
    List.any_eq_false.mpr fun c hc => by rw [hmark c (h c hc)]; exact Bool.false_ne_true
  rw [floatText, hnone]
  rfl

theorem floatText_of_mem {t : Text} (hb : (Text.ofString ".eE").contains b) (h : b ∈ t) : floatText t = t := by
  rw [floatText, if_pos (List.any_eq_true.mpr ⟨b, h, hb⟩)]

/-- A number in positional or scientific notation is written as a float of the language. -/
theorem isUnsignedFloat_of_isNumeral {t : Text} (h : IsNumeral t) : IsUnsignedFloat (floatText t) := by
  obtain ⟨b, ds, f, x, rfl, hb, hds, hf, hx⟩ := h
  have hwhole : ∀ c ∈ b :: ds, isDigit c := List.forall_mem_cons.mpr ⟨hb, hds⟩
  rcases hx with rfl | hx
  · rcases hf with rfl | hf
    · rw [List.append_nil, List.append_nil, floatText_digits hwhole]
      exact .pointed (.mk (List.cons_ne_nil _ _) (List.forall_mem_append.mpr ⟨hwhole, by decide⟩))
    · have hpoint : 46 ∈ b :: (ds ++ (f ++ [])) := by
        obtain ⟨fs, rfl, -⟩ := hf
        simp
      rw [floatText_of_mem (by decide) hpoint, List.append_nil, ← List.cons_append]
      exact .pointed (isPointed_of_isFraction hb hds hf)
  · have hmark : 101 ∈ b :: (ds ++ (f ++ x)) := by
      obtain ⟨sign, xs, rfl, -⟩ := hx
      simp
    rw [floatText_of_mem (by decide) hmark, ← List.cons_append, ← List.append_assoc]
    rcases hf with rfl | hf
    · rw [List.append_nil]
      exact .whole (List.cons_ne_nil _ _) hwhole (isExponent_of_isScale hx)
    · exact .scaled (isPointed_of_isFraction hb hds hf) (isExponent_of_isScale hx)

theorem floatText_minus (t : Text) : floatText (45 :: t) = 45 :: floatText t := by
  have hmark : (Text.ofString ".eE").contains 45 = false := by decide
  rw [floatText, floatText, List.any_cons, hmark, Bool.false_or]
  split <;> rfl

end

/-- A letter that is no mark of an exponent keeps a text from being a float. -/
theorem not_spellsFloat_of_mem {t : Text} {b : UInt8} (hb : ¬ IsNumberByte b) (h : b ∈ t) :
    ¬ SpellsFloat (floatText t) := by
  refine fun hspells => hb (hspells.bytes b ?_)
  rw [floatText]
  split
  · exact h
  · exact List.mem_append_left _ h

/-- The text of a float is one that the language reads as a float if and only if the float is a number. -/
theorem spellsFloat_write_iff (F : FloatFormat) (bits : Nat) :
    SpellsFloat (floatText (F.write bits)) ↔ (F.unpack bits).isFinite = true := by
  rw [FloatFormat.write]
  cases F.unpack bits with
  | nan negative fraction =>
    have hletter : (78 : UInt8) ∈ Text.ofString "NaN" := by decide
    exact iff_of_false (not_spellsFloat_of_mem (by decide) hletter) Bool.false_ne_true
  | infinite negative =>
    have hletter (negative : Bool) : (73 : UInt8) ∈ Text.ofString (if negative then "-Inf" else "+Inf") := by
      cases negative <;> decide
    refine iff_of_false (not_spellsFloat_of_mem (b := 73) (by decide) ?_) Bool.false_ne_true
    cases negative with
    | false => exact hletter false
    | true => exact hletter true
  | finite negative m q =>
    refine iff_of_true ?_ rfl
    have hnumeral : IsNumeral
        (if m = 0 then "0" else Decimal.write Decimal.general (Decimal.Shortest.shortest F m q)) := by
      split
      · exact ⟨48, [], [], [], rfl, by decide, by simp, .inl rfl, .inl rfl⟩
      · exact Decimal.isNumeral_write _ (Decimal.digits_search _ _ _ _)
    cases negative with
    | false => exact .plain (isUnsignedFloat_of_isNumeral hnumeral)
    | true =>
      have hminus := SpellsFloat.minus (isUnsignedFloat_of_isNumeral hnumeral)
      rw [← floatText_minus] at hminus
      exact hminus

/-- The text of a scalar of a float type is a float of the language, and `lf` stands behind it if it has 64 bits. -/
def SpellsScalar : Value → Text → Prop
  | .f32 _, t => SpellsFloat t
  | .f64 _, t => ∃ u, SpellsFloat u ∧ t = u ++ "lf"
  | _, _ => False

/-- A scalar of a float type has a text, which is a float of the language if and only if the scalar is a number. -/
theorem literalText_scalar {v : Value} (h : v.isFloat) :
    ∃ t, literalText v = .ok t ∧ (SpellsScalar v t ↔ v.isFinite = true) := by
  cases v with
  | f32 x => exact ⟨_, rfl, spellsFloat_write_iff .single x.toNat⟩
  | f64 x =>
    refine ⟨_, rfl, Iff.trans ?_ (spellsFloat_write_iff .double x.toNat)⟩
    constructor
    · rintro ⟨u, hu, heq⟩
      rw [← List.append_cancel_right heq] at hu
      exact hu
    · exact fun hspells => ⟨_, hspells, rfl⟩
  | _ => cases h

theorem literalTexts_scalars {vs : List Value} (h : ∀ v ∈ vs, v.isFloat) :
    ∃ ts, literalTexts vs = .ok ts ∧
      List.Forall₂ (fun v t => literalText v = .ok t ∧ (SpellsScalar v t ↔ v.isFinite = true)) vs ts := by
  induction vs with
  | nil => exact ⟨[], rfl, .nil⟩
  | cons v vs ih =>
    rw [List.forall_mem_cons] at h
    obtain ⟨t, ht, hspells⟩ := literalText_scalar h.1
    obtain ⟨ts, hts, hall⟩ := ih h.2
    refine ⟨t :: ts, ?_, .cons ⟨ht, hspells⟩ hall⟩
    rw [literalTexts, ht, hts]
    rfl

/-- The text of a vector of floats lists those of its components. -/
theorem literalText_vector {cs : List Value} (h : ∀ c ∈ cs, c.isFloat) :
    ∃ name ts, elementName [] (Value.vector cs).type = .ok name ∧
      literalText (.vector cs) = .ok (name ++ "(" ++ Text.join ", " ts ++ ")") ∧
      List.Forall₂ (fun v t => literalText v = .ok t ∧ (SpellsScalar v t ↔ v.isFinite = true)) cs ts := by
  obtain ⟨ts, hts, hall⟩ := literalTexts_scalars h
  refine ⟨_, ts, rfl, ?_, hall⟩
  rw [literalText, hts]
  rfl

/-- Columns are written as vectors are. -/
theorem columnTexts_cons (c : List Value) (cols : List (List Value)) :
    columnTexts (c :: cols) = (do
      let t ← literalText (.vector c)
      return t :: (← columnTexts cols)) := by
  rw [columnTexts, literalText]
  cases literalTexts c <;> rfl

theorem columnTexts_vectors {cols : List (List Value)} (h : ∀ c ∈ cols, ∀ v ∈ c, v.isFloat) :
    ∃ ts, columnTexts cols = .ok ts ∧ List.Forall₂ (fun c t => literalText (.vector c) = .ok t) cols ts := by
  induction cols with
  | nil => exact ⟨[], rfl, .nil⟩
  | cons c cols ih =>
    rw [List.forall_mem_cons] at h
    obtain ⟨name, parts, -, hvector, -⟩ := literalText_vector h.1
    obtain ⟨ts, hts, hall⟩ := ih h.2
    refine ⟨_ :: ts, ?_, .cons hvector hall⟩
    rw [columnTexts_cons, hvector, hts]
    rfl

/-- The text of a matrix of floats lists those of its columns, which are vectors of floats. -/
theorem literalText_matrix {cols : List (List Value)} (h : ∀ c ∈ cols, ∀ v ∈ c, v.isFloat) :
    ∃ name ts, elementName [] (Value.matrix cols).type = .ok name ∧
      literalText (.matrix cols) = .ok (name ++ "(" ++ Text.join ", " ts ++ ")") ∧
      List.Forall₂ (fun c t => literalText (.vector c) = .ok t) cols ts := by
  obtain ⟨ts, hts, hall⟩ := columnTexts_vectors h
  have hname : ∃ name, elementName [] (Value.matrix cols).type = .ok name := by
    cases cols with
    | nil => exact ⟨_, rfl⟩
    | cons c cols => exact ⟨_, rfl⟩
  obtain ⟨name, hname⟩ := hname
  refine ⟨name, ts, hname, ?_, hall⟩
  rw [literalText, hname, hts]
  rfl

end Glsl

end Shading
