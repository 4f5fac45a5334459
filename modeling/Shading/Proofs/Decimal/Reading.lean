import Shading.Proofs.FloatFormat.Rounding
import Shading.Proofs.Literal

/-! Floats are read as they are written in a source. Only that a shortest decimal is read as the number
it was taken from is left to be known of the number. -/
namespace Shading

namespace FloatFormat

theorem length_digitsOf_mul_ten {c : Nat} (hc : c ≠ 0) :
    (Decimal.digitsOf (c * 10)).length = (Decimal.digitsOf c).length + 1 := by
  have hdigits := Nat.toDigits_append_toDigits (b := 10) (d := 0) (by decide) (Nat.pos_of_ne_zero hc) (by decide)
  have hten : c * 10 ≠ 0 := by omega
  rw [Nat.add_zero, Nat.mul_comm] at hdigits
  rw [Decimal.digitsOf, Decimal.digitsOf, if_neg hc, if_neg hten, ← hdigits]
  simp

/-- A zero at the end of the coefficient is a step of the exponent. -/
theorem ofDecimal_mul_ten (F : FloatFormat) (c : Nat) (e : Int) :
    F.ofDecimal (c * 10) (e - 1) = F.ofDecimal c e := by
  by_cases hc : c = 0
  · rw [hc]
    rfl
  have hten : c * 10 ≠ 0 := by omega
  have hpoint : ((Decimal.digitsOf (c * 10)).length : Int) + (e - 1) = (Decimal.digitsOf c).length + e := by
    rw [length_digitsOf_mul_ten hc]
    omega
  have hratio : F.roundRatio (c * 10 * Decimal.tenPow (e - 1).toNat) (Decimal.tenPow (-(e - 1)).toNat) =
      F.roundRatio (c * Decimal.tenPow e.toNat) (Decimal.tenPow (-e).toNat) := by
    cases lt_or_ge 0 e with
    | inl hpos =>
      obtain ⟨k, rfl⟩ : ∃ k : Nat, e = k + 1 := ⟨(e - 1).toNat, by omega⟩
      have hup : ((k : Int) + 1).toNat = k + 1 := by omega
      have hdown : (-((k : Int) + 1 - 1)).toNat = (-((k : Int) + 1)).toNat := by omega
      have hpow : Decimal.tenPow (k + 1) = 10 * Decimal.tenPow k := Nat.pow_succ'
      rw [hdown, hup, Int.add_sub_cancel, Int.toNat_natCast, hpow, Nat.mul_assoc]
    | inr hle =>
      obtain ⟨k, rfl⟩ : ∃ k : Nat, e = -k := ⟨(-e).toNat, by omega⟩
      have hzero : (-(k : Int) - 1).toNat = (-(k : Int)).toNat := by omega
      have hup : (-(-(k : Int) - 1)).toNat = k + 1 := by omega
      have hpow : Decimal.tenPow (k + 1) = 10 * Decimal.tenPow k := Nat.pow_succ'
      rw [hzero, hup, Int.neg_neg, Int.toNat_natCast, hpow, Nat.mul_comm c, Nat.mul_assoc]
      exact F.roundRatio_mul_left (by decide) (Nat.pow_pos (by decide))
  simp only [ofDecimal, hpoint, hratio, hc, hten]

theorem ofDecimal_le (F : FloatFormat) (c : Nat) (e : Int) : F.ofDecimal c e ≤ F.infinity := by
  unfold ofDecimal roundRatio
  dsimp only
  split_ifs
  · exact Nat.zero_le _
  · exact Nat.le_refl _
  · exact Nat.zero_le _
  · exact Nat.min_le_right _ _

end FloatFormat

namespace Decimal

theorem magnitude_le (F : FloatFormat) (s : Spelling) : s.magnitude F ≤ F.infinity := by
  unfold Spelling.magnitude
  dsimp only
  split <;> exact FloatFormat.ofDecimal_le _ _ _

theorem natOf_append_zero (ds : Text) : natOf (ds ++ "0") = natOf ds * 10 := by
  have hzero : digitValue 48 = 0 := rfl
  rw [natOf, List.foldl_append, natOf]
  change _ * 10 + digitValue 48 = _
  rw [hzero, Nat.add_zero]

/-- A zero after the point changes nothing. -/
theorem magnitude_fraction_zero (F : FloatFormat) (ds : Text) :
    Spelling.magnitude F ⟨ds, "0", 0⟩ = Spelling.magnitude F ⟨ds, [], 0⟩ := by
  have hsettled : Spelling.isSettled F ⟨ds, "0", 0⟩ = Spelling.isSettled F ⟨ds, [], 0⟩ := by
    have hzero : List.any (Text.ofString "0") (· ≠ Text.byte '0') = false := rfl
    simp only [Spelling.isSettled, Spelling.significant, List.any_append, hzero, List.any_nil]
  have hlost : Spelling.significant ⟨ds, "0", 0⟩ = Spelling.significant ⟨ds, [], 0⟩ := rfl
  have hone : (0 : Int) - ((Text.ofString "0").length : Int) = 0 - 1 := rfl
  have hzero : (0 : Int) - (([] : Text).length : Int) = 0 := rfl
  have hlater : ∀ l : Int, (0 : Int) - 1 - l = (0 - l) - 1 := fun l => by omega
  simp only [Spelling.magnitude, hsettled, hlost, natOf_append_zero, List.append_nil, hone, hzero, hlater,
    FloatFormat.ofDecimal_mul_ten]

theorem read_digits {ds : Text} (hne : ds ≠ []) (hds : ∀ b ∈ ds, isDigit b) :
    read? ds = some ⟨ds, [], 0⟩ := by
  have htake : ds.takeWhile isDigit = ds := by
    have h : (ds ++ []).takeWhile isDigit = ds ++ [].takeWhile isDigit := List.takeWhile_append_of_pos hds
    rwa [List.append_nil, List.takeWhile_nil, List.append_nil] at h
  have hdrop : ds.dropWhile isDigit = [] := by
    have h : (ds ++ []).dropWhile isDigit = [].dropWhile isDigit := List.dropWhile_append_of_pos hds
    rwa [List.append_nil, List.dropWhile_nil] at h
  have hsome : ds.isEmpty = false := List.isEmpty_eq_false_iff.mpr hne
  rw [read?, htake, hdrop]
  simp only [hsome]
  rfl

theorem read_pointed {ds : Text} (hds : ∀ b ∈ ds, isDigit b) :
    read? (ds ++ ".0") = some ⟨ds, "0", 0⟩ := by
  have htake : (ds ++ ".0").takeWhile isDigit = ds := by
    rw [List.takeWhile_append_of_pos hds]
    exact List.append_nil ds
  have hdrop : (ds ++ ".0").dropWhile isDigit = ".0" := by
    rw [List.dropWhile_append_of_pos hds]
    rfl
  rw [read?, htake, hdrop]
  cases ds <;> rfl

end Decimal

namespace Single

/-- The shortest decimal of the number is read as the number. -/
def ReadsBack (x : Single) : Prop := (Decimal.read? x.text).map (·.magnitude .single) = some x.toNat

instance (x : Single) : Decidable x.ReadsBack := inferInstanceAs (Decidable (_ = _))

theorem read_text {x : Single} (h : x.isPlain) (hx : x.ReadsBack) :
    (Decimal.read? (Value.text (.f32 x))).map (·.magnitude .single) = some x.toNat := by
  obtain ⟨b, ds, f, y, ht, hb, hds, hf, hy⟩ := isNumeral_text h
  rw [Value.text, Value.pointed]
  split
  · exact hx
  · rename_i hmark
    have hnone : f = [] ∧ y = [] := by
      constructor
      · rcases hf with hf | ⟨fs, rfl, -⟩
        · exact hf
        · exact absurd (List.any_eq_true.mpr ⟨46, by simp [ht], by decide⟩) hmark
      · rcases hy with hy | ⟨sign, xs, rfl, -⟩
        · exact hy
        · exact absurd (List.any_eq_true.mpr ⟨101, by simp [ht], by decide⟩) hmark
    have hdigits : ∀ c ∈ x.text, Decimal.isDigit c := by
      rw [ht, hnone.1, hnone.2, List.append_nil, List.append_nil]
      exact List.forall_mem_cons.mpr ⟨hb, hds⟩
    have hne : x.text ≠ [] := by
      rw [ht]
      exact List.cons_ne_nil _ _
    rw [ReadsBack, Decimal.read_digits hne hdigits] at hx
    rw [Decimal.read_pointed hdigits, Option.map_some, Decimal.magnitude_fraction_zero]
    exact hx

end Single

namespace Literal

/-- The letters and marks of numerals are no ending and no underscore. -/
theorem mem_text_of_isPlain {x : Single} (h : x.isPlain) :
    ∀ c ∈ Value.text (.f32 x), c ≠ Text.byte 'f' ∧ c ≠ Text.byte '_' := by
  have hdigit : ∀ c, Decimal.isDigit c → c ≠ Text.byte 'f' ∧ c ≠ Text.byte '_' :=
    Decimal.forall_isDigit (by decide)
  have hnumeral : ∀ c ∈ x.text, c ≠ Text.byte 'f' ∧ c ≠ Text.byte '_' := by
    obtain ⟨b, ds, f, y, ht, hb, hds, hf, hy⟩ := Single.isNumeral_text h
    have hfraction : ∀ c ∈ f, c ≠ Text.byte 'f' ∧ c ≠ Text.byte '_' := by
      rcases hf with rfl | ⟨fs, rfl, -, hfs⟩
      · simp
      · exact List.forall_mem_cons.mpr ⟨by decide, fun c hc => hdigit c (hfs c hc)⟩
    have hscale : ∀ c ∈ y, c ≠ Text.byte 'f' ∧ c ≠ Text.byte '_' := by
      rcases hy with rfl | ⟨sign, xs, rfl, hsign, -, hxs⟩
      · simp
      · refine List.forall_mem_cons.mpr ⟨by decide, List.forall_mem_cons.mpr
          ⟨?_, fun c hc => hdigit c (hxs c hc)⟩⟩
        rcases hsign with rfl | rfl <;> decide
    rw [ht]
    exact List.forall_mem_cons.mpr ⟨hdigit b hb, List.forall_mem_append.mpr
      ⟨fun c hc => hdigit c (hds c hc), List.forall_mem_append.mpr ⟨hfraction, hscale⟩⟩⟩
  rw [Value.text, Value.pointed]
  split
  · exact hnumeral
  · exact List.forall_mem_append.mpr ⟨hnumeral, by decide⟩

/-- A float is read as it is written. -/
theorem float_text {x : Single} (h : x.isPlain) (hx : x.ReadsBack) :
    float? (Value.text (.f32 x)) = some (.f32 x) := by
  have hmem := mem_text_of_isPlain h
  have hend : Text.dropSuffix? "f" (Value.text (.f32 x)) = none := by
    rw [Text.dropSuffix?, if_neg]
    intro hsuffix
    have hin := (List.isSuffixOf_iff_suffix.mp hsuffix).subset (List.mem_singleton.mpr rfl)
    exact (hmem _ hin).1 rfl
  have hplain : (Value.text (.f32 x)).filter (· ≠ Text.byte '_') = Value.text (.f32 x) :=
    List.filter_eq_self.mpr fun c hc => by simpa using (hmem c hc).2
  obtain ⟨s, hs, hbits⟩ := Option.map_eq_some_iff.mp (Single.read_text h hx)
  have hfinite : x.toNat ≠ FloatFormat.single.infinity := Nat.ne_of_lt (of_decide_eq_true h)
  have hsame : Single.ofNat x.toNat = x := by simp [Single.ofNat, Single.toNat]
  unfold float?
  rw [hend, Option.getD_none, hplain]
  dsimp only
  rw [hs, Option.bind_eq_bind, Option.bind_some, hbits, hsame, guard, if_pos hfinite]
  rfl

/-- A float literal stands for a number that is neither negative nor infinite nor a NaN. -/
theorem isPlain_of_float {t : Text} {v : Value} (h : float? t = some v) : ∃ x, v = .f32 x ∧ x.isPlain := by
  unfold float? at h
  obtain ⟨s, -, h⟩ := Option.bind_eq_some_iff.mp h
  obtain ⟨u, hguard, h⟩ := Option.bind_eq_some_iff.mp h
  have hne : s.magnitude .single ≠ FloatFormat.single.infinity := by
    intro heq
    rw [guard, if_neg fun hne => hne heq] at hguard
    cases hguard
  have hlt := Nat.lt_of_le_of_ne (Decimal.magnitude_le .single s) hne
  have hinfinity : FloatFormat.single.infinity = 0x7F800000 := rfl
  have hbits : (Single.ofNat (s.magnitude .single)).toNat = s.magnitude .single := by
    have hmod : (s.magnitude .single).toUInt32.toNat = s.magnitude .single % 2 ^ 32 := UInt32.toNat_ofNat'
    rw [Single.ofNat, Single.toNat, hmod]
    omega
  cases h
  exact ⟨_, rfl, decide_eq_true (by rw [hbits]; exact hlt)⟩

end Literal

end Shading
