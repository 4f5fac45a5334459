import Shading.Proofs.Token.Numeral

/-! Literals as they are written are read back. -/
namespace Shading

namespace Text

/-- Decimal digits as bytes. -/
theorem isDigit_byte {c : Char} (h : c.isDigit) : Decimal.isDigit (byte c) :=
  Lexer.forall_ascii (fun c => c.isDigit → Decimal.isDigit (byte c)) (by decide)
    (Lexer.toNat_lt_of_isDigit h) h

theorem isDigit_of_mem_ofNat {n : Nat} : ∀ b ∈ ofNat n, Decimal.isDigit b := by
  intro b hb
  obtain ⟨c, hc, rfl⟩ := List.mem_map.mp hb
  exact isDigit_byte (Nat.isDigit_of_mem_toDigits (by decide) (by decide) hc)

theorem ofNat_ne_nil (n : Nat) : ofNat n ≠ [] := by
  simp [ofNat, Nat.toDigits_ne_nil]

/-- A number is written with at least one digit. -/
theorem ofNat_eq_cons (n : Nat) :
    ∃ b t, ofNat n = b :: t ∧ Decimal.isDigit b ∧ ∀ c ∈ t, Decimal.isDigit c := by
  have hall : ∀ b ∈ ofNat n, Decimal.isDigit b := isDigit_of_mem_ofNat
  cases h : ofNat n with
  | nil => exact absurd h (ofNat_ne_nil n)
  | cons b t =>
    rw [h, List.forall_mem_cons] at hall
    exact ⟨b, t, rfl, hall⟩

end Text

namespace Literal

theorem hexDigit_byte {c : Char} (h : c.isDigit) :
    Text.hexDigit? (Text.byte c) = some (c.toNat - '0'.toNat) ∧ c.toNat - '0'.toNat < 10 :=
  Lexer.forall_ascii (fun c => c.isDigit →
      Text.hexDigit? (Text.byte c) = some (c.toNat - '0'.toNat) ∧ c.toNat - '0'.toNat < 10)
    (by decide) (Lexer.toNat_lt_of_isDigit h) h

theorem natOfBase_ofNat (n : Nat) : natOfBase? 10 (Text.ofNat n) = some n := by
  have hfold : ∀ (cs : List Char) (acc : Nat), (∀ c ∈ cs, c.isDigit) →
      (cs.map Text.byte).foldl (fun acc b => do
        let n ← acc
        let d ← Text.hexDigit? b
        if d < 10 then some (n * 10 + d) else none) (some acc) = some (Nat.ofDigitChars 10 cs acc) := by
    intro cs
    induction cs with
    | nil => intro acc _; rfl
    | cons c cs ih =>
      intro acc hcs
      obtain ⟨hd, hlt⟩ := hexDigit_byte (hcs c (by simp))
      have hstep := ih (10 * acc + (c.toNat - '0'.toNat)) fun d hd => hcs d (by simp [hd])
      simp only [List.map_cons, List.foldl_cons, bind, Option.bind, hd, if_pos hlt,
        Nat.mul_comm acc 10] at hstep ⊢
      exact hstep
  rw [natOfBase?, if_neg (by simpa using Text.ofNat_ne_nil n), Text.ofNat, hfold]
  · rw [Nat.ofDigitChars_ten_toDigits]
  · exact fun c hc => Nat.isDigit_of_mem_toDigits (by decide) (by decide) hc

end Literal

namespace Text

theorem forall_head_append {P : UInt8 → Prop} {c : UInt8} {a s : Text} (ha : a.head? = some c) (hc : P c) :
    ∀ b ∈ (a ++ s).head?, P b := by
  intro b hb
  rw [List.head?_append, ha] at hb
  cases hb
  exact hc

/-- A text of bytes of a kind reaches up to the first byte of another kind. -/
theorem append_eq_append_of_kind (p : UInt8 → Bool) {a a' s s' : Text} (ha : ∀ b ∈ a, p b) (ha' : ∀ b ∈ a', p b)
    (hs : ∀ b ∈ s.head?, p b = false) (hs' : ∀ b ∈ s'.head?, p b = false) (h : a ++ s = a' ++ s') :
    a = a' ∧ s = s' := by
  induction a generalizing a' with
  | nil =>
    cases a' with
    | nil => exact ⟨rfl, h⟩
    | cons b a' =>
      have hkind := ha' b List.mem_cons_self
      rw [hs b (by rw [List.nil_append] at h; rw [h]; rfl)] at hkind
      cases hkind
  | cons b a ih =>
    cases a' with
    | nil =>
      have hkind := ha b List.mem_cons_self
      rw [hs' b (by rw [List.nil_append] at h; rw [← h]; rfl)] at hkind
      cases hkind
    | cons b' a' =>
      rw [List.cons_append, List.cons_append] at h
      injection h with hhead htail
      rw [List.forall_mem_cons] at ha ha'
      obtain ⟨ha, hs⟩ := ih ha.2 ha'.2 htail
      exact ⟨by rw [hhead, ha], hs⟩

theorem ofNat_inj {m n : Nat} (h : ofNat m = ofNat n) : m = n := by
  have hread := Literal.natOfBase_ofNat m
  rw [h, Literal.natOfBase_ofNat] at hread
  injection hread with hread
  exact hread.symm

/-- A number ends at the first byte that is no digit. -/
theorem ofNat_append_inj {m n : Nat} {s s' : Text} (hs : ∀ b ∈ s.head?, Decimal.isDigit b = false)
    (hs' : ∀ b ∈ s'.head?, Decimal.isDigit b = false) (h : Text.ofNat m ++ s = Text.ofNat n ++ s') :
    m = n ∧ s = s' := by
  obtain ⟨hnumber, hrest⟩ := append_eq_append_of_kind Decimal.isDigit (fun _ => Text.isDigit_of_mem_ofNat _)
    (fun _ => Text.isDigit_of_mem_ofNat _) hs hs' h
  exact ⟨ofNat_inj hnumber, hrest⟩

theorem ofNat_word_append_inj {m n : UInt32} {s s' : Text} (hs : ∀ b ∈ s.head?, Decimal.isDigit b = false)
    (hs' : ∀ b ∈ s'.head?, Decimal.isDigit b = false) (h : Text.ofNat m.toNat ++ s = Text.ofNat n.toNat ++ s') :
    m = n ∧ s = s' := by
  obtain ⟨hnumber, hrest⟩ := ofNat_append_inj hs hs' h
  exact ⟨UInt32.toNat_inj.mp hnumber, hrest⟩

end Text

namespace Literal

/-- Digits hold no mark of another notation. -/
theorem int_digits {t : Text} (ht : ∀ b ∈ t, Decimal.isDigit b) :
    t.filter (· ≠ Text.byte '_') = t ∧ Text.dropSuffix? "u" t = none ∧
      Text.dropStart? "0x" t = none ∧ Text.dropStart? "0X" t = none := by
  have hne : ∀ b, Decimal.isDigit b = false → b ∉ t := by
    intro b hb hmem
    rw [ht b hmem] at hb
    cases hb
  refine ⟨?_, ?_, ?_, ?_⟩
  · rw [List.filter_eq_self]
    intro b hb
    simp only [decide_eq_true_eq]
    rintro rfl
    exact hne _ (by decide) hb
  · have hno : ¬ (Text.ofString "u").isSuffixOf t := by
      intro h
      exact hne 117 (by decide) ((List.isSuffixOf_iff_suffix.mp h).subset (by decide))
    rw [Text.dropSuffix?, if_neg hno]
  · have hno : ¬ (Text.ofString "0x").isPrefixOf t := by
      intro h
      exact hne 120 (by decide) ((List.isPrefixOf_iff_prefix.mp h).subset (by decide))
    rw [Text.dropStart?, if_neg hno]
  · have hno : ¬ (Text.ofString "0X").isPrefixOf t := by
      intro h
      exact hne 88 (by decide) ((List.isPrefixOf_iff_prefix.mp h).subset (by decide))
    rw [Text.dropStart?, if_neg hno]

theorem int_ofNat {n : Nat} (h : n ≤ 2147483647) :
    int (Text.ofNat n) = .ok (.i32 (Int32.ofNat n)) := by
  obtain ⟨hfilter, hu, hx, hX⟩ := int_digits (t := Text.ofNat n) Text.isDigit_of_mem_ofNat
  have hsize : ¬ UInt64.size ≤ n := by simp only [UInt64.size]; omega
  have hmax : ¬ Int32.maxValue.toInt < n := by
    change ¬ (2147483647 : Int) < n
    omega
  simp only [int, hfilter, hu, hx, hX, Option.or_none, natOfBase_ofNat, Option.elim_some]
  simp [bind, Except.bind, pure, Except.pure, hsize, hmax]

theorem int_unsigned {n : UInt32} : int (Text.ofNat n.toNat ++ [117]) = .ok (.u32 n) := by
  obtain ⟨hfilter, -, hx, hX⟩ := int_digits (t := Text.ofNat n.toNat) Text.isDigit_of_mem_ofNat
  have hlt := n.toNat_lt
  have hsize : ¬ UInt64.size ≤ n.toNat := by simp only [UInt64.size]; omega
  have hsize' : ¬ UInt32.size ≤ n.toNat := by simp only [UInt32.size]; omega
  have hfilter' : (Text.ofNat n.toNat ++ [117]).filter (· ≠ Text.byte '_') = Text.ofNat n.toNat ++ [117] := by
    rw [List.filter_append, hfilter]
    rfl
  have hu : Text.dropSuffix? "u" (Text.ofNat n.toNat ++ [117]) = some (Text.ofNat n.toNat) := by
    have hs : (Text.ofString "u").isSuffixOf (Text.ofNat n.toNat ++ [117]) :=
      List.isSuffixOf_iff_suffix.mpr (List.suffix_append _ _)
    rw [Text.dropSuffix?, if_pos hs]
    simp [show (Text.ofString "u").length = 1 from rfl]
  simp only [int, hfilter', hu, hx, hX, Option.or_none, natOfBase_ofNat, Option.elim_some]
  simp [bind, Except.bind, pure, Except.pure, hsize, hsize']

/-- A whole number that is not negative is read back from its text. -/
theorem int_i32 {k : Int32} (hk : 0 ≤ k.toInt) :
    int (Value.text (.i32 k)) = .ok (.i32 k) := by
  have hle := Int32.toInt_le k
  obtain ⟨n, hn⟩ := Int.eq_ofNat_of_zero_le hk
  have hmax : n ≤ 2147483647 := by
    rw [hn] at hle
    change (n : Int) ≤ 2147483647 at hle
    omega
  have hofNat : Int32.ofNat n = k := by
    rw [← Int32.toInt_inj, Int32.toInt_ofNat_of_lt (by omega), hn]
  rw [Value.text, hn]
  change int (Text.ofNat n) = _
  rw [int_ofNat hmax, hofNat]

theorem int_u32 (n : UInt32) : int (Value.text (.u32 n)) = .ok (.u32 n) := int_unsigned

/-- An integer literal stands for an unsigned number or for one that is not negative. -/
theorem nonneg_of_int {t : Text} {v : Value} (h : int t = .ok v) :
    (∃ k, v = .u32 k) ∨ ∃ k, v = .i32 k ∧ 0 ≤ k.toInt := by
  unfold int at h
  dsimp only at h
  generalize Text.dropSuffix? "u" (List.filter (fun x => decide (x ≠ Text.byte '_')) t) = ending at h
  cases ending with
  | some digits =>
    simp only [if_true] at h
    split at h
    all_goals
      obtain ⟨n, -, h⟩ := bind_eq_ok h
      split at h
      · cases h
      split at h
      · cases h
      · cases h
        exact .inl ⟨_, rfl⟩
  | none =>
    simp only [Bool.false_eq_true, if_false] at h
    split at h
    all_goals
      obtain ⟨n, -, h⟩ := bind_eq_ok h
      split at h
      · cases h
      split at h
      · cases h
      · rename_i hmax
        cases h
        have hlt : n < 2147483648 := by
          change ¬ (2147483647 : Int) < n at hmax
          omega
        refine .inr ⟨_, rfl, ?_⟩
        rw [Int32.toInt_ofNat_of_lt hlt]
        omega

end Literal

namespace Decimal

open Lexer (IsFraction IsScale)

/-- How numbers are written: digits, which a fraction and an exponent may follow. -/
def IsNumeral (t : Text) : Prop :=
  ∃ b ds f x, t = b :: (ds ++ (f ++ x)) ∧ isDigit b ∧ (∀ c ∈ ds, isDigit c) ∧
    (f = [] ∨ IsFraction f) ∧ (x = [] ∨ IsScale x)

/-- A byte of a number with a point or an exponent. -/
def IsNumberByte (b : UInt8) : Prop := isDigit b ∨ b ∈ ([46, 101, 69, 43, 45] : Text)

instance (b : UInt8) : Decidable (IsNumberByte b) := inferInstanceAs (Decidable (_ ∨ _))

theorem isDigit_of_mem_digitText {ds : List Nat} (h : ∀ d ∈ ds, d ≤ 9) :
    ∀ b ∈ digitText ds, isDigit b := by
  intro b hb
  obtain ⟨d, hd, rfl⟩ := List.mem_map.mp hb
  have hall : ∀ d : Fin 10, isDigit (Text.byte '0' + d.val.toUInt8) := by decide
  exact hall ⟨d, Nat.lt_succ_of_le (h d hd)⟩

theorem isDigit_of_mem_zeros {n : Nat} : ∀ b ∈ Text.times n "0", isDigit b := by
  intro b hb
  obtain ⟨t, ht, hb⟩ := List.mem_flatten.mp hb
  rw [List.eq_of_mem_replicate ht] at hb
  have hall : ∀ c ∈ Text.ofString "0", isDigit c := by decide
  exact hall b hb

theorem length_times_zero (n : Nat) : (Text.times n "0").length = n := by
  simp [Text.times, List.length_flatten, show (Text.ofString "0").length = 1 from rfl]

variable {d : Decimal}

/-- Digits in front are a numeral, and so they are with what may follow them. -/
theorem IsNumeral.of_digits {t f x : Text} (hne : t ≠ []) (ht : ∀ b ∈ t, isDigit b)
    (hf : f = [] ∨ IsFraction f) (hx : x = [] ∨ IsScale x) : IsNumeral (t ++ (f ++ x)) := by
  cases t with
  | nil => exact absurd rfl hne
  | cons b t =>
    rw [List.forall_mem_cons] at ht
    exact ⟨b, t, f, x, rfl, ht.1, ht.2, hf, hx⟩

theorem isNumeral_positional (hne : d.digits ≠ []) (hd : ∀ k ∈ d.digits, k ≤ 9) :
    IsNumeral d.positional := by
  have hdigits := isDigit_of_mem_digitText hd
  rw [positional]
  split
  · have hfraction : IsFraction (46 :: (Text.times (-d.point).toNat "0" ++ digitText d.digits)) :=
      ⟨_, rfl, by simp [digitText, hne], List.forall_mem_append.mpr ⟨isDigit_of_mem_zeros, hdigits⟩⟩
    have h := IsNumeral.of_digits (t := [48]) (x := []) (by simp) (by decide) (.inr hfraction) (.inl rfl)
    rw [List.append_nil] at h
    rw [List.append_assoc]
    exact h
  · next hpoint =>
    have hfront : ∀ b ∈ digitText (d.digits.take d.point.toNat) ++
        Text.times (d.point.toNat - d.digits.length) "0", isDigit b :=
      List.forall_mem_append.mpr
        ⟨isDigit_of_mem_digitText fun k hk => hd k (List.mem_of_mem_take hk), isDigit_of_mem_zeros⟩
    have hfront' : digitText (d.digits.take d.point.toNat) ++
        Text.times (d.point.toNat - d.digits.length) "0" ≠ [] := by
      intro h
      have hlen := congrArg List.length h
      have hpos : 0 < d.digits.length := List.length_pos_iff.mpr hne
      simp only [List.length_append, length_times_zero, digitText, List.length_map, List.length_take,
        List.length_nil] at hlen
      omega
    simp only
    split
    · have h := IsNumeral.of_digits (f := []) (x := []) hfront' hfront (.inl rfl) (.inl rfl)
      rwa [List.append_nil, List.append_nil] at h
    · next hback =>
      have hfraction : IsFraction (46 :: digitText (d.digits.drop d.point.toNat)) :=
        ⟨_, rfl, by simpa [digitText] using hback,
          isDigit_of_mem_digitText fun k hk => hd k (List.mem_of_mem_drop hk)⟩
      have h := IsNumeral.of_digits (x := []) hfront' hfront (.inr hfraction) (.inl rfl)
      rw [List.append_nil] at h
      rw [List.append_assoc]
      exact h

theorem isNumeral_scientific (hne : d.digits ≠ []) (hd : ∀ k ∈ d.digits, k ≤ 9) :
    IsNumeral d.scientific := by
  have hfront : digitText (d.digits.take 1) ≠ [] := by
    simp [digitText, hne]
  have hfraction : ∀ f : Text,
      f = (if (d.digits.drop 1).isEmpty then [] else Text.ofString "." ++ digitText (d.digits.drop 1)) →
      f = [] ∨ IsFraction f := by
    rintro f rfl
    split
    · exact .inl rfl
    · next hback =>
      exact .inr ⟨digitText (d.digits.drop 1), rfl,
        fun h => hback (List.isEmpty_iff.mpr (List.map_eq_nil_iff.mp h)),
        isDigit_of_mem_digitText fun k hk => hd k (List.mem_of_mem_drop hk)⟩
  have hscale : ∀ (padding : Text), (∀ b ∈ padding, isDigit b) →
      IsScale ("e" ++ ((if d.point - 1 < 0 then Text.ofString "-" else "+") ++
        (padding ++ Text.ofNat (d.point - 1).natAbs))) := by
    intro padding hpadding
    refine ⟨if d.point - 1 < 0 then 45 else 43, padding ++ Text.ofNat (d.point - 1).natAbs, ?_, ?_, ?_, ?_⟩
    · split <;> rfl
    · split
      · exact .inr rfl
      · exact .inl rfl
    · simp [Text.ofNat_ne_nil]
    · exact List.forall_mem_append.mpr ⟨hpadding, Text.isDigit_of_mem_ofNat⟩
  have hpad : ∀ b ∈ (if (Text.ofNat (d.point - 1).natAbs).length < 2 then Text.ofString "0" else []),
      isDigit b := by
    split
    · decide
    · simp
  have h := IsNumeral.of_digits hfront (isDigit_of_mem_digitText fun k hk => hd k (List.mem_of_mem_take hk))
    (hfraction _ rfl) (.inr (hscale _ hpad))
  rw [scientific]
  simpa only [List.append_assoc] using h

theorem isNumeral_write (n : Style) (hd : ∀ k ∈ d.digits, k ≤ 9) : IsNumeral (d.write n) := by
  rw [write]
  split
  · exact ⟨48, [], [], [], rfl, by decide, by simp, .inl rfl, .inl rfl⟩
  · next hne =>
    have hne' : d.digits ≠ [] := by simpa using hne
    split
    · exact isNumeral_positional hne' hd
    · exact isNumeral_scientific hne' hd

theorem digits_ofScaled (c : Nat) (e : Int) : ∀ k ∈ (ofScaled c e).digits, k ≤ 9 := by
  intro k hk
  have hmem : k ∈ digitsOf c := by
    have hrev := List.mem_reverse.mp hk
    exact List.mem_reverse.mp ((List.dropWhile_sublist _).subset hrev)
  rw [digitsOf] at hmem
  split at hmem
  · cases hmem
  · obtain ⟨x, hx, rfl⟩ := List.mem_map.mp hmem
    have hdigit := Nat.isDigit_of_mem_toDigits (by decide) (by decide) hx
    simp only [Char.isDigit, Bool.and_eq_true, decide_eq_true_eq] at hdigit
    have hle : x.toNat ≤ 57 := hdigit.2
    have h0 : '0'.toNat = 48 := rfl
    omega

theorem digits_search (i : Shortest.Interval) (magnitude : Int) (tries digits : Nat) :
    ∀ k ∈ (i.search magnitude tries digits).digits, k ≤ 9 := by
  induction tries generalizing digits with
  | zero => exact digits_ofScaled _ _
  | succ tries ih =>
    rw [Shortest.Interval.search]
    split
    · exact digits_ofScaled _ _
    · exact ih _

end Decimal

namespace Lexer

open Decimal (IsNumeral)

/-- What is written for a float is one token, for it has a point or an exponent. -/
theorem Yields.float {t : Text} (h : IsNumeral t) :
    Yields (Value.pointed t) [(.floatLiteral, Value.pointed t)] := by
  obtain ⟨b, ds, f, x, rfl, hb, hds, hf, hx⟩ := h
  have hmark : ∀ c ∈ b :: (ds ++ (f ++ x)), (Text.ofString ".eEnN").elem c →
      Value.pointed (b :: (ds ++ (f ++ x))) = b :: (ds ++ (f ++ x)) := by
    intro c hc hmem
    rw [Value.pointed, if_pos (List.any_eq_true.mpr ⟨c, hc, hmem⟩)]
  rcases hf with rfl | hf
  · rcases hx with rfl | hx
    · have hall : ∀ c, Decimal.isDigit c → ¬ (Text.ofString ".eEnN").elem c :=
        Decimal.forall_isDigit (by decide)
      have hnone : ¬ (b :: (ds ++ ([] ++ []))).any (Text.ofString ".eEnN").elem := by
        rw [List.any_eq_true]
        rintro ⟨c, hc, hmem⟩
        have hdigit : Decimal.isDigit c := by
          rcases List.mem_cons.mp hc with rfl | hc
          · exact hb
          · exact hds c (by simpa using hc)
        exact hall c hdigit hmem
      rw [Value.pointed, if_neg hnone]
      have hfraction : IsFraction ".0" := ⟨[48], rfl, by simp, by decide⟩
      have h := Yields.pointed hb hds hfraction
      rw [List.append_nil, List.append_nil]
      exact h
    · obtain ⟨sign, xs, hxs, -⟩ := id hx
      rw [hmark 101 (by simp [hxs]) (by decide), List.nil_append]
      exact Yields.scaled hb hds hx
  · obtain ⟨fs, hfs, -⟩ := id hf
    rw [hmark 46 (by simp [hfs]) (by decide)]
    rcases hx with rfl | hx
    · rw [List.append_nil]
      exact Yields.pointed hb hds hf
    · exact Yields.pointedScaled hb hds hf hx

end Lexer

namespace Single

/-- Is the number neither negative nor infinite nor a NaN? -/
def isPlain (x : Single) : Bool := x.toNat < FloatFormat.single.infinity

theorem isNumeral_text {x : Single} (h : x.isPlain) : Decimal.IsNumeral x.text := by
  have hlt : x.toNat < 0x7F800000 := of_decide_eq_true h
  have hdatum : ∃ m q, FloatFormat.single.unpack x.toNat = .finite false m q := by
    have hsign : (x.toNat / FloatFormat.single.signBit % 2 == 1) = false := by
      have hs : FloatFormat.single.signBit = 2147483648 := rfl
      rw [hs, Nat.div_eq_of_lt (by omega)]
      rfl
    have hfield : x.toNat >>> FloatFormat.single.fractionBits % 1 <<< FloatFormat.single.exponentBits ≠
        1 <<< FloatFormat.single.exponentBits - 1 := by
      have hf : FloatFormat.single.fractionBits = 23 := rfl
      have he : FloatFormat.single.exponentBits = 8 := rfl
      have hmod : x.toNat / 2 ^ 23 % 256 ≠ 255 := by omega
      rw [hf, he, Nat.shiftRight_eq_div_pow]
      exact hmod
    rw [FloatFormat.unpack, hsign, if_neg hfield]
    split
    · exact ⟨_, _, rfl⟩
    · exact ⟨_, _, rfl⟩
  obtain ⟨m, q, hdatum⟩ := hdatum
  rw [text, FloatFormat.write, hdatum]
  simp only [Bool.false_eq_true, if_false, List.nil_append]
  split
  · exact ⟨48, [], [], [], rfl, by decide, by simp, .inl rfl, .inl rfl⟩
  · exact Decimal.isNumeral_write _ (Decimal.digits_search _ _ _ _)

end Single

end Shading
