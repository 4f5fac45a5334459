import Mathlib.Data.Option.Basic
import Shading.CommandLine.Numeral
import Shading.Proofs.Literal

/-! Values of options that are written as literals are. They stand for what the literals stand for, as long as there is
no ending `f`, no zero in front of another digit, no underscore and no `0X`. -/
namespace Shading

namespace Text

variable {t rest : Text}

theorem dropStart_eq_some {start : Text} (h : dropStart? start t = some rest) : t = start ++ rest := by
  rw [dropStart?] at h
  split at h
  · next hstart =>
    cases h
    obtain ⟨rest, rfl⟩ := List.isPrefixOf_iff_prefix.mp hstart
    rw [List.drop_left]
  · cases h

theorem dropSuffix_eq_some {ending : Text} (h : dropSuffix? ending t = some rest) :
    t = rest ++ ending := by
  rw [dropSuffix?] at h
  split at h
  · next hending =>
    cases h
    obtain ⟨rest, rfl⟩ := List.isSuffixOf_iff_suffix.mp hending
    rw [List.length_append, Nat.add_sub_cancel, List.take_left]
  · cases h

end Text

namespace Literal

/-- The step of reading one more digit. -/
def digitStep (base : Nat) (acc : Option Nat) (b : UInt8) : Option Nat := do
  let n ← acc
  let d ← Text.hexDigit? b
  if d < base then some (n * base + d) else none

/-- The number that digits stand for behind those of another one. -/
inductive Reads (base : Nat) : Nat → Text → Nat → Prop
  | nil (n : Nat) : Reads base n [] n
  | cons {n d m : Nat} {b : UInt8} {t : Text} (hd : Text.hexDigit? b = some d) (hlt : d < base)
    (hrest : Reads base (n * base + d) t m) : Reads base n (b :: t) m

variable {base n m : Nat} {t ds : Text}

theorem foldl_digitStep_none (base : Nat) (t : Text) : t.foldl (digitStep base) none = none := by
  induction t with
  | nil => rfl
  | cons b t ih => exact ih

theorem reads_of_foldl (h : t.foldl (digitStep base) (some n) = some m) : Reads base n t m := by
  induction t generalizing n with
  | nil =>
    injection h with h
    rw [← h]
    exact .nil n
  | cons b t ih =>
    rw [List.foldl_cons] at h
    cases hd : Text.hexDigit? b with
    | none =>
      rw [digitStep, hd] at h
      exact absurd ((foldl_digitStep_none base t).symm.trans h) (by simp)
    | some d =>
      by_cases hlt : d < base
      · refine .cons hd hlt (ih ?_)
        rw [digitStep, hd] at h
        simpa [hlt] using h
      · rw [digitStep, hd] at h
        simp only [Option.bind_eq_bind, Option.bind_some, if_neg hlt] at h
        exact absurd ((foldl_digitStep_none base t).symm.trans h) (by simp)

theorem reads_of_natOfBase (h : natOfBase? base t = some n) : t ≠ [] ∧ Reads base 0 t n := by
  cases t with
  | nil => cases h
  | cons b t => exact ⟨List.cons_ne_nil _ _, reads_of_foldl h⟩

theorem Reads.le (h : Reads base n t m) (hbase : 0 < base) : n ≤ m := by
  induction h with
  | nil n => exact Nat.le_refl n
  | cons hd hlt hrest ih =>
    exact Nat.le_trans (Nat.le_trans (Nat.le_mul_of_pos_right _ hbase) (Nat.le_add_right _ _)) ih

theorem Reads.underscore_not_mem (h : Reads base n t m) : Text.byte '_' ∉ t := by
  induction h with
  | nil n => exact List.not_mem_nil
  | cons hd hlt hrest ih =>
    rintro (_ | ⟨_, hmem⟩)
    · have hnone : Text.hexDigit? (Text.byte '_') = none := by decide
      rw [hnone] at hd
      cases hd
    · exact ih hmem

/-- Decimal digits are those below ten. -/
theorem isDigit_of_hexDigit {b : UInt8} {d : Nat} (hd : Text.hexDigit? b = some d) (hlt : d < 10) :
    Decimal.isDigit b := by
  unfold Text.hexDigit? at hd
  split at hd
  · next h => exact (Bool.and_eq_true _ _).mpr ⟨decide_eq_true h.1, decide_eq_true h.2⟩
  · split at hd
    · cases hd
      omega
    · split at hd
      · cases hd
        omega
      · cases hd

theorem Reads.isDigit (h : Reads 10 n t m) : ∀ b ∈ t, Decimal.isDigit b := by
  generalize hbase : 10 = base at h
  induction h with
  | nil n => exact fun b hb => absurd hb List.not_mem_nil
  | cons hd hlt hrest ih => exact List.forall_mem_cons.mpr ⟨isDigit_of_hexDigit hd (hbase ▸ hlt), ih⟩

/-- The digits of an integer literal and its number. -/
inductive IntDigits : Text → Nat → Prop
  | decimal {ds : Text} {n : Nat} (hne : ds ≠ []) (hreads : Reads 10 0 ds n) : IntDigits ds n
  | hex {x : UInt8} {ds : Text} {n : Nat} (hx : x = 120 ∨ x = 88) (hne : ds ≠ []) (hreads : Reads 16 0 ds n) :
    IntDigits (48 :: x :: ds) n

theorem exists_reads {f : Nat → Except IntError Value} {v : Value}
    (h : (natOfBase? base t).elim (throw .malformed) pure >>= f = .ok v) :
    ∃ n, t ≠ [] ∧ Reads base 0 t n ∧ f n = .ok v := by
  cases hread : natOfBase? base t with
  | none =>
    rw [hread] at h
    cases h
  | some n =>
    rw [hread] at h
    obtain ⟨hne, hreads⟩ := reads_of_natOfBase hread
    exact ⟨n, hne, hreads, h⟩

theorem exists_intDigits {f : Nat → Except IntError Value} {v : Value}
    (h : (match (Text.dropStart? "0x" ds).or (Text.dropStart? "0X" ds) with
      | some t => (natOfBase? 16 t).elim (throw IntError.malformed) pure >>= f
      | none => (natOfBase? 10 ds).elim (throw IntError.malformed) pure >>= f) = .ok v) :
    ∃ n, IntDigits ds n ∧ f n = .ok v := by
  split at h
  · next rest hrest =>
    obtain ⟨n, hne, hreads, h⟩ := exists_reads h
    refine ⟨n, ?_, h⟩
    rcases Option.or_eq_some_iff.mp hrest with hrest | ⟨-, hrest⟩
    · rw [Text.dropStart_eq_some hrest]
      exact .hex (.inl rfl) hne hreads
    · rw [Text.dropStart_eq_some hrest]
      exact .hex (.inr rfl) hne hreads
  · obtain ⟨n, hne, hreads, h⟩ := exists_reads h
    exact ⟨n, .decimal hne hreads, h⟩

/-- The parts of an integer literal without underscores. -/
theorem int_parts {v : Value} (hplain : Text.byte '_' ∉ t) (h : int t = .ok v) :
    ∃ ds n, IntDigits ds n ∧
      (Text.dropSuffix? "u" t = some ds ∧ n < UInt32.size ∧ v = .u32 n.toUInt32 ∨
        Text.dropSuffix? "u" t = none ∧ t = ds ∧ n ≤ 2147483647 ∧ v = .i32 (Int32.ofNat n)) := by
  have hfilter : t.filter (· ≠ Text.byte '_') = t :=
    List.filter_eq_self.mpr fun b hb => decide_eq_true fun heq => hplain (heq ▸ hb)
  unfold int at h
  rw [hfilter] at h
  dsimp only at h
  cases hending : Text.dropSuffix? "u" t with
  | some ds =>
    simp only [hending, if_true] at h
    obtain ⟨n, hdigits, h⟩ := exists_intDigits h
    split at h
    · cases h
    split at h
    · cases h
    · next hsize =>
      cases h
      exact ⟨ds, n, hdigits, .inl ⟨rfl, Nat.lt_of_not_le hsize, rfl⟩⟩
  | none =>
    simp only [hending, Bool.false_eq_true, if_false] at h
    obtain ⟨n, hdigits, h⟩ := exists_intDigits h
    split at h
    · cases h
    split at h
    · cases h
    · next hmax =>
      cases h
      refine ⟨t, n, hdigits, .inr ⟨rfl, rfl, ?_, rfl⟩⟩
      change ¬ (2147483647 : Int) < n at hmax
      omega

end Literal

namespace CommandLine

/-- A zero stands in front of another digit. -/
def IsPadded (t : Text) : Prop := ∃ b ds, t = 48 :: b :: ds ∧ Decimal.isDigit b

namespace Numeral

open Decimal (IsNumberByte)
open Literal (Reads IntDigits)

variable {base bound n m : Nat} {t ds : Text}

theorem digit_of_hexDigit {b : UInt8} {d : Nat} (h : Text.hexDigit? b = some d) : digit? b = some d := by
  have hall : ∀ k : Fin 256, Text.hexDigit? k.val.toUInt8 = none ∨
      digit? k.val.toUInt8 = Text.hexDigit? k.val.toUInt8 := by decide +kernel
  have hb : b.toNat.toUInt8 = b := by simp
  have hcase := hall ⟨b.toNat, b.toNat_lt⟩
  rw [hb, h] at hcase
  rcases hcase with hnone | hsome
  · cases hnone
  · exact hsome

/-- Digits below the bound are read as in a literal. -/
theorem digits_of_reads (h : Reads base n t m) (hbase : 0 < base) (hm : m < bound) :
    digits base bound n t = .ok m := by
  induction h with
  | nil n => rfl
  | @cons n d m b t hd hlt hrest ih =>
    have hne : b ≠ underscore := by
      rintro rfl
      exact absurd List.mem_cons_self (Reads.cons hd hlt hrest).underscore_not_mem
    have hle := hrest.le hbase
    rw [digits, if_neg hne, digit_of_hexDigit hd]
    dsimp only
    rw [if_neg (Nat.not_le.mpr hlt), if_neg (by omega)]
    exact ih hm

/-- Without underscores nothing but the digits counts. -/
theorem natural_of_digits (hne : t ≠ []) (hplain : underscore ∉ t)
    (h : digits (based t).1 bound 0 (based t).2 = .ok n) : natural bound t = .ok n := by
  have hempty : t.isEmpty = false := List.isEmpty_eq_false_iff.mpr hne
  have hcontains : t.contains underscore = false := by simpa using hplain
  rw [natural, hempty, hcontains]
  dsimp only [Bool.false_eq_true, if_false]
  rw [h]
  rfl

theorem based_of_decimal (h : ∀ b ∈ t, Decimal.isDigit b) (hpadded : ¬ IsPadded t) :
    based t = (10, t) ∨ t = [48] := by
  cases t with
  | nil => exact .inl rfl
  | cons b t =>
    by_cases hb : b = 48
    · subst hb
      cases t with
      | nil => exact .inr rfl
      | cons c t => exact absurd ⟨c, t, rfl, h c (by simp)⟩ hpadded
    · exact .inl (if_pos hb)

theorem based_of_hex {x b : UInt8} (hx : x = 120 ∨ x = 88) : based (48 :: x :: b :: ds) = (16, b :: ds) := by
  rcases hx with rfl | rfl <;> rfl

/-- The digits of an integer literal are read as in the literal unless a zero stands in front of them. -/
theorem natural_of_intDigits (h : IntDigits t n) (hpadded : ¬ IsPadded t) (hn : n < bound) :
    natural bound t = .ok n := by
  cases h with
  | decimal hne hreads =>
    refine natural_of_digits hne hreads.underscore_not_mem ?_
    rcases based_of_decimal hreads.isDigit hpadded with hbased | rfl
    · rw [hbased]
      exact digits_of_reads hreads (Nat.succ_pos _) hn
    · cases hreads with
      | cons hd hlt hrest =>
        cases hrest
        cases hd
        rfl
  | @hex x ds n hx hne hreads =>
    have hplain : underscore ∉ 48 :: x :: ds := by
      simp only [List.mem_cons, not_or]
      refine ⟨by decide, ?_, hreads.underscore_not_mem⟩
      rcases hx with rfl | rfl <;> decide
    refine natural_of_digits (List.cons_ne_nil _ _) hplain ?_
    cases ds with
    | nil => exact absurd rfl hne
    | cons b ds =>
      rw [based_of_hex hx]
      exact digits_of_reads hreads (Nat.succ_pos _) hn

theorem integer_of_intDigits (h : IntDigits t n) (hpadded : ¬ IsPadded t) (hn : n ≤ 2147483647) :
    integer 32 t = .ok (n : Int) := by
  have hsign : t.head? ≠ some (Text.byte '-') ∧ unsignedPart t = t := by
    have hfirst : ∀ b, Decimal.isDigit b → b ≠ Text.byte '-' ∧ b ≠ Text.byte '+' :=
      Decimal.forall_isDigit (by decide)
    have hdigit : ∃ b ds, t = b :: ds ∧ Decimal.isDigit b := by
      cases h with
      | decimal hne hreads =>
        cases t with
        | nil => exact absurd rfl hne
        | cons b ds => exact ⟨b, ds, rfl, hreads.isDigit b List.mem_cons_self⟩
      | hex hx hne hreads => exact ⟨48, _, rfl, by decide⟩
    obtain ⟨b, ds, rfl, hb⟩ := hdigit
    obtain ⟨hminus, hplus⟩ := hfirst b hb
    exact ⟨fun heq => hminus (Option.some.inj heq), if_neg (by simpa using ⟨hminus, hplus⟩)⟩
  have hnegative : (t.head? == some (Text.byte '-')) = false := by simpa using hsign.1
  have hbound : n < 1 <<< 32 := Nat.lt_of_le_of_lt hn (by decide)
  rw [integer, hsign.2, natural_of_intDigits h hpadded hbound, hnegative]
  simp [bind, Except.bind, pure, Except.pure]
  omega

/-- An exponent of a literal has digits behind its sign. -/
theorem exponent_parts {mark : UInt8} {e : Int} (h : Decimal.exponent? (mark :: t) = some e) :
    (mark = Text.byte 'e' ∨ mark = Text.byte 'E') ∧ unsignedPart t ≠ [] ∧
      (∀ b ∈ unsignedPart t, Decimal.isDigit b) ∧
      e = if t.head? == some (Text.byte '-') then -(Decimal.exponentOf (unsignedPart t) : Int)
        else Decimal.exponentOf (unsignedPart t) := by
  unfold Decimal.exponent? at h
  obtain ⟨u, hmark, hscale⟩ := Option.bind_eq_some_iff.mp h
  have hdigits (negative : Bool) (ds : Text) (hds : unsignedPart t = ds)
      (hnegative : (t.head? == some (Text.byte '-')) = negative)
      (h : (do
        guard (!ds.isEmpty && ds.all Decimal.isDigit)
        return if negative then -(Decimal.exponentOf ds : Int) else Decimal.exponentOf ds) = some e) :
      unsignedPart t ≠ [] ∧ (∀ b ∈ unsignedPart t, Decimal.isDigit b) ∧
        e = if t.head? == some (Text.byte '-') then -(Decimal.exponentOf (unsignedPart t) : Int)
          else Decimal.exponentOf (unsignedPart t) := by
    obtain ⟨u, hguard, h⟩ := Option.bind_eq_some_iff.mp h
    have hall : ds ≠ [] ∧ ∀ b ∈ ds, Decimal.isDigit b := by simpa using (Option.guard_eq_some' u).mp hguard
    rw [hds, hnegative]
    exact ⟨hall.1, hall.2, (Option.some.inj h).symm⟩
  refine ⟨by simpa using (Option.guard_eq_some' u).mp hmark, ?_⟩
  cases t with
  | nil => cases hscale
  | cons s ds =>
    by_cases hminus : s = Text.byte '-'
    · simp only [hminus, if_true] at hscale
      exact hdigits true ds (by simp [unsignedPart, hminus]) (by simp [hminus]) hscale
    · by_cases hplus : s = Text.byte '+'
      · simp only [if_neg hminus, if_pos hplus] at hscale
        exact hdigits false ds (by simp [unsignedPart, hplus]) (by simpa using hminus) hscale
      · simp only [if_neg hminus, if_neg hplus] at hscale
        exact hdigits false (s :: ds) (by simp [unsignedPart, hminus, hplus]) (by simpa using hminus) hscale

/-- An exponent is read as in a literal. -/
theorem exponent_of_literal {mark : UInt8} {e : Int} (h : Decimal.exponent? (mark :: t) = some e) :
    lower mark = Text.byte 'e' ∧ exponent? t = some e := by
  obtain ⟨hmark, hne, hdigits, rfl⟩ := exponent_parts h
  have hplain : ∀ b, Decimal.isDigit b → b ≠ underscore := Decimal.forall_isDigit (by decide)
  have hfirst : (unsignedPart t).head?.any Decimal.isDigit = true := by
    obtain ⟨b, ds, hds⟩ := List.exists_cons_of_ne_nil hne
    rw [hds] at hdigits ⊢
    exact hdigits b List.mem_cons_self
  have hall : ((unsignedPart t).all fun b => Decimal.isDigit b || b = underscore) = true :=
    List.all_eq_true.mpr fun b hb => by rw [hdigits b hb, Bool.true_or]
  have hfilter : (unsignedPart t).filter (· ≠ underscore) = unsignedPart t :=
    List.filter_eq_self.mpr fun b hb => decide_eq_true (hplain b (hdigits b hb))
  refine ⟨by rcases hmark with rfl | rfl <;> decide, ?_⟩
  rw [exponent?, hfirst, hall, hfilter]
  rfl

theorem takeWhile_dropWhile_congr {p q : UInt8 → Bool} (h : ∀ b ∈ t, p b = q b) :
    t.takeWhile p = t.takeWhile q ∧ t.dropWhile p = t.dropWhile q := by
  induction t with
  | nil => exact ⟨rfl, rfl⟩
  | cons b t ih =>
    obtain ⟨hb, ht⟩ := List.forall_mem_cons.mp h
    obtain ⟨htake, hdrop⟩ := ih ht
    rw [List.takeWhile_cons, List.takeWhile_cons, List.dropWhile_cons, List.dropWhile_cons, hb, htake, hdrop]
    exact ⟨rfl, rfl⟩

/-- Without underscores the parts of a number are those of a literal. -/
theorem read_eq (hplain : underscore ∉ t) :
    Decimal.read? t = (do
      let (whole, fraction, rest) := mantissa Decimal.isDigit t
      guard (!(whole.isEmpty && fraction.isEmpty))
      return ⟨whole, fraction, ← Decimal.exponent? rest⟩) := by
  have hpart {u : Text} (hu : underscore ∉ u) :
      u.takeWhile (fun b => Decimal.isDigit b || b = underscore) = u.takeWhile Decimal.isDigit ∧
        u.dropWhile (fun b => Decimal.isDigit b || b = underscore) = u.dropWhile Decimal.isDigit := by
    refine takeWhile_dropWhile_congr fun b hb => ?_
    have hne : b ≠ underscore := fun heq => hu (heq ▸ hb)
    rw [decide_eq_false hne, Bool.or_false]
  have hfilter {u : Text} (hu : underscore ∉ u) : u.filter (· ≠ underscore) = u :=
    List.filter_eq_self.mpr fun b hb => decide_eq_true fun heq => hu (heq ▸ hb)
  have htake {u : Text} (hu : underscore ∉ u) : underscore ∉ u.takeWhile Decimal.isDigit :=
    fun hmem => hu ((List.takeWhile_prefix _).subset hmem)
  obtain ⟨hwhole, hrest⟩ := hpart hplain
  unfold Decimal.read? mantissa
  simp only [hwhole, hrest, hfilter (htake hplain)]
  cases hcase : t.dropWhile Decimal.isDigit with
  | nil =>
    have hall : t.takeWhile Decimal.isDigit = t := by
      have happend := List.takeWhile_append_dropWhile (p := Decimal.isDigit) (l := t)
      rwa [hcase, List.append_nil] at happend
    simp only [hall, hfilter hplain]
  | cons p r =>
    have hr : underscore ∉ r := by
      refine fun hmem => hplain ((List.dropWhile_suffix Decimal.isDigit).subset ?_)
      rw [hcase]
      exact List.mem_cons_of_mem p hmem
    by_cases hpoint : p = Text.byte '.'
    · simp only [hpoint, if_true, hpart hr, hfilter (htake hr)]
    · simp only [hpoint, if_false]

/-- A number without underscores is read as in a literal. -/
theorem decimalMagnitude_of_read {s : Decimal.Spelling} (hplain : underscore ∉ t) (h : Decimal.read? t = some s) :
    decimalMagnitude? t = some (s.magnitude .single) := by
  rw [read_eq hplain] at h
  rw [decimalMagnitude?]
  generalize mantissa Decimal.isDigit t = parts at h ⊢
  obtain ⟨whole, fraction, rest⟩ := parts
  obtain ⟨u, hguard, h⟩ := Option.bind_eq_some_iff.mp h
  obtain ⟨e, he, h⟩ := Option.bind_eq_some_iff.mp h
  cases h
  have hsome : (!(whole ++ fraction).isEmpty) = true := by
    cases whole <;> cases fraction <;> simp_all [guard]
  dsimp only
  rw [hsome]
  cases rest with
  | nil =>
    cases he
    rfl
  | cons mark rest =>
    obtain ⟨hmark, hrest⟩ := exponent_of_literal he
    dsimp only
    rw [if_pos hmark, hrest]
    rfl

theorem bytes_of_exponent {e : Int} (h : Decimal.exponent? t = some e) : ∀ b ∈ t, IsNumberByte b := by
  cases t with
  | nil => exact fun b hb => absurd hb List.not_mem_nil
  | cons mark t =>
    obtain ⟨hmark, -, hdigits, -⟩ := exponent_parts h
    refine List.forall_mem_cons.mpr ⟨by rcases hmark with rfl | rfl <;> decide, ?_⟩
    cases t with
    | nil => exact fun b hb => absurd hb List.not_mem_nil
    | cons s ds =>
      by_cases hsign : s = Text.byte '-' ∨ s = Text.byte '+'
      · rw [unsignedPart, if_pos (by simpa using hsign)] at hdigits
        exact List.forall_mem_cons.mpr ⟨by rcases hsign with rfl | rfl <;> decide, fun b hb => .inl (hdigits b hb)⟩
      · rw [unsignedPart, if_neg (by simpa using hsign)] at hdigits
        exact fun b hb => .inl (hdigits b hb)

theorem bytes_of_read {s : Decimal.Spelling} (h : Decimal.read? t = some s) : ∀ b ∈ t, IsNumberByte b := by
  have htake (u : Text) : ∀ b ∈ u.takeWhile Decimal.isDigit, IsNumberByte b :=
    fun b hb => .inl (List.all_eq_true.mp List.all_takeWhile b hb)
  have hparts (u : Text) (hrest : ∀ b ∈ u.dropWhile Decimal.isDigit, IsNumberByte b) : ∀ b ∈ u, IsNumberByte b := by
    rw [← List.takeWhile_append_dropWhile (p := Decimal.isDigit) (l := u)]
    exact List.forall_mem_append.mpr ⟨htake u, hrest⟩
  refine hparts t ?_
  unfold Decimal.read? at h
  cases hcase : t.dropWhile Decimal.isDigit with
  | nil => exact fun b hb => absurd hb List.not_mem_nil
  | cons p r =>
    simp only [hcase] at h
    by_cases hpoint : p = Text.byte '.'
    · simp only [if_pos hpoint] at h
      obtain ⟨u, -, h⟩ := Option.bind_eq_some_iff.mp h
      obtain ⟨e, he, -⟩ := Option.bind_eq_some_iff.mp h
      rw [hpoint]
      exact List.forall_mem_cons.mpr ⟨by decide, hparts r (bytes_of_exponent he)⟩
    · simp only [if_neg hpoint] at h
      obtain ⟨u, -, h⟩ := Option.bind_eq_some_iff.mp h
      obtain ⟨e, he, -⟩ := Option.bind_eq_some_iff.mp h
      exact bytes_of_exponent he

theorem first_of_read {s : Decimal.Spelling} (h : Decimal.read? t = some s) :
    ∃ b ds, t = b :: ds ∧ b ≠ Text.byte '-' ∧ b ≠ Text.byte '+' := by
  unfold Decimal.read? at h
  cases t with
  | nil => cases h
  | cons b ds =>
    refine ⟨b, ds, rfl, ?_, ?_⟩
    · rintro rfl
      cases h
    · rintro rfl
      cases h

/-- A float without underscores and without an ending is read as in a literal. -/
theorem float_of_read {s : Decimal.Spelling} (hplain : underscore ∉ t) (h : Decimal.read? t = some s)
    (hfinite : s.magnitude .single ≠ FloatFormat.single.infinity) :
    float t = .ok (Single.ofNat (s.magnitude .single)) := by
  have hmagnitude := decimalMagnitude_of_read hplain h
  have hlower : ∀ b ∈ t, lower b ≠ Text.byte 'x' := by
    have hmark : ∀ b ∈ ([46, 101, 69, 43, 45] : Text), lower b ≠ Text.byte 'x' := by decide
    have hdigit : ∀ b, Decimal.isDigit b → lower b ≠ Text.byte 'x' := Decimal.forall_isDigit (by decide)
    exact fun b hb => (bytes_of_read h b hb).elim (hdigit b) (hmark b)
  have hcontains : t.contains underscore = false := by simpa using hplain
  obtain ⟨b, ds, rfl, hminus, hplus⟩ := first_of_read h
  have hnegative : ((b :: ds).head? == some (Text.byte '-')) = false := by simpa using hminus
  have hunsigned : unsignedPart (b :: ds) = b :: ds := if_neg (by simpa using ⟨hminus, hplus⟩)
  rw [float, hunsigned, hnegative, hcontains]
  -- only a third character lets a mark of the base be one
  rcases ds with _ | ⟨x, _ | ⟨d, rest⟩⟩
  · simp [hmagnitude, hfinite, FloatFormat.withSign, pure, Except.pure]
  · simp [hmagnitude, hfinite, FloatFormat.withSign, pure, Except.pure]
  · have hx : lower x ≠ Text.byte 'x' := hlower x (by simp)
    simp [hx, hmagnitude, hfinite, FloatFormat.withSign, pure, Except.pure]

end Numeral

theorem isPadded_of_append {ds : Text} (h : IsPadded ds) (ending : Text) : IsPadded (ds ++ ending) := by
  obtain ⟨b, ds, rfl, hb⟩ := h
  exact ⟨b, ds ++ ending, rfl, hb⟩

/-- An integer is read as the literal unless a zero stands in front of its digits, underscores part them or `0X` makes
it look like a float. -/
theorem numberValue_int {t : Text} {v : Value} (hplain : Text.byte '_' ∉ t) (hpadded : ¬ IsPadded t)
    (hupper : ¬ (Text.ofString "0X").isPrefixOf t) (h : Literal.int t = .ok v) : numberValue t = .ok v := by
  obtain ⟨ds, n, hdigits, hparts⟩ := Literal.int_parts hplain h
  rcases hparts with ⟨hending, hn, rfl⟩ | ⟨hending, rfl, hn, rfl⟩
  · have hpadded' : ¬ IsPadded ds := by
      rw [Text.dropSuffix_eq_some hending] at hpadded
      exact fun hds => hpadded (isPadded_of_append hds _)
    simp only [numberValue, hending, Numeral.natural_of_intDigits hdigits hpadded' hn]
    rfl
  · have hmark : (t.any (Text.ofString ".eE").contains && !(Text.ofString "0x").isPrefixOf t) = false := by
      cases hdigits with
      | decimal hne hreads =>
        have hnone : ∀ b, Decimal.isDigit b → (Text.ofString ".eE").contains b = false :=
          Decimal.forall_isDigit (by decide)
        have hany : t.any (Text.ofString ".eE").contains = false :=
          List.any_eq_false.mpr fun b hb => by
            rw [hnone b (hreads.isDigit b hb)]
            exact Bool.false_ne_true
        rw [hany, Bool.false_and]
      | @hex x ds n hx hne hreads =>
        rcases hx with rfl | rfl
        · have hlower : (Text.ofString "0x").isPrefixOf (48 :: 120 :: ds) = true := rfl
          rw [hlower, Bool.not_true, Bool.and_false]
        · exact absurd rfl hupper
    simp only [numberValue, hending, hmark, Numeral.integer_of_intDigits hdigits hpadded hn]
    rfl

/-- A float with a point or an exponent is read as the literal unless underscores part its digits or `f` ends it. -/
theorem numberValue_float {t : Text} {v : Value} (hplain : Text.byte '_' ∉ t)
    (hmark : t.any (Text.ofString ".eE").contains) (hending : ¬ (Text.ofString "f").isSuffixOf t)
    (h : Literal.float? t = some v) : numberValue t = .ok v := by
  have hend : Text.dropSuffix? "f" t = none := by rw [Text.dropSuffix?, if_neg hending]
  have hfilter : t.filter (· ≠ Text.byte '_') = t :=
    List.filter_eq_self.mpr fun b hb => decide_eq_true fun heq => hplain (heq ▸ hb)
  unfold Literal.float? at h
  rw [hend, Option.getD_none, hfilter] at h
  obtain ⟨s, hs, h⟩ := Option.bind_eq_some_iff.mp h
  obtain ⟨u, hguard, h⟩ := Option.bind_eq_some_iff.mp h
  cases h
  have hfinite : s.magnitude .single ≠ FloatFormat.single.infinity :=
    (Option.guard_eq_some' u).mp hguard
  have hbytes := Numeral.bytes_of_read hs
  have hunsigned : Text.dropSuffix? "u" t = none := by
    rw [Text.dropSuffix?, if_neg]
    intro hsuffix
    have hmem : 117 ∈ t := (List.isSuffixOf_iff_suffix.mp hsuffix).subset (List.mem_singleton.mpr rfl)
    exact absurd (hbytes 117 hmem) (by decide)
  have hhex : (Text.ofString "0x").isPrefixOf t = false := by
    rw [Bool.eq_false_iff]
    intro hprefix
    have hmem : 120 ∈ t := (List.isPrefixOf_iff_prefix.mp hprefix).subset (by decide)
    exact absurd (hbytes 120 hmem) (by decide)
  simp only [numberValue, hunsigned, hmark, hhex, Numeral.float_of_read hplain hs hfinite]
  rfl

end CommandLine

end Shading
