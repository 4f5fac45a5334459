import Mathlib.Data.List.Nodup
import Mathlib.Data.List.Perm.Subperm
import Shading.Glsl.Name
import Shading.Proofs.Literal

/-! Names that are given never clash. A name that is given already gets the first number behind it with which it is
new, and as long as fewer than `2 ^ 32` names are given there is such a number. No name for an identifier of the
source starts as those that the generator has for itself. -/
namespace Shading

/-- The bytes of ASCII characters. -/
theorem Text.ofString_ofList {cs : List Char} (hascii : cs.all (·.val < 128)) :
    Text.ofString (String.ofList cs) = cs.map Text.byte := by
  have hbytes : cs.flatMap String.utf8EncodeChar = cs.map Text.byte := by
    induction cs with
    | nil => rfl
    | cons c cs ih =>
      obtain ⟨hfirst, hrest⟩ := Bool.and_eq_true_iff.mp hascii
      have hlt : c.val < 128 := of_decide_eq_true hfirst
      have hle : c.val.toNat ≤ 127 := Nat.le_of_lt_succ (UInt32.lt_iff_toNat_lt.mp hlt)
      rw [List.flatMap_cons, ih hrest, String.utf8EncodeChar, if_pos hle]
      rfl
  rw [← hbytes]
  simp [Text.ofString, String.toUTF8, List.utf8Encode]

namespace Glsl

namespace Namer

theorem numbered_eq (name : Text) (n : UInt32) :
    numbered name n = name ++ Text.byte '_' :: Text.ofNat n.toNat := by
  rw [numbered, List.append_assoc]
  rfl

theorem numbered_ne (name : Text) (n : UInt32) : numbered name n ≠ name := by
  rw [numbered_eq]
  exact fun h => List.cons_ne_nil _ _ (List.append_right_eq_self.mp h)

theorem numbered_inj {name : Text} {m n : UInt32} (h : numbered name m = numbered name n) : m = n := by
  have hdigits : Text.ofNat m.toNat = Text.ofNat n.toNat := List.append_cancel_left h
  exact UInt32.toNat_inj.mp (Text.ofNat_inj hdigits)

/-- Numbers that are not given yet: among one number more than there are names, one is new. -/
theorem exists_unused (used : List Text) (name : Text) (counter : UInt32) (hfew : used.length < UInt32.size) :
    ∃ k, 0 < k ∧ k ≤ used.length + 1 ∧ numbered name (counter + UInt32.ofNat k) ∉ used := by
  by_contra hnone
  have hall : ∀ k, 0 < k → k ≤ used.length + 1 → numbered name (counter + UInt32.ofNat k) ∈ used := by
    intro k hpos hle
    by_contra hnew
    exact hnone ⟨k, hpos, hle, hnew⟩
  -- the names with the numbers in question are distinct, so that there are too many of them
  let candidates := (List.range (used.length + 1)).map fun j => numbered name (counter + UInt32.ofNat (j + 1))
  have hnodup : candidates.Nodup := by
    refine List.Nodup.map_on (fun i hi j hj heq => ?_) List.nodup_range
    have hi : i < used.length + 1 := List.mem_range.mp hi
    have hj : j < used.length + 1 := List.mem_range.mp hj
    have hnumber : UInt32.ofNat (i + 1) = UInt32.ofNat (j + 1) := by
      simpa using numbered_inj heq
    have hmod : (i + 1) % UInt32.size = (j + 1) % UInt32.size := congrArg UInt32.toNat hnumber
    rcases Nat.lt_or_ge (i + 1) UInt32.size with hi' | hi' <;> rcases Nat.lt_or_ge (j + 1) UInt32.size with hj' | hj'
    · rw [Nat.mod_eq_of_lt hi', Nat.mod_eq_of_lt hj'] at hmod
      omega
    · have hlast : j + 1 = UInt32.size := by omega
      rw [Nat.mod_eq_of_lt hi', hlast, Nat.mod_self] at hmod
      omega
    · have hlast : i + 1 = UInt32.size := by omega
      rw [Nat.mod_eq_of_lt hj', hlast, Nat.mod_self] at hmod
      omega
    · omega
  have hsub : candidates ⊆ used := by
    intro candidate hmem
    obtain ⟨j, hj, rfl⟩ := List.mem_map.mp hmem
    have hj : j < used.length + 1 := List.mem_range.mp hj
    exact hall (j + 1) (Nat.succ_pos j) hj
  have hlength : candidates.length ≤ used.length := (hnodup.subperm hsub).length_le
  have hcount : candidates.length = used.length + 1 := by simp [candidates]
  omega

/-- The search stops at the first number that is new. -/
theorem next_eq {used : List Text} {name : Text} {tries : Nat} {counter : UInt32}
    (hfree : ∃ k, 0 < k ∧ k ≤ tries ∧ numbered name (counter + UInt32.ofNat k) ∉ used) :
    ∃ k, 0 < k ∧ k ≤ tries ∧ next used name counter tries = counter + UInt32.ofNat k ∧
      numbered name (counter + UInt32.ofNat k) ∉ used ∧
      ∀ j, 0 < j → j < k → numbered name (counter + UInt32.ofNat j) ∈ used := by
  induction tries generalizing counter with
  | zero =>
    obtain ⟨k, hpos, hle, -⟩ := hfree
    omega
  | succ tries ih =>
    have hstep (k : Nat) : counter + 1 + UInt32.ofNat k = counter + UInt32.ofNat (k + 1) := by
      rw [UInt32.ofNat_add, UInt32.add_assoc, UInt32.add_comm 1]
      rfl
    rw [next]
    by_cases hused : numbered name (counter + 1) ∈ used
    · have hlater : ∃ k, 0 < k ∧ k ≤ tries ∧ numbered name (counter + 1 + UInt32.ofNat k) ∉ used := by
        obtain ⟨k, hpos, hle, hnew⟩ := hfree
        obtain ⟨k, rfl⟩ : ∃ j, k = j + 1 := ⟨k - 1, by omega⟩
        rcases Nat.eq_zero_or_pos k with rfl | hk
        · exact absurd hused hnew
        · exact ⟨k, hk, by omega, by rwa [hstep]⟩
      obtain ⟨k, hpos, hle, hnext, hnew, hbefore⟩ := ih hlater
      refine ⟨k + 1, by omega, by omega, ?_, ?_, fun j hj hlt => ?_⟩
      · rw [if_pos (List.contains_iff_mem.mpr hused), hnext, hstep]
      · rwa [hstep] at hnew
      · obtain ⟨j, rfl⟩ : ∃ i, j = i + 1 := ⟨j - 1, by omega⟩
        rcases Nat.eq_zero_or_pos j with rfl | hpos'
        · exact hused
        · rw [← hstep]
          exact hbefore j hpos' (by omega)
    · refine ⟨1, by omega, by omega, ?_, hused, fun j hj hlt => by omega⟩
      rw [if_neg fun h => hused (List.contains_iff_mem.mp h)]
      rfl

/-- Numbers are tried one after the other, and the first one with which the name is new ends the search. -/
theorem unique_of_mem (n : Namer) {name : Text} (hmem : name ∈ n.used) (hfew : n.used.length < UInt32.size) :
    ∃ k, 0 < k ∧ k ≤ n.used.length + 1 ∧
      (∀ j, 0 < j → j < k → numbered name (n.counter + UInt32.ofNat j) ∈ n.used) ∧
      numbered name (n.counter + UInt32.ofNat k) ∉ n.used ∧
      n.unique name = (numbered name (n.counter + UInt32.ofNat k),
        { used := numbered name (n.counter + UInt32.ofNat k) :: n.used, counter := n.counter + UInt32.ofNat k }) := by
  obtain ⟨k, hpos, hle, hnext, hnew, hbefore⟩ := next_eq (exists_unused n.used name n.counter hfew)
  refine ⟨k, hpos, hle, hbefore, hnew, ?_⟩
  unfold unique
  rw [if_pos (List.contains_iff_mem.mpr hmem), hnext]

theorem unique_of_not_mem (n : Namer) {name : Text} (hmem : name ∉ n.used) :
    n.unique name = (name, n.reserve name) := by
  unfold unique
  rw [if_neg fun h => hmem (List.contains_iff_mem.mp h)]

/-- A name comes from another one that it is made unique for. -/
def Derived (base name : Text) : Prop := name = base ∨ ∃ n, name = numbered base n

/-- The given name is the wanted one or has a number behind it, and it is kept in mind. -/
theorem unique_derived (n : Namer) (name : Text) :
    Derived name (n.unique name).1 ∧ (n.unique name).2.used = (n.unique name).1 :: n.used := by
  unfold unique
  split
  · exact ⟨.inr ⟨_, rfl⟩, rfl⟩
  · exact ⟨.inl rfl, rfl⟩

/-- The given name is new. -/
theorem unique_fresh (n : Namer) (name : Text) (hfew : n.used.length < UInt32.size) :
    (n.unique name).1 ∉ n.used := by
  by_cases hmem : name ∈ n.used
  · obtain ⟨k, -, -, -, hnew, heq⟩ := n.unique_of_mem hmem hfew
    rw [heq]
    exact hnew
  · rw [n.unique_of_not_mem hmem]
    exact hmem

end Namer

/-- What the names of the generator's own start with. -/
def ownMark : Text := "_nzsl"

/-- Does a digit stand behind an underscore? -/
def hasNumber : Text → Bool
  | a :: b :: rest => (a == Text.byte '_' && Decimal.isDigit b) || hasNumber (b :: rest)
  | _ => false

/-- What the words of the language have in common: none of them looks like a name that is made from another one. -/
def isVocabulary (w : Text) : Bool :=
  !(Text.ofString "_").isPrefixOf w && !(Text.ofString "u_").isPrefixOf w && !(ownMark.drop 1).isPrefixOf w &&
    !hasNumber w

theorem isVocabulary_of_mem_cut {cs : List Char} (hascii : cs.all (·.val < 128))
    (hall : (Text.cut (Text.byte ' ') (cs.map Text.byte)).all isVocabulary) :
    ∀ w ∈ Text.cut (Text.byte ' ') (Text.ofString (String.ofList cs)), isVocabulary w := by
  intro w hw
  rw [Text.ofString_ofList hascii] at hw
  exact List.all_eq_true.mp hall w hw

theorem isVocabulary_of_mem_reservedWords : ∀ w ∈ reservedWords, isVocabulary w := by
  unfold reservedWords
  simp only [List.forall_mem_flatMap, List.forall_mem_cons]
  repeat' apply And.intro
  all_goals first
    | exact isVocabulary_of_mem_cut (by decide) (by decide)
    | exact fun _ h => absurd h List.not_mem_nil

theorem isVocabulary_of_isReserved {name : Text} (h : isReserved name = true) : isVocabulary name :=
  isVocabulary_of_mem_reservedWords _ (List.contains_iff_mem.mp h)

/-- A word of the language starts neither with an underscore nor with `u_`, nor as the names of the generator's own do
behind their underscore, and no number stands behind an underscore in it. -/
theorem isVocabulary_iff {w : Text} : isVocabulary w ↔
    ¬ Text.ofString "_" <+: w ∧ ¬ Text.ofString "u_" <+: w ∧ ¬ ownMark.drop 1 <+: w ∧ hasNumber w = false := by
  simp only [isVocabulary, Bool.and_eq_true, Bool.not_eq_true', ← List.isPrefixOf_iff_prefix, Bool.not_eq_true,
    and_assoc]

/-- A name for an identifier of the source does not start like those of the generator's own. -/
theorem not_own_escape (identifier : Text) : ¬ ownMark <+: escape identifier := by
  unfold escape
  split
  · decide
  dsimp only
  split
  · next hreserved =>
    -- behind the underscore that is put in front stands a reserved word, or one that starts as the built-in ones do
    intro hown
    have hrest : ownMark.drop 1 <+: separateUnderscores identifier := (List.cons_prefix_cons.mp hown).2
    rcases Bool.or_eq_true_iff.mp hreserved with hword | hbuiltin
    · exact (isVocabulary_iff.mp (isVocabulary_of_isReserved hword)).2.2.1 hrest
    · have hgl : Text.ofString "gl_" <+: separateUnderscores identifier := List.isPrefixOf_iff_prefix.mp hbuiltin
      have hfirst := (List.prefix_of_prefix_length_le hgl hrest (by decide))
      revert hfirst
      decide
  · split
    · intro hown
      have hfirst := (List.cons_prefix_cons.mp hown).1
      revert hfirst
      decide
    · next hplain =>
      intro hown
      exact hplain (List.isPrefixOf_iff_prefix.mpr hown)

/-- Neither does such a name with a number behind it. -/
theorem not_own_numbered {name : Text} (h : ¬ ownMark <+: name) (n : UInt32) : ¬ ownMark <+: Namer.numbered name n := by
  intro hown
  rw [Namer.numbered_eq] at hown
  obtain ⟨b, digits, hdigits, hb, -⟩ := Text.ofNat_eq_cons n.toNat
  have hmark : ownMark = [95, 110, 122, 115, 108] := by decide
  rw [hmark] at h hown
  rw [hdigits] at hown
  -- a shorter name has the underscore where the mark has a letter, or nothing, and then a digit stands there
  match name with
  | [] =>
    obtain ⟨-, rfl, -⟩ : _ ∧ 110 = b ∧ _ := by simpa only [List.nil_append, List.cons_prefix_cons] using hown
    revert hb
    decide
  | [_] | [_, _] | [_, _, _] | [_, _, _, _] =>
    have hunderscore : Text.byte '_' = 95 := by decide
    simp [hunderscore] at hown
  | b₀ :: b₁ :: b₂ :: b₃ :: b₄ :: rest =>
    simp only [List.cons_append, List.cons_prefix_cons, List.nil_prefix, and_true] at h hown
    exact h hown

end Glsl

end Shading
