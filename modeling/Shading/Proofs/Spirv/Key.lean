import Shading.Proofs.Literal
import Shading.Proofs.Module.Comparison
import Shading.Proofs.Wire.Code
import Shading.Spirv.Pool

/-! The texts by which types are told apart: types that can stand in a buffer, and types that can be declared, have
the same text only if they are equal, as long as no name looks like what stands between names. -/
namespace Shading

namespace Spirv.Pool

/-- What names are set apart by: colons, commas and parentheses. -/
def separators : List UInt8 := [58, 44, 40, 41]

end Spirv.Pool

namespace Ty

open Spirv.Pool

mutual

/-- Are the names of structures and of their members free of separators? Those that are written in a source
are. -/
def isSpelled : Ty → Bool
  | .array t _ => isSpelled t
  | .struct r | .uniform r | .storage r => r.name.all (!separators.contains ·) && areSpelled r.members
  | _ => true

def areSpelled : List (Text × Ty) → Bool
  | [] => true
  | (name, t) :: members => name.all (!separators.contains ·) && isSpelled t && areSpelled members

end

mutual

/-- Is the type made of scalars, vectors, matrices, arrays and structures only? -/
def isStorable : Ty → Bool
  | .prim _ | .vector .. | .matrix .. => true
  | .array t _ => isStorable t
  | .struct r => areStorable r.members
  | _ => false

def areStorable : List (Text × Ty) → Bool
  | [] => true
  | (_, t) :: members => isStorable t && areStorable members

end

mutual

/-- Is the type one that a module declares for what it is, and not for a buffer of it? -/
def isDeclarable : Ty → Bool
  | .void => true
  | .prim p | .vector _ p | .matrix _ _ p => Primitive.named.contains p
  | .array t _ => isDeclarable t
  | .struct r => areDeclarable r.members
  | .sampler d p _ => ImageDim.named.contains d && Primitive.named.contains p
  | _ => false

def areDeclarable : List (Text × Ty) → Bool
  | [] => true
  | (_, t) :: members => isDeclarable t && areDeclarable members

end

mutual

theorem isStorable_of_same : ∀ {t u : Ty}, t.same u → t.isStorable → u.isStorable := by
  intro t u h ht
  cases t with
  | array t n =>
    cases u with
    | array u m =>
      simp only [same, Bool.and_eq_true] at h
      rw [isStorable] at ht ⊢
      exact isStorable_of_same h.2 ht
    | _ => cases h
  | struct r =>
    cases u with
    | struct r' =>
      simp only [same, Bool.and_eq_true] at h
      exact areStorable_of_sameMembers h.2 ht
    | _ => cases h
  | prim | vector | matrix =>
    cases u with
    | prim | vector | matrix => rfl
    | _ => cases h
  | _ => cases ht

theorem areStorable_of_sameMembers : ∀ {ms ns : List (Text × Ty)}, sameMembers ms ns → areStorable ms →
    areStorable ns := by
  intro ms ns h hms
  cases ms with
  | nil =>
    cases ns with
    | nil => rfl
    | cons => cases h
  | cons m ms =>
    cases ns with
    | nil => cases h
    | cons n ns =>
      simp only [sameMembers, areStorable, Bool.and_eq_true] at h hms ⊢
      exact ⟨isStorable_of_same h.1.2 hms.1, areStorable_of_sameMembers h.2 hms.2⟩

end

end Ty

namespace Spirv.Pool

open Text (append_eq_append_of_kind forall_head_append ofNat_append_inj ofNat_inj ofNat_word_append_inj)

/-- What stands behind a type within the text of another: nothing, or the end of a member. -/
def Ends (s : Text) : Prop := ∀ b ∈ s.head?, b = 41

theorem ends_nil : Ends [] := by
  intro b hb
  cases hb

theorem Ends.not_isDigit {s : Text} (h : Ends s) : ∀ b ∈ s.head?, Decimal.isDigit b = false := by
  intro b hb
  rw [h b hb]
  rfl

theorem code_append_inj {p q : Primitive} {s s' : Text} (hs : Ends s) (hs' : Ends s')
    (h : Text.ofNat p.code.toNat ++ s = Text.ofNat q.code.toNat ++ s') : p = q ∧ s = s' := by
  obtain ⟨hcode, hrest⟩ := ofNat_append_inj hs.not_isDigit hs'.not_isDigit h
  have hread := congrArg Primitive.ofCode (UInt8.toNat_inj.mp hcode)
  rw [Primitive.ofCode_code, Primitive.ofCode_code] at hread
  exact ⟨hread, hrest⟩

/-- The size of an array. -/
theorem size_append_inj {m n : UInt32} {s s' : Text}
    (h : (if m = 0 then Text.ofString "runtime" else Text.ofNat m.toNat) ++ (Text.ofString ":" ++ s) =
      (if n = 0 then Text.ofString "runtime" else Text.ofNat n.toNat) ++ (Text.ofString ":" ++ s')) :
    m = n ∧ s = s' := by
  have hcolon : ∀ s : Text, ∀ b ∈ (Text.ofString ":" ++ s).head?, (b != 58) = false :=
    fun s => forall_head_append rfl (by decide)
  have hsize : ∀ n : UInt32, ∀ b ∈ (if n = 0 then Text.ofString "runtime" else Text.ofNat n.toNat),
      (b != 58) = true := by
    intro n b hb
    split at hb
    · revert b
      decide
    · have hdigit := Text.isDigit_of_mem_ofNat b hb
      rw [bne_iff_ne]
      rintro rfl
      cases hdigit
  obtain ⟨hsizes, hrest⟩ := append_eq_append_of_kind (· != 58) (hsize m) (hsize n) (hcolon s) (hcolon s') h
  refine ⟨?_, List.append_cancel_left hrest⟩
  have hword : ∀ n : UInt32, Text.ofString "runtime" ≠ Text.ofNat n.toNat := by
    intro n heq
    have hdigit := Text.isDigit_of_mem_ofNat 114 (by rw [← heq]; decide)
    cases hdigit
  by_cases hm : m = 0
  · by_cases hn : n = 0
    · rw [hm, hn]
    · rw [if_pos hm, if_neg hn] at hsizes
      exact absurd hsizes (hword n)
  · by_cases hn : n = 0
    · rw [if_neg hm, if_pos hn] at hsizes
      exact absurd hsizes.symm (hword m)
    · rw [if_neg hm, if_neg hn] at hsizes
      exact UInt32.toNat_inj.mp (ofNat_inj hsizes)

/-- A name ends at the first separator. -/
theorem name_append_inj {a a' s s' : Text} (ha : a.all (!separators.contains ·)) (ha' : a'.all (!separators.contains ·))
    (hs : ∀ b ∈ s.head?, b ∈ separators) (hs' : ∀ b ∈ s'.head?, b ∈ separators) (h : a ++ s = a' ++ s') :
    a = a' ∧ s = s' := by
  apply append_eq_append_of_kind (!separators.contains ·)
  · exact List.all_eq_true.mp ha
  · exact List.all_eq_true.mp ha'
  · intro b hb
    rw [List.contains_iff_mem.mpr (hs b hb)]
    rfl
  · intro b hb
    rw [List.contains_iff_mem.mpr (hs' b hb)]
    rfl
  · exact h

theorem head_memberKeys (members : List (Text × Ty)) {s : Text} (hs : Ends s) :
    ∀ b ∈ (memberKeys members ++ s).head?, b ∈ separators := by
  intro b hb
  cases members with
  | nil =>
    rw [memberKeys, List.nil_append] at hb
    rw [hs b hb]
    decide
  | cons m members =>
    cases hb
    decide

/-- Types that their texts tell apart: the first can stand in a buffer, or both can be declared. -/
def Told (t u : Ty) : Prop := t.isStorable ∨ t.isDeclarable ∧ u.isDeclarable

def ToldMembers (ms ns : List (Text × Ty)) : Prop := Ty.areStorable ms ∨ Ty.areDeclarable ms ∧ Ty.areDeclarable ns

theorem ToldMembers.cons {a b : Text} {t u : Ty} {ms ns : List (Text × Ty)}
    (h : ToldMembers ((a, t) :: ms) ((b, u) :: ns)) : Told t u ∧ ToldMembers ms ns := by
  simp only [ToldMembers, Ty.areStorable, Ty.areDeclarable, Bool.and_eq_true] at h
  obtain ⟨ht, hms⟩ | ⟨⟨ht, hms⟩, hu, hns⟩ := h
  · exact ⟨.inl ht, .inl hms⟩
  · exact ⟨.inr ⟨ht, hu⟩, .inr ⟨hms, hns⟩⟩

mutual

/-- Types with the same text are equal, and what stands behind them is the same. -/
theorem same_of_key_append : ∀ (t u : Ty) {s s' : Text}, Told t u → t.isSpelled → u.isSpelled → Ends s → Ends s' →
    key t ++ s = key u ++ s' → t.same u ∧ s = s'
  | .void, u, s, s', ht, _, _, _, _, h => by
    cases u with
    | void =>
      simp only [key, List.append_cancel_left_eq] at h
      exact ⟨Ty.same_refl _, h⟩
    | unknown =>
      obtain ht | ⟨-, ht⟩ := ht
      · cases ht
      · cases ht
    | _ => cases h
  | .prim p, u, s, s', _, _, _, hs, hs', h => by
    cases u with
    | prim q =>
      simp only [key, List.append_assoc, List.append_cancel_left_eq] at h
      obtain ⟨rfl, rfl⟩ := code_append_inj hs hs' h
      exact ⟨Ty.same_refl _, rfl⟩
    | _ => cases h
  | .vector n p, u, s, s', _, _, _, hs, hs', h => by
    cases u with
    | vector m q =>
      simp only [key, List.append_assoc, List.append_cancel_left_eq] at h
      obtain ⟨rfl, hscalar⟩ := ofNat_word_append_inj (forall_head_append rfl rfl) (forall_head_append rfl rfl) h
      obtain ⟨rfl, rfl⟩ := code_append_inj hs hs' (List.append_cancel_left hscalar)
      exact ⟨Ty.same_refl _, rfl⟩
    | _ => cases h
  | .matrix c r p, u, s, s', _, _, _, hs, hs', h => by
    cases u with
    | matrix d r' q =>
      simp only [key, List.append_assoc, List.append_cancel_left_eq] at h
      obtain ⟨rfl, hrows⟩ := ofNat_word_append_inj (forall_head_append rfl rfl) (forall_head_append rfl rfl) h
      obtain ⟨rfl, hscalar⟩ := ofNat_word_append_inj (forall_head_append rfl rfl) (forall_head_append rfl rfl)
        (List.append_cancel_left hrows)
      obtain ⟨rfl, rfl⟩ := code_append_inj hs hs' (List.append_cancel_left hscalar)
      exact ⟨Ty.same_refl _, rfl⟩
    | _ => cases h
  | .array t n, u, s, s', ht, hspelled, hspelled', hs, hs', h => by
    cases u with
    | array u m =>
      simp only [key, List.append_assoc, List.append_cancel_left_eq] at h
      obtain ⟨rfl, helement⟩ := size_append_inj h
      obtain ⟨hsame, hrest⟩ := same_of_key_append t u ht hspelled hspelled' hs hs' helement
      exact ⟨by simp [Ty.same, hsame], hrest⟩
    | _ => cases h
  | .struct r, u, s, s', ht, hspelled, hspelled', hs, hs', h => by
    cases u with
    | struct r' =>
      simp only [Ty.isSpelled, Bool.and_eq_true] at hspelled hspelled'
      simp only [key, List.append_assoc, List.append_cancel_left_eq] at h
      obtain ⟨hname, h⟩ := name_append_inj hspelled.1 hspelled'.1 (head_memberKeys _ hs) (head_memberKeys _ hs') h
      obtain ⟨hmembers, hrest⟩ :=
        sameMembers_of_memberKeys_append r.members r'.members ht hspelled.2 hspelled'.2 hs hs' h
      exact ⟨by simp [Ty.same, hname, hmembers], hrest⟩
    | _ => cases h
  | .sampler d p depth, u, s, s', ht, _, _, hs, hs', h => by
    cases u with
    | sampler d' q depth' =>
      simp only [key, List.append_assoc, List.append_cancel_left_eq] at h
      obtain ⟨hdim, h⟩ := ofNat_append_inj (forall_head_append rfl rfl) (forall_head_append rfl rfl) h
      obtain ⟨hcode, h⟩ := ofNat_append_inj (forall_head_append rfl rfl) (forall_head_append rfl rfl)
        (List.append_cancel_left h)
      have hdims := congrArg ImageDim.ofCode (UInt8.toNat_inj.mp hdim)
      have hprims := congrArg Primitive.ofCode (UInt8.toNat_inj.mp hcode)
      rw [ImageDim.ofCode_code, ImageDim.ofCode_code] at hdims
      rw [Primitive.ofCode_code, Primitive.ofCode_code] at hprims
      have hkinds := List.append_cancel_left h
      cases depth <;> cases depth'
      · exact ⟨by simp [Ty.same, hdims, hprims], List.append_cancel_left hkinds⟩
      · cases hkinds
      · cases hkinds
      · exact ⟨by simp [Ty.same, hdims, hprims], List.append_cancel_left hkinds⟩
    | _ => cases h
  | .unknown, _, _, _, ht, _, _, _, _, _ | .uniform _, _, _, _, ht, _, _, _, _, _
  | .storage _, _, _, _, ht, _, _, _, _, _ | .func .., _, _, _, ht, _, _, _, _, _
  | .intrinsic _, _, _, _, ht, _, _, _, _, _ => by
    obtain ht | ⟨ht, -⟩ := ht
    · cases ht
    · cases ht

theorem sameMembers_of_memberKeys_append : ∀ (ms ns : List (Text × Ty)) {s s' : Text}, ToldMembers ms ns →
    Ty.areSpelled ms → Ty.areSpelled ns → Ends s → Ends s' → memberKeys ms ++ s = memberKeys ns ++ s' →
    Ty.sameMembers ms ns ∧ s = s'
  | [], ns, s, s', _, _, _, hs, _, h => by
    cases ns with
    | nil => exact ⟨rfl, h⟩
    | cons n ns =>
      have hhead := hs 58 (by rw [memberKeys, List.nil_append] at h; rw [h]; rfl)
      cases hhead
  | (a, t) :: ms, ns, s, s', ht, hspelled, hspelled', hs, hs', h => by
    cases ns with
    | nil =>
      have hhead := hs' 58 (by rw [show memberKeys [] = [] from rfl, List.nil_append] at h; rw [← h]; rfl)
      cases hhead
    | cons n ns =>
      obtain ⟨ht, hms⟩ := ht.cons
      simp only [Ty.areSpelled, Bool.and_eq_true] at hspelled hspelled'
      simp only [memberKeys, List.append_assoc, List.append_cancel_left_eq] at h
      obtain ⟨hname, h⟩ := name_append_inj hspelled.1.1 hspelled'.1.1 (forall_head_append rfl (by decide))
        (forall_head_append rfl (by decide)) h
      obtain ⟨hsame, h⟩ := same_of_key_append t n.2 ht hspelled.1.2 hspelled'.1.2 (forall_head_append rfl rfl)
        (forall_head_append rfl rfl) (List.append_cancel_left h)
      obtain ⟨hmembers, hrest⟩ := sameMembers_of_memberKeys_append ms ns hms hspelled.2 hspelled'.2 hs hs'
        (List.append_cancel_left h)
      exact ⟨by simp [Ty.sameMembers, hname, hsame, hmembers], hrest⟩

end

theorem same_of_told {t u : Ty} (htold : Told t u) (hspelled : t.isSpelled) (hspelled' : u.isSpelled)
    (h : key t = key u) : t.same u := by
  have happend : key t ++ [] = key u ++ [] := by rw [h]
  exact (same_of_key_append t u htold hspelled hspelled' ends_nil ends_nil happend).1

/-- Types that can stand in a buffer and have the same text are equal. -/
theorem same_of_key_eq {t u : Ty} (ht : t.isStorable) (hspelled : t.isSpelled) (hspelled' : u.isSpelled)
    (h : key t = key u) : t.same u ∧ u.isStorable := by
  have hsame := same_of_told (.inl ht) hspelled hspelled' h
  exact ⟨hsame, Ty.isStorable_of_same hsame ht⟩

-- with separators in a name, a structure with a member and one without have the same text
example : key (.struct ⟨0, "A", [("x", .prim .f32)]⟩) = key (.struct ⟨0, "A:m(x,scalar:3)", []⟩) := by decide

mutual

theorem key_eq_of_same : ∀ {t u : Ty}, t.same u → key t = key u := by
  intro t u h
  cases t with
  | array t n =>
    cases u with
    | array u m =>
      simp only [Ty.same, Bool.and_eq_true, beq_iff_eq] at h
      rw [key, key, h.1, key_eq_of_same h.2]
    | _ => cases h
  | struct r =>
    cases u with
    | struct r' =>
      simp only [Ty.same, Bool.and_eq_true, beq_iff_eq] at h
      rw [key, key, h.1, memberKeys_eq_of_sameMembers h.2]
    | _ => cases h
  | _ =>
    cases u with
    | _ => simp_all [Ty.same, key]

theorem memberKeys_eq_of_sameMembers : ∀ {ms ns : List (Text × Ty)}, Ty.sameMembers ms ns →
    memberKeys ms = memberKeys ns := by
  intro ms ns h
  cases ms with
  | nil =>
    cases ns with
    | nil => rfl
    | cons => cases h
  | cons m ms =>
    cases ns with
    | nil => cases h
    | cons n ns =>
      simp only [Ty.sameMembers, Bool.and_eq_true, beq_iff_eq] at h
      rw [memberKeys, memberKeys, h.1.1, key_eq_of_same h.1.2, memberKeys_eq_of_sameMembers h.2]

end

/-- Types that can be declared have the same text if and only if they are equal. -/
theorem key_eq_iff_same {t u : Ty} (ht : t.isDeclarable) (hu : u.isDeclarable) (hspelled : t.isSpelled)
    (hspelled' : u.isSpelled) : key t = key u ↔ t.same u :=
  ⟨same_of_told (.inr ⟨ht, hu⟩) hspelled hspelled', key_eq_of_same⟩

end Spirv.Pool

end Shading
