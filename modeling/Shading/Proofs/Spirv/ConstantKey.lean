import Shading.Proofs.Spirv.Key
import Shading.Proofs.Value.Text

/-! The texts by which constants are told apart: constants in which nothing is left out have the same text if and only
if they are equal. -/
namespace Shading

namespace Text

theorem join_cons (sep t : Text) (ts : List Text) : join sep (t :: ts) = t ++ ts.flatMap (sep ++ ·) := by
  induction ts generalizing t with
  | nil => exact (List.append_nil t).symm
  | cons u us ih =>
    show t ++ (sep ++ join sep (u :: us)) = _
    rw [ih u, List.flatMap_cons, List.append_assoc]

/-- A digit to the base of sixteen. -/
theorem digit_of_lt : ∀ d : Nat, d < 16 → Value.isInner (byte d.digitChar) ∧
    ∀ e : Nat, e < 16 → byte d.digitChar = byte e.digitChar → d = e := by
  decide

/-- Numbers with the same digits to the base of sixteen are the same. -/
theorem digits_inj {m n : Nat} (h : (Nat.toDigits 16 m).map byte = (Nat.toDigits 16 n).map byte) : m = n := by
  induction m using Nat.strongRecOn generalizing n with
  | ind m ih =>
    have hback : ∀ k : Nat, (Nat.toDigits 16 k).map byte ≠ [] := fun k => by simp [Nat.toDigits_ne_nil]
    have hlast : ∀ k : Nat, k % 16 < 16 := fun k => Nat.mod_lt k (by decide)
    rw [Nat.toDigits_eq_if (by decide), Nat.toDigits_eq_if (b := 16) (n := n) (by decide)] at h
    split at h <;> split at h
    case isTrue.isTrue hm hn => exact (digit_of_lt m hm).2 n hn (List.cons.inj h).1
    case isTrue.isFalse hm hn =>
      rw [List.map_append] at h
      exact absurd (List.append_eq_singleton_iff.mp h.symm) (by simp [Nat.toDigits_ne_nil])
    case isFalse.isTrue hm hn =>
      rw [List.map_append] at h
      exact absurd (List.append_eq_singleton_iff.mp h) (by simp [Nat.toDigits_ne_nil])
    case isFalse.isFalse hm hn =>
      rw [List.map_append, List.map_append] at h
      obtain ⟨hfront, hend⟩ := List.append_inj' h rfl
      have hquot := ih (m / 16) (by omega) hfront
      have hrem := (digit_of_lt _ (hlast m)).2 _ (hlast n) (List.cons.inj hend).1
      omega

theorem hex_inj {m n : Nat} (h : hex 0 m = hex 0 n) : m = n := by
  have hplain : ∀ k, hex 0 k = (Nat.toDigits 16 k).map byte := fun k => by simp [hex, times]
  rw [hplain, hplain] at h
  exact digits_inj h

theorem isInner_hex (n : Nat) : ∀ b ∈ hex 0 n, Value.isInner b := by
  have hdigits : ∀ b ∈ (Nat.toDigits 16 n).map byte, Value.isInner b := by
    induction n using Nat.strongRecOn with
    | ind n ih =>
      rw [Nat.toDigits_eq_if (by decide)]
      split
      case isTrue hlt =>
        rw [List.map_singleton, List.forall_mem_singleton]
        exact (digit_of_lt n hlt).1
      case isFalse hle =>
        rw [List.map_append, List.forall_mem_append, List.map_singleton, List.forall_mem_singleton]
        exact ⟨ih (n / 16) (by omega), (digit_of_lt (n % 16) (Nat.mod_lt n (by decide))).1⟩
  simpa [hex, times] using hdigits

end Text

namespace Value

mutual

/-- Is nothing left out in the value? -/
def isComplete : Value → Bool
  | .absent => false
  | .vector cs => areComplete cs
  | .matrix cols => columnsAreComplete cols
  | _ => true

def areComplete : List Value → Bool
  | [] => true
  | v :: vs => isComplete v && areComplete vs

def columnsAreComplete : List (List Value) → Bool
  | [] => true
  | c :: cs => areComplete c && columnsAreComplete cs

end

theorem areComplete_iff {vs : List Value} : areComplete vs ↔ ∀ v ∈ vs, v.isComplete := by
  induction vs with
  | nil => simp [areComplete]
  | cons v vs ih => simp [areComplete, ih]

theorem columnsAreComplete_iff {cols : List (List Value)} : columnsAreComplete cols ↔ ∀ c ∈ cols, areComplete c := by
  induction cols with
  | nil => simp [columnsAreComplete]
  | cons c cols ih => simp [columnsAreComplete, ih]

theorem sameList_iff_forall₂ {vs ws : List Value} : sameList vs ws ↔ List.Forall₂ (fun v w => v.same w) vs ws := by
  induction vs generalizing ws with
  | nil => cases ws <;> simp [sameList]
  | cons v vs ih => cases ws <;> simp [sameList, ih]

theorem sameColumns_iff_forall₂ {cols cols' : List (List Value)} :
    sameColumns cols cols' ↔ List.Forall₂ (fun c c' => sameList c c') cols cols' := by
  induction cols generalizing cols' with
  | nil => cases cols' <;> simp [sameColumns]
  | cons c cols ih => cases cols' <;> simp [sameColumns, ih]

end Value

namespace Spirv.Pool

open Value (Delimited isInner areComplete columnsAreComplete sameList sameColumns)

theorem constantKeys_eq_map (vs : List Value) : constantKeys vs = vs.map constantKey := by
  induction vs with
  | nil => rfl
  | cons v vs ih => rw [constantKeys, ih, List.map_cons]

theorem columnKeys_eq_map (cols : List (List Value)) : columnKeys cols = cols.map fun c => constantKey (.vector c) := by
  induction cols with
  | nil => rfl
  | cons c cols ih => rw [columnKeys, ih, List.map_cons, constantKey]

section

variable {α : Type} {f : α → Text} {R : α → α → Prop} {as bs : List α} {s s' : Text}

theorem delimited_tail (ts : List Text) (s : Text) : Delimited (ts.flatMap (Text.ofString "," ++ ·) ++ (")" ++ s)) := by
  intro b hb
  cases ts with
  | nil =>
    cases hb
    exact .inr rfl
  | cons t ts =>
    cases hb
    exact .inl rfl

theorem forall₂_of_tails
    (hf : ∀ a ∈ as, ∀ b ∈ bs, ∀ t t', Delimited t → Delimited t' → f a ++ t = f b ++ t' → R a b ∧ t = t')
    (h : (as.map f).flatMap (Text.ofString "," ++ ·) ++ (Text.ofString ")" ++ s) =
      (bs.map f).flatMap (Text.ofString "," ++ ·) ++ (Text.ofString ")" ++ s')) :
    List.Forall₂ R as bs ∧ s = s' := by
  induction as generalizing bs with
  | nil =>
    cases bs with
    | nil => exact ⟨.nil, List.append_cancel_left h⟩
    | cons b bs => cases h
  | cons a as ih =>
    cases bs with
    | nil => cases h
    | cons b bs =>
      simp only [List.map_cons, List.flatMap_cons, List.append_assoc, List.append_cancel_left_eq] at h
      obtain ⟨hfirst, h⟩ := hf a List.mem_cons_self b List.mem_cons_self _ _ (delimited_tail _ _) (delimited_tail _ _) h
      obtain ⟨hrest, hend⟩ :=
        ih (fun a ha b hb => hf a (List.mem_cons_of_mem _ ha) b (List.mem_cons_of_mem _ hb)) h
      exact ⟨.cons hfirst hrest, hend⟩

/-- Parts that are told apart up to a delimiter, and that do not start with one, are told apart in a list too. -/
theorem forall₂_of_join
    (hf : ∀ a ∈ as, ∀ b ∈ bs, ∀ t t', Delimited t → Delimited t' → f a ++ t = f b ++ t' → R a b ∧ t = t')
    (has : ∀ a ∈ as, ∃ c t, f a = c :: t ∧ c ≠ 41) (hbs : ∀ b ∈ bs, ∃ c t, f b = c :: t ∧ c ≠ 41)
    (h : Text.join "," (as.map f) ++ (Text.ofString ")" ++ s) = Text.join "," (bs.map f) ++ (Text.ofString ")" ++ s')) :
    List.Forall₂ R as bs ∧ s = s' := by
  cases as with
  | nil =>
    cases bs with
    | nil => exact ⟨.nil, List.append_cancel_left h⟩
    | cons b bs =>
      obtain ⟨c, t, hb, hc⟩ := hbs b List.mem_cons_self
      rw [List.map_cons, Text.join_cons, hb] at h
      exact absurd (List.cons.inj h).1.symm hc
  | cons a as =>
    cases bs with
    | nil =>
      obtain ⟨c, t, ha, hc⟩ := has a List.mem_cons_self
      rw [List.map_cons, Text.join_cons, ha] at h
      exact absurd (List.cons.inj h).1 hc
    | cons b bs =>
      apply forall₂_of_tails hf
      rw [List.map_cons, List.map_cons, Text.join_cons, Text.join_cons] at h
      rw [List.map_cons, List.map_cons, List.flatMap_cons, List.flatMap_cons]
      have hcomma := congrArg (Text.ofString "," ++ ·) h
      simpa only [List.append_assoc] using hcomma

end

/-- Is a constant told from those in which nothing is left out by its text up to a delimiter? -/
def IsTold (v : Value) : Prop :=
  ∀ w s s', w.isComplete → Delimited s → Delimited s' → constantKey v ++ s = constantKey w ++ s' → v.same w ∧ s = s'

/-- The text of a constant starts with no delimiter. -/
theorem constantKey_eq_cons {v : Value} (h : v.isComplete) : ∃ c t, constantKey v = c :: t ∧ c ≠ 41 := by
  cases v with
  | absent => cases h
  | _ => exact ⟨_, _, rfl, by decide⟩

theorem sameList_of_keys {vs ws : List Value} {s s' : Text} (hvs : areComplete vs) (hws : areComplete ws)
    (htold : ∀ v ∈ vs, IsTold v)
    (h : Text.join "," (constantKeys vs) ++ (Text.ofString ")" ++ s) =
      Text.join "," (constantKeys ws) ++ (Text.ofString ")" ++ s')) : sameList vs ws ∧ s = s' := by
  rw [Value.areComplete_iff] at hvs hws
  rw [constantKeys_eq_map, constantKeys_eq_map] at h
  rw [Value.sameList_iff_forall₂]
  exact forall₂_of_join (fun v hv w hw t t' => htold v hv w t t' (hws w hw))
    (fun v hv => constantKey_eq_cons (hvs v hv)) (fun w hw => constantKey_eq_cons (hws w hw)) h

theorem scalar_append_inj {p q : Primitive} {a b : Text}
    (h : key (.prim p) ++ (Text.ofString "=" ++ a) = key (.prim q) ++ (Text.ofString "=" ++ b)) : p = q ∧ a = b := by
  simp only [key, List.append_assoc, List.append_cancel_left_eq] at h
  obtain ⟨hcode, hrest⟩ := Text.ofNat_append_inj (Text.forall_head_append rfl rfl) (Text.forall_head_append rfl rfl) h
  have hread := congrArg Primitive.ofCode (UInt8.toNat_inj.mp hcode)
  rw [Primitive.ofCode_code, Primitive.ofCode_code] at hread
  exact ⟨hread, List.append_cancel_left hrest⟩

/-- The text of a truth value or of a whole number. -/
theorem constantKey_of_scalar {p : Primitive} {v : Value} (h : Value.IsScalar ∅ ∅ p v) :
    constantKey v = key (.prim p) ++ (Text.ofString "=" ++ v.text) := by
  cases h with
  | bool | i32 | u32 => exact List.append_assoc _ _ _
  | f32 h | f64 h => cases h

theorem isTold_of_scalar {p : Primitive} {v : Value} (hv : Value.IsScalar ∅ ∅ p v) : IsTold v := by
  intro w s s' hw hs hs' h
  rw [constantKey_of_scalar hv, List.append_assoc, List.append_assoc] at h
  have hscalar : ∀ {q}, Value.IsScalar ∅ ∅ q w → v.same w ∧ s = s' := by
    intro q hw
    rw [constantKey_of_scalar hw, List.append_assoc, List.append_assoc] at h
    obtain ⟨rfl, htext⟩ := scalar_append_inj h
    obtain ⟨rfl, hrest⟩ := hv.append_inj (Set.injOn_empty _) (Set.injOn_empty _) hw hs hs' htext
    exact ⟨Value.same_refl v, hrest⟩
  cases w with
  | absent => cases hw
  | bool b => exact hscalar (.bool b)
  | i32 n => exact hscalar (.i32 n)
  | u32 n => exact hscalar (.u32 n)
  | _ => cases h

theorem hex_append_inj {m n : Nat} {s s' : Text} (hs : Delimited s) (hs' : Delimited s')
    (h : Text.hex 0 m ++ s = Text.hex 0 n ++ s') : m = n ∧ s = s' := by
  obtain ⟨hdigits, hrest⟩ := Value.append_inj_of_isInner (Text.isInner_hex m) (Text.isInner_hex n) hs hs' h
  exact ⟨Text.hex_inj hdigits, hrest⟩

mutual

theorem isTold : ∀ v : Value, v.isComplete → IsTold v
  | .absent, hv => by cases hv
  | .bool b, _ => isTold_of_scalar (.bool b)
  | .i32 n, _ => isTold_of_scalar (.i32 n)
  | .u32 n, _ => isTold_of_scalar (.u32 n)
  | .f32 x, _ => by
    intro w s s' hw hs hs' h
    cases w with
    | f32 y =>
      simp only [constantKey, List.append_assoc, List.append_cancel_left_eq] at h
      obtain ⟨hbits, hrest⟩ := hex_append_inj hs hs' h
      have hxy : x = y := congrArg Single.mk (UInt32.toNat_inj.mp hbits)
      rw [hxy]
      exact ⟨Value.same_refl _, hrest⟩
    | absent => cases hw
    | _ => cases h
  | .f64 x, _ => by
    intro w s s' hw hs hs' h
    cases w with
    | f64 y =>
      simp only [constantKey, List.append_assoc, List.append_cancel_left_eq] at h
      obtain ⟨hbits, hrest⟩ := hex_append_inj hs hs' h
      have hxy : x = y := congrArg Double.mk (UInt64.toNat_inj.mp hbits)
      rw [hxy]
      exact ⟨Value.same_refl _, hrest⟩
    | absent => cases hw
    | _ => cases h
  | .vector cs, hcs => by
    intro w s s' hw hs hs' h
    cases w with
    | vector ds =>
      simp only [constantKey, List.append_assoc, List.append_cancel_left_eq] at h
      exact sameList_of_keys hcs hw (areTold cs hcs) h
    | absent => cases hw
    | _ => cases h
  | .matrix cols, hcols => by
    intro w s s' hw hs hs' h
    cases w with
    | matrix cols' =>
      simp only [constantKey, columnKeys_eq_map, List.append_assoc, List.append_cancel_left_eq] at h
      simp only [Value.isComplete, Value.columnsAreComplete_iff] at hw
      have hcolumns := Value.columnsAreComplete_iff.mp hcols
      have hhead : ∀ c : List Value, ∃ b t, constantKey (.vector c) = b :: t ∧ b ≠ 41 := fun c => ⟨_, _, rfl, by decide⟩
      rw [Value.same, Value.sameColumns_iff_forall₂]
      refine forall₂_of_join ?_ (fun c _ => hhead c) (fun c _ => hhead c) h
      intro c hc c' hc' t t' _ _ h
      simp only [constantKey, List.append_assoc, List.append_cancel_left_eq] at h
      exact sameList_of_keys (hcolumns c hc) (hw c' hc') (columnsAreTold cols hcols c hc) h
    | absent => cases hw
    | _ => cases h

theorem areTold : ∀ vs : List Value, areComplete vs → ∀ v ∈ vs, IsTold v
  | [], _ => List.forall_mem_nil _
  | v :: vs, h => by
    simp only [areComplete, Bool.and_eq_true] at h
    exact List.forall_mem_cons.mpr ⟨isTold v h.1, areTold vs h.2⟩

theorem columnsAreTold : ∀ cols : List (List Value), columnsAreComplete cols → ∀ c ∈ cols, ∀ v ∈ c, IsTold v
  | [], _ => List.forall_mem_nil _
  | c :: cols, h => by
    simp only [columnsAreComplete, Bool.and_eq_true] at h
    exact List.forall_mem_cons.mpr ⟨areTold c h.1, columnsAreTold cols h.2⟩

end

mutual

theorem constantKey_eq_of_same : ∀ {v w : Value}, v.same w → constantKey v = constantKey w := by
  intro v w h
  cases v with
  | vector cs =>
    cases w with
    | vector ds => rw [constantKey, constantKey, constantKeys_eq_of_same h]
    | _ => cases h
  | matrix cols =>
    cases w with
    | matrix cols' => rw [constantKey, constantKey, columnKeys_eq_of_same h]
    | _ => cases h
  | _ =>
    cases w with
    | _ => simp_all [Value.same]

theorem constantKeys_eq_of_same : ∀ {vs ws : List Value}, sameList vs ws → constantKeys vs = constantKeys ws := by
  intro vs ws h
  cases vs with
  | nil =>
    cases ws with
    | nil => rfl
    | cons => cases h
  | cons v vs =>
    cases ws with
    | nil => cases h
    | cons w ws =>
      simp only [sameList, Bool.and_eq_true] at h
      rw [constantKeys, constantKeys, constantKey_eq_of_same h.1, constantKeys_eq_of_same h.2]

theorem columnKeys_eq_of_same : ∀ {cols cols' : List (List Value)}, sameColumns cols cols' →
    columnKeys cols = columnKeys cols' := by
  intro cols cols' h
  cases cols with
  | nil =>
    cases cols' with
    | nil => rfl
    | cons => cases h
  | cons c cols =>
    cases cols' with
    | nil => cases h
    | cons c' cols' =>
      simp only [sameColumns, Bool.and_eq_true] at h
      rw [columnKeys, columnKeys, constantKeys_eq_of_same h.1, columnKeys_eq_of_same h.2]

end

/-- Constants in which nothing is left out have the same text if and only if they are equal. -/
theorem constantKey_eq_iff_same {v w : Value} (hv : v.isComplete) (hw : w.isComplete) :
    constantKey v = constantKey w ↔ v.same w := by
  refine ⟨fun h => ?_, constantKey_eq_of_same⟩
  have happend : constantKey v ++ [] = constantKey w ++ [] := by rw [h]
  exact (isTold v hv w [] [] hw nofun nofun happend).1

-- a component that is left out has no text
example : constantKey (.vector [.absent]) = constantKey (.vector []) := by decide

end Spirv.Pool

end Shading
