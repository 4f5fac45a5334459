import Shading.Proofs.Spirv.Growth
import Shading.Proofs.Spirv.Key
import Shading.Proofs.Token.Lexing
import Shading.Spirv.Buffer

/-! The structures and arrays in a type, and what is said about each of them under a layout. -/
namespace Shading

namespace Ty

mutual

/-- The structures and arrays in a type, each before those in it. -/
def parts : Ty → List Ty
  | .array t n => .array t n :: parts t
  | .struct r => .struct r :: memberParts r.members
  | _ => []

def memberParts : List (Text × Ty) → List Ty
  | [] => []
  | (_, t) :: members => parts t ++ memberParts members

end

variable {t u v : Ty}

mutual

theorem isSpelled_of_mem_parts : ∀ {t : Ty}, t.isSpelled → u ∈ t.parts → u.isSpelled := by
  intro t ht hu
  cases t with
  | array t n =>
    rcases List.mem_cons.mp hu with rfl | hu
    · exact ht
    · exact isSpelled_of_mem_parts (t := t) ht hu
  | struct r =>
    rcases List.mem_cons.mp hu with rfl | hu
    · exact ht
    · simp only [isSpelled, Bool.and_eq_true] at ht
      exact isSpelled_of_mem_memberParts ht.2 hu
  | _ => cases hu

theorem isSpelled_of_mem_memberParts : ∀ {members : List (Text × Ty)}, areSpelled members → u ∈ memberParts members →
    u.isSpelled := by
  intro members hmembers hu
  cases members with
  | nil => cases hu
  | cons m members =>
    simp only [areSpelled, Bool.and_eq_true] at hmembers
    rcases List.mem_append.mp hu with hu | hu
    · exact isSpelled_of_mem_parts hmembers.1.2 hu
    · exact isSpelled_of_mem_memberParts hmembers.2 hu

end

mutual

/-- Parts are structures and arrays. -/
theorem mem_parts_self : ∀ {t : Ty}, u ∈ t.parts → u ∈ u.parts := by
  intro t hu
  cases t with
  | array t n =>
    rcases List.mem_cons.mp hu with rfl | hu
    · exact List.mem_cons_self
    · exact mem_parts_self hu
  | struct r =>
    rcases List.mem_cons.mp hu with rfl | hu
    · exact List.mem_cons_self
    · exact mem_memberParts_self hu
  | _ => cases hu

theorem mem_memberParts_self : ∀ {members : List (Text × Ty)}, u ∈ memberParts members → u ∈ u.parts := by
  intro members hu
  cases members with
  | nil => cases hu
  | cons m members =>
    rcases List.mem_append.mp hu with hu | hu
    · exact mem_parts_self hu
    · exact mem_memberParts_self hu

end

mutual

/-- The parts of a part are parts. -/
theorem mem_parts_trans : ∀ {t : Ty}, u ∈ t.parts → v ∈ u.parts → v ∈ t.parts := by
  intro t hu hv
  cases t with
  | array t n =>
    rcases List.mem_cons.mp hu with rfl | hu
    · exact hv
    · exact List.mem_cons_of_mem _ (mem_parts_trans hu hv)
  | struct r =>
    rcases List.mem_cons.mp hu with rfl | hu
    · exact hv
    · exact List.mem_cons_of_mem _ (mem_memberParts_trans hu hv)
  | _ => cases hu

theorem mem_memberParts_trans : ∀ {members : List (Text × Ty)}, u ∈ memberParts members → v ∈ u.parts →
    v ∈ memberParts members := by
  intro members hu hv
  cases members with
  | nil => cases hu
  | cons m members =>
    rcases List.mem_append.mp hu with hu | hu
    · exact List.mem_append_left _ (mem_parts_trans hu hv)
    · exact List.mem_append_right _ (mem_memberParts_trans hu hv)

end

end Ty

namespace Spirv

namespace Pool

mutual

/-- Equal types have equal parts. -/
theorem keys_parts_congr : ∀ {t u : Ty}, t.same u → t.parts.map key = u.parts.map key := by
  intro t u h
  have hkey := key_eq_of_same h
  cases t with
  | array t n =>
    cases u with
    | array u m =>
      simp only [Ty.same, Bool.and_eq_true, beq_iff_eq] at h
      rw [Ty.parts, Ty.parts, List.map_cons, List.map_cons, hkey, keys_parts_congr h.2]
    | _ => cases h
  | struct r =>
    cases u with
    | struct r' =>
      simp only [Ty.same, Bool.and_eq_true, beq_iff_eq] at h
      rw [Ty.parts, Ty.parts, List.map_cons, List.map_cons, hkey, keys_memberParts_congr h.2]
    | _ => cases h
  | _ => cases u <;> first | rfl | cases h

theorem keys_memberParts_congr : ∀ {ms ns : List (Text × Ty)}, Ty.sameMembers ms ns →
    (Ty.memberParts ms).map key = (Ty.memberParts ns).map key := by
  intro ms ns h
  cases ms with
  | nil =>
    cases ns with
    | nil => rfl
    | cons => cases h
  | cons m ms =>
    cases ns with
    | nil => cases h
    | cons n ns =>
      simp only [Ty.sameMembers, Bool.and_eq_true, beq_iff_eq] at h
      rw [Ty.memberParts, Ty.memberParts, List.map_append, List.map_append, keys_parts_congr h.1.2,
        keys_memberParts_congr h.2]

end

theorem length_key_array (t : Ty) (n : UInt32) : (key t).length < (key (.array t n)).length := by
  have hprefix : 0 < (Text.ofString "array:").length := by decide
  simp only [key, List.length_append]
  omega

theorem length_key_member {m : Text × Ty} {members : List (Text × Ty)} (h : m ∈ members) :
    (key m.2).length ≤ (memberKeys members).length := by
  induction members with
  | nil => cases h
  | cons m' members ih =>
    simp only [memberKeys, List.length_append]
    rcases List.mem_cons.mp h with rfl | h
    · omega
    · have hmember := ih h
      omega

theorem length_key_struct {m : Text × Ty} {r : Record Ty} (h : m ∈ r.members) :
    (key m.2).length < (key (.struct r)).length := by
  have hprefix : 0 < (Text.ofString "struct:").length := by decide
  have hmember := length_key_member h
  simp only [key, List.length_append]
  omega

theorem length_key_pos {t : Ty} (ht : t ∈ t.parts) : 0 < (key t).length := by
  cases t with
  | array t n =>
    have hshorter := length_key_array t n
    omega
  | struct r =>
    have hprefix : 0 < (Text.ofString "struct:").length := by decide
    simp only [key, List.length_append]
    omega
  | _ => cases ht

end Pool

/-- The distance between the columns of a member, if it holds matrices. -/
def columnPlacings (l : Layout) (id member : UInt32) (t : Ty) : Except FormError (List Instruction) := do
  match t.innermost with
  | .matrix _ rows p =>
    return [⟨.opMemberDecorate, [id, member, Decoration.matrixStride, ← matrixStride l p rows]⟩]
  | _ => return []

/-- The offsets of members, and the distances between their columns. -/
def memberPlacings (l : Layout) (id : UInt32) :
    UInt32 → List ((Text × Ty) × UInt32) → Except FormError (List Instruction)
  | _, [] => return []
  | member, ((_, t), offset) :: members => do
    let columns ← columnPlacings l id member t
    let rest ← memberPlacings l id (member + 1) members
    return ⟨.opMemberDecorate, [id, member, Decoration.offset, offset]⟩ :: columns ++ rest

/-- Everything that a layout says about a structure or an array: the offsets of the members and the distances
between their columns, or the distance between elements. -/
def placings (l : Layout) (id : UInt32) : Ty → Except FormError (List Instruction)
  | .struct r => do
    let placement ← place l r
    memberPlacings l id 0 (r.members.zip placement.offsets)
  | .array t _ => return [⟨.opDecorate, [id, Decoration.arrayStride, ← arrayStride l t]⟩]
  | _ => return []

mutual

theorem isStorable_of_extent {l : Layout} : ∀ {t : Ty} {e : Extent}, extent l t = .ok e → t.isStorable := by
  intro t e h
  cases t with
  | prim p => rfl
  | vector n p => rfl
  | matrix c r p => rfl
  | array t n =>
    rw [extent] at h
    obtain ⟨element, helement, -⟩ := bind_eq_ok h
    show t.isStorable
    exact isStorable_of_extent helement
  | struct r =>
    rw [extent] at h
    obtain ⟨placement, hplacement, -⟩ := bind_eq_ok h
    exact areStorable_of_placeMembers hplacement
  | _ => cases h

theorem areStorable_of_placeMembers {l : Layout} {struct : Text} : ∀ {offset align : UInt32}
    {members : List (Text × Ty)} {placement : Placement},
    placeMembers l struct offset align members = .ok placement → Ty.areStorable members := by
  intro offset align members placement h
  cases members with
  | nil => rfl
  | cons m members =>
    rw [placeMembers] at h
    obtain ⟨e, hextent, h⟩ := bind_eq_ok h
    obtain ⟨rest, hrest, -⟩ := bind_eq_ok h
    simp only [Ty.areStorable, Bool.and_eq_true]
    exact ⟨isStorable_of_extent (mapError_ok.mp hextent), areStorable_of_placeMembers hrest⟩

end

/-- Something is said about types that can stand in a buffer only. -/
theorem isStorable_of_placings {l : Layout} {id : UInt32} {t : Ty} (ht : t ∈ t.parts) {is : List Instruction}
    (h : placings l id t = .ok is) : t.isStorable := by
  cases t with
  | array t n =>
    obtain ⟨stride, hstride, -⟩ := bind_eq_ok h
    obtain ⟨e, hextent, -⟩ := bind_eq_ok hstride
    show t.isStorable
    exact isStorable_of_extent hextent
  | struct r =>
    obtain ⟨placement, hplacement, -⟩ := bind_eq_ok h
    exact areStorable_of_placeMembers hplacement
  | _ => cases ht

theorem length_offsets {l : Layout} {struct : Text} {offset align : UInt32} {members : List (Text × Ty)}
    {placement : Placement} (h : placeMembers l struct offset align members = .ok placement) :
    placement.offsets.length = members.length := by
  induction members generalizing offset align placement with
  | nil =>
    cases h
    rfl
  | cons m members ih =>
    rw [placeMembers] at h
    obtain ⟨e, -, h⟩ := bind_eq_ok h
    obtain ⟨rest, hrest, h⟩ := bind_eq_ok h
    cases h
    simp only [List.length_cons, ih hrest]

mutual

theorem extent_congr (l : Layout) : ∀ {t u : Ty}, t.isStorable → t.same u → extent l t = extent l u := by
  intro t u ht h
  cases t with
  | array t n =>
    cases u with
    | array u m =>
      simp only [Ty.same, Bool.and_eq_true, beq_iff_eq] at h
      rw [extent, extent, h.1, extent_congr l (t := t) ht h.2]
    | _ => cases h
  | struct r =>
    cases u with
    | struct r' =>
      simp only [Ty.same, Bool.and_eq_true, beq_iff_eq] at h
      rw [extent, extent, h.1, placeMembers_congr l _ _ _ ht h.2]
    | _ => cases h
  | prim p => cases u <;> simp_all [Ty.same]
  | vector n p => cases u <;> simp_all [Ty.same]
  | matrix c r p => cases u <;> simp_all [Ty.same]
  | _ => cases ht

theorem placeMembers_congr (l : Layout) (struct : Text) : ∀ (offset align : UInt32) {ms ns : List (Text × Ty)},
    Ty.areStorable ms → Ty.sameMembers ms ns →
    placeMembers l struct offset align ms = placeMembers l struct offset align ns := by
  intro offset align ms ns hms h
  cases ms with
  | nil =>
    cases ns with
    | nil => rfl
    | cons => cases h
  | cons m ms =>
    cases ns with
    | nil => cases h
    | cons n ns =>
      simp only [Ty.areStorable, Bool.and_eq_true] at hms
      simp only [Ty.sameMembers, Bool.and_eq_true, beq_iff_eq] at h
      rw [placeMembers, placeMembers, h.1.1, extent_congr l hms.1 h.1.2]
      congr 1
      funext e
      dsimp only
      rw [placeMembers_congr l struct _ _ hms.2 h.2]

end

theorem same_innermost : ∀ {t u : Ty}, t.same u → t.innermost.same u.innermost := by
  intro t u h
  cases t with
  | array t n =>
    cases u with
    | array u m =>
      simp only [Ty.same, Bool.and_eq_true, beq_iff_eq] at h
      show t.innermost.same u.innermost
      exact same_innermost h.2
    | _ => cases h
  | _ =>
    cases u with
    | array u m => cases h
    | _ => exact h

theorem columnPlacings_congr (l : Layout) (id member : UInt32) {t u : Ty} (h : t.same u) :
    columnPlacings l id member t = columnPlacings l id member u := by
  have hinner := same_innermost h
  unfold columnPlacings
  generalize t.innermost = a at hinner
  generalize u.innermost = b at hinner
  cases a with
  | matrix c r p => cases b <;> simp_all [Ty.same]
  | _ => cases b <;> simp_all [Ty.same]

theorem memberPlacings_congr (l : Layout) (id : UInt32) : ∀ (member : UInt32) {ms ns : List (Text × Ty)}
    (offsets : List UInt32), Ty.sameMembers ms ns →
    memberPlacings l id member (ms.zip offsets) = memberPlacings l id member (ns.zip offsets) := by
  intro member ms
  induction ms generalizing member with
  | nil =>
    intro ns offsets h
    cases ns with
    | nil => rfl
    | cons => cases h
  | cons m ms ih =>
    intro ns offsets h
    cases ns with
    | nil => cases h
    | cons n ns =>
      simp only [Ty.sameMembers, Bool.and_eq_true, beq_iff_eq] at h
      cases offsets with
      | nil => rfl
      | cons offset offsets =>
        simp only [List.zip_cons_cons, memberPlacings]
        rw [columnPlacings_congr l id member h.1.2, ih (member + 1) offsets h.2]

/-- The same is said about equal types. -/
theorem placings_congr (l : Layout) (id : UInt32) {t u : Ty} (ht : t.isStorable) (h : t.same u) :
    placings l id t = placings l id u := by
  cases t with
  | array t n =>
    cases u with
    | array u m =>
      simp only [Ty.same, Bool.and_eq_true, beq_iff_eq] at h
      simp only [placings, arrayStride, extent_congr l (t := t) ht h.2]
    | _ => cases h
  | struct r =>
    cases u with
    | struct r' =>
      simp only [Ty.same, Bool.and_eq_true, beq_iff_eq] at h
      simp only [placings, place, h.1, placeMembers_congr l _ _ _ ht h.2, memberPlacings_congr l id 0 _ h.2]
    | _ => cases h
  | _ => cases u <;> first | rfl | cases h

end Spirv

end Shading
