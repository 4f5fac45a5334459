import Mathlib.Data.List.Forall2
import Mathlib.Order.Bounds.Basic
import Mathlib.Tactic.IntervalCases
import Shading.Proofs.Spirv.Part

/-! The places of the parts of a buffer against the same computation over numbers without a bound. Alignments are
powers of two, which divide 2^32, so that places and sizes are those of the other computation modulo 2^32. If the whole
takes less than 2^32 bytes, they are the same, and they are the ones that the rules of the layout ask for. -/
namespace Shading

/-- Can numbers of that type be stored in a buffer? -/
def Primitive.isStored : Primitive → Bool
  | .i32 | .u32 | .f32 | .f64 => true
  | _ => false

namespace Ty

mutual

/-- Can values of the type be stored in a buffer? -/
def isStored : Ty → Bool
  | .prim p | .vector _ p | .matrix _ _ p => p.isStored
  | .array t _ => isStored t
  | .struct r => areStored r.members
  | _ => false

def areStored : List (Text × Ty) → Bool
  | [] => true
  | (_, t) :: members => isStored t && areStored members

end

mutual

/-- A type and the types of the elements and members in it. -/
def inside : Ty → List Ty
  | .array t n => .array t n :: inside t
  | .struct r => .struct r :: membersInside r.members
  | t => [t]

def membersInside : List (Text × Ty) → List Ty
  | [] => []
  | (_, t) :: members => inside t ++ membersInside members

end

/-- Is it an array, a structure or a matrix? -/
def isCompound : Ty → Bool
  | .array .. | .struct _ | .matrix .. => true
  | _ => false

end Ty

namespace Spirv

/-- The least multiple of a number from another one on. -/
def roundUp (n a : Nat) : Nat := (n + a - 1) / a * a

section Multiples

variable {n m a b : Nat}

theorem dvd_roundUp (n a : Nat) : a ∣ roundUp n a := Nat.dvd_mul_left a _

theorem le_roundUp (n : Nat) (ha : 0 < a) : n ≤ roundUp n a := by
  have hquotient := Nat.div_add_mod (n + a - 1) a
  have hrest := Nat.mod_lt (n + a - 1) ha
  rw [Nat.mul_comm] at hquotient
  unfold roundUp
  omega

theorem roundUp_le (hm : a ∣ m) (h : n ≤ m) : roundUp n a ≤ m := by
  obtain ⟨q, rfl⟩ := hm
  rcases Nat.eq_zero_or_pos a with rfl | ha
  · simp [roundUp]
  have hlt : n + a - 1 < (q + 1) * a := by
    rw [Nat.succ_mul, Nat.mul_comm q]
    omega
  have hquotient : (n + a - 1) / a ≤ q := Nat.le_of_lt_succ ((Nat.div_lt_iff_lt_mul ha).mpr hlt)
  rw [Nat.mul_comm a]
  exact Nat.mul_le_mul_right a hquotient

theorem isLeast_roundUp (n : Nat) (ha : 0 < a) : IsLeast {k | n ≤ k ∧ a ∣ k} (roundUp n a) :=
  ⟨⟨le_roundUp n ha, dvd_roundUp n a⟩, fun _ hk => roundUp_le hk.2 hk.1⟩

/-- The alignments that occur: the powers of two up to 32. -/
def IsAlignment (a : Nat) : Prop := ∃ k ≤ 5, a = 2 ^ k

namespace IsAlignment

theorem pos (h : IsAlignment a) : 0 < a := by
  obtain ⟨k, -, rfl⟩ := h
  exact Nat.two_pow_pos k

theorem dvd_of_le (ha : IsAlignment a) (hb : IsAlignment b) (h : a ≤ b) : a ∣ b := by
  obtain ⟨i, -, rfl⟩ := ha
  obtain ⟨j, -, rfl⟩ := hb
  exact Nat.pow_dvd_pow 2 ((Nat.pow_le_pow_iff_right (by decide)).mp h)

theorem join (ha : IsAlignment a) (hb : IsAlignment b) : IsAlignment (max a b) := by
  rcases Nat.le_total a b with h | h
  · rwa [Nat.max_eq_right h]
  · rwa [Nat.max_eq_left h]

theorem dvd_max_left (ha : IsAlignment a) (hb : IsAlignment b) : a ∣ max a b :=
  ha.dvd_of_le (ha.join hb) (Nat.le_max_left a b)

theorem dvd_max_right (ha : IsAlignment a) (hb : IsAlignment b) : b ∣ max a b :=
  hb.dvd_of_le (ha.join hb) (Nat.le_max_right a b)

end IsAlignment

theorem IsAlignment.dvd_two_pow (h : IsAlignment a) : a ∣ 2 ^ 32 := by
  obtain ⟨k, hk, rfl⟩ := h
  exact Nat.pow_dvd_pow 2 (by omega)

/-- The number modulo 2^32 decides about its multiple modulo 2^32. -/
theorem alignUp_toNat {offset align : UInt32} (ha : IsAlignment align.toNat) (hn : offset.toNat = n % 2 ^ 32) :
    (alignUp offset align).toNat = roundUp n align.toNat % 2 ^ 32 := by
  have hpos := ha.pos
  have hsum : (offset + align - 1).toNat = (n + align.toNat - 1) % 2 ^ 32 := by
    rw [UInt32.toNat_sub, UInt32.toNat_add, UInt32.toNat_one, hn]
    omega
  obtain ⟨q, hq⟩ := ha.dvd_two_pow
  rw [alignUp, UInt32.toNat_mul, UInt32.toNat_div, hsum, roundUp, hq, Nat.mod_mul_right_div_self,
    Nat.mul_comm _ align.toNat, Nat.mul_comm _ align.toNat, Nat.mul_mod_mul_left, Nat.mul_mod_mul_left, Nat.mod_mod]

end Multiples

/-- How much room a value takes, and of what number its offset is a multiple. -/
@[ext]
structure Room where
  align : Nat
  size : Nat

/-- The places of the members of a structure, and the room that the whole takes. -/
@[ext]
structure Plan where
  offsets : List Nat
  room : Room

/-- What is left of a size in 32 bits. -/
def Room.wrapped (r : Room) : Room := ⟨r.align, r.size % 2 ^ 32⟩

/-- What is left of offsets and a size in 32 bits. -/
def Plan.wrapped (p : Plan) : Plan := ⟨p.offsets.map (· % 2 ^ 32), p.room.wrapped⟩

def Extent.room (e : Extent) : Room := ⟨e.align.toNat, e.size.toNat⟩

def Placement.plan (p : Placement) : Plan := ⟨p.offsets.map UInt32.toNat, p.extent.room⟩

namespace Room

variable {l : Layout} {a : Nat}

/-- The alignment of an array, a structure or the column of a matrix. -/
def compound (l : Layout) (align : Nat) : Nat := if l = .std140 then roundUp align 16 else align

def scalar : Primitive → Nat
  | .f64 => 8
  | _ => 4

def vector (p : Primitive) (count : UInt32) : Room :=
  if count = 2 then ⟨scalar p * 2, scalar p * 2⟩
  else if count = 3 then ⟨scalar p * 4, scalar p * 3⟩
  else ⟨scalar p * 4, scalar p * 4⟩

/-- The room of an array whose elements take some room. -/
def array (l : Layout) (element : Room) (length : UInt32) : Room :=
  let align := compound l element.align
  let stride := roundUp element.size align
  ⟨align, if length = 0 then stride else stride * length.toNat⟩

mutual

/-- The room that a value takes. -/
def ofType (l : Layout) : Ty → Room
  | .prim p => ⟨scalar p, scalar p⟩
  | .vector n p => vector p n
  | .matrix c r p => ⟨compound l (vector p r).align, compound l (vector p r).align * c.toNat⟩
  | .array t n => array l (ofType l t) n
  | .struct r => (ofMembers l 0 1 r.members).room
  | _ => ⟨1, 0⟩

/-- The places of members from an offset on, after others with a greatest alignment. -/
def ofMembers (l : Layout) (offset align : Nat) : List (Text × Ty) → Plan
  | [] => ⟨[], compound l align, roundUp offset (compound l align)⟩
  | (_, t) :: members =>
    let place := roundUp offset (ofType l t).align
    let rest := ofMembers l (place + (ofType l t).size) (max align (ofType l t).align) members
    { rest with offsets := place :: rest.offsets }

end

theorem isAlignment_compound (l : Layout) (h : IsAlignment a) : IsAlignment (compound l a) := by
  obtain ⟨k, hk, rfl⟩ := h
  unfold compound
  split
  · interval_cases k
    all_goals first | exact ⟨4, by decide, rfl⟩ | exact ⟨5, by decide, rfl⟩
  · exact ⟨k, hk, rfl⟩

theorem dvd_compound (l : Layout) (h : IsAlignment a) : a ∣ compound l a := by
  apply h.dvd_of_le (isAlignment_compound l h)
  unfold compound
  split
  · exact le_roundUp a (by decide)
  · exact Nat.le_refl a

theorem dvd_compound_std140 (a : Nat) : 16 ∣ compound .std140 a := dvd_roundUp a 16

theorem isAlignment_vector (p : Primitive) (n : UInt32) : IsAlignment (vector p n).align := by
  have hscalar : scalar p = 4 ∨ scalar p = 8 := by cases p <;> simp [scalar]
  unfold vector
  rcases hscalar with h | h <;> rw [h] <;> split
  · exact ⟨3, by decide, rfl⟩
  · split <;> exact ⟨4, by decide, rfl⟩
  · exact ⟨4, by decide, rfl⟩
  · split <;> exact ⟨5, by decide, rfl⟩

mutual

theorem isAlignment_ofType (l : Layout) : ∀ t : Ty, IsAlignment (ofType l t).align := by
  intro t
  cases t with
  | prim p => cases p <;> first | exact ⟨2, by decide, rfl⟩ | exact ⟨3, by decide, rfl⟩
  | vector n p => exact isAlignment_vector p n
  | matrix c r p => exact isAlignment_compound l (isAlignment_vector p r)
  | array t n => exact isAlignment_compound l (isAlignment_ofType l t)
  | struct r => exact isAlignment_ofMembers l r.members 0 ⟨0, by decide, rfl⟩
  | _ => exact ⟨0, by decide, rfl⟩

theorem isAlignment_ofMembers (l : Layout) : ∀ (members : List (Text × Ty)) (offset : Nat) {align : Nat},
    IsAlignment align → IsAlignment (ofMembers l offset align members).room.align := by
  intro members offset align h
  cases members with
  | nil => exact isAlignment_compound l h
  | cons m members => exact isAlignment_ofMembers l members _ (h.join (isAlignment_ofType l m.2))

end

/-- Later members only make the alignment of a structure greater. -/
theorem dvd_ofMembers (l : Layout) (members : List (Text × Ty)) (offset : Nat) {align : Nat} (h : IsAlignment align) :
    align ∣ (ofMembers l offset align members).room.align := by
  induction members generalizing offset align with
  | nil => exact dvd_compound l h
  | cons m members ih =>
    have hmember := isAlignment_ofType l m.2
    exact Nat.dvd_trans (h.dvd_max_left hmember) (ih _ (h.join hmember))

/-- The alignment of a structure is a multiple of that of each member. -/
theorem align_dvd_ofMembers (l : Layout) {members : List (Text × Ty)} {m : Text × Ty} (hm : m ∈ members)
    (offset : Nat) {align : Nat} (h : IsAlignment align) :
    (ofType l m.2).align ∣ (ofMembers l offset align members).room.align := by
  induction members generalizing offset align with
  | nil => cases hm
  | cons m' members ih =>
    have hmember := isAlignment_ofType l m'.2
    rcases List.mem_cons.mp hm with rfl | hm
    · exact Nat.dvd_trans (h.dvd_max_right hmember) (dvd_ofMembers l members _ (h.join hmember))
    · exact ih hm _ (h.join hmember)

theorem sixteen_dvd_ofMembers (members : List (Text × Ty)) (offset align : Nat) :
    16 ∣ (ofMembers .std140 offset align members).room.align := by
  induction members generalizing offset align with
  | nil => exact dvd_compound_std140 align
  | cons m members ih => exact ih _ _

theorem align_dvd_size (l : Layout) (members : List (Text × Ty)) (offset align : Nat) :
    (ofMembers l offset align members).room.align ∣ (ofMembers l offset align members).room.size := by
  induction members generalizing offset align with
  | nil => exact dvd_roundUp _ _
  | cons m members ih => exact ih _ _

/-- A structure ends after what stands before its members. -/
theorem le_size_ofMembers (l : Layout) (members : List (Text × Ty)) (offset : Nat) {align : Nat}
    (h : IsAlignment align) : offset ≤ (ofMembers l offset align members).room.size := by
  induction members generalizing offset align with
  | nil => exact le_roundUp offset (isAlignment_compound l h).pos
  | cons m members ih =>
    have hmember := isAlignment_ofType l m.2
    calc
      offset ≤ roundUp offset (ofType l m.2).align := le_roundUp offset hmember.pos
      _ ≤ roundUp offset (ofType l m.2).align + (ofType l m.2).size := Nat.le_add_right _ _
      _ ≤ _ := ih _ (h.join hmember)

theorem stride_le_array (l : Layout) (element : Room) (n : UInt32) :
    roundUp element.size (compound l element.align) ≤ (array l element n).size := by
  unfold array
  dsimp only
  split
  · exact Nat.le_refl _
  · next hn =>
    have hpos : n.toNat ≠ 0 := fun h => hn (UInt32.toNat_inj.mp h)
    exact Nat.le_mul_of_pos_right _ (Nat.pos_of_ne_zero hpos)

end Room

theorem compound_toNat (l : Layout) {align : UInt32} (h : IsAlignment align.toNat) :
    (Layout.compound l align).toNat = Room.compound l align.toNat := by
  unfold Layout.compound Room.compound
  split
  · have hsixteen : IsAlignment (16 : UInt32).toNat := ⟨4, by decide, rfl⟩
    have hself : align.toNat = align.toNat % 2 ^ 32 := (Nat.mod_eq_of_lt align.toNat_lt).symm
    obtain ⟨k, hk, hpow⟩ := Room.isAlignment_compound .std140 h
    have hle : 2 ^ k ≤ 2 ^ 5 := Nat.pow_le_pow_right (by decide) hk
    rw [Room.compound, if_pos rfl] at hpow
    rw [alignUp_toNat hsixteen hself]
    change roundUp align.toNat 16 % 2 ^ 32 = roundUp align.toNat 16
    omega
  · rfl

theorem scalar_toNat {p : Primitive} (h : p.isStored) :
    ∃ s, Extent.scalar p = .ok s ∧ s.toNat = Room.scalar p := by
  cases p with
  | i32 | u32 | f32 => exact ⟨4, rfl, rfl⟩
  | f64 => exact ⟨8, rfl, rfl⟩
  | _ => cases h

theorem vector_toNat {p : Primitive} (h : p.isStored) (n : UInt32) :
    ∃ e, Extent.vector p n = .ok e ∧ e.room = Room.vector p n := by
  obtain ⟨s, hscalar, hs⟩ := scalar_toNat h
  have hle : s.toNat ≤ 8 := by
    rw [hs]
    cases p <;> simp [Room.scalar]
  have hmul : ∀ k : UInt32, k.toNat ≤ 4 → (s * k).toNat = s.toNat * k.toNat := by
    intro k hk
    have hproduct := Nat.mul_le_mul hle hk
    rw [UInt32.toNat_mul]
    omega
  rw [Extent.vector, hscalar]
  refine ⟨_, rfl, ?_⟩
  unfold Room.vector Extent.room
  rw [← hs]
  split
  · rw [hmul 2 (by decide)]
    rfl
  · split <;> rw [hmul 4 (by decide)]
    · rw [hmul 3 (by decide)]
      rfl
    · rfl

theorem matrixStride_toNat (l : Layout) {p : Primitive} (h : p.isStored) (rows : UInt32) :
    ∃ stride, matrixStride l p rows = .ok stride ∧ stride.toNat = Room.compound l (Room.vector p rows).align := by
  obtain ⟨e, hextent, hroom⟩ := vector_toNat h rows
  have halign : e.align.toNat = (Room.vector p rows).align := congrArg Room.align hroom
  refine ⟨Layout.compound l e.align, ?_, ?_⟩
  · rw [matrixStride, hextent]
    rfl
  · rw [compound_toNat l (halign ▸ Room.isAlignment_vector p rows), halign]

theorem strideOf_toNat (l : Layout) {e : Extent} {r : Room} (h : IsAlignment r.align) (he : e.room = r.wrapped) :
    (strideOf l e).1.toNat = roundUp r.size (Room.compound l r.align) % 2 ^ 32 ∧
      (strideOf l e).2.toNat = Room.compound l r.align := by
  have halign : e.align.toNat = r.align := congrArg Room.align he
  have hsize : e.size.toNat = r.size % 2 ^ 32 := congrArg Room.size he
  have hcompound : (Layout.compound l e.align).toNat = Room.compound l r.align := by
    rw [compound_toNat l (halign ▸ h), halign]
  constructor
  · rw [← hcompound]
    exact alignUp_toNat (hcompound ▸ Room.isAlignment_compound l h) hsize
  · exact hcompound

mutual

/-- A type that can be stored has the extent that it has without bounds, as far as it fits. -/
theorem extent_wrapped (l : Layout) : ∀ {t : Ty}, t.isStored →
    ∃ e, extent l t = .ok e ∧ e.room = (Room.ofType l t).wrapped := by
  intro t ht
  cases t with
  | prim p =>
    obtain ⟨s, hscalar, hs⟩ := scalar_toNat ht
    refine ⟨⟨s, s⟩, ?_, ?_⟩
    · rw [extent, hscalar]
      rfl
    · rw [Room.ofType, ← hs]
      exact Room.ext rfl (Nat.mod_eq_of_lt s.toNat_lt).symm
  | vector n p =>
    obtain ⟨e, hextent, hroom⟩ := vector_toNat ht n
    refine ⟨e, hextent, ?_⟩
    rw [Room.ofType, ← hroom]
    exact Room.ext rfl (Nat.mod_eq_of_lt e.size.toNat_lt).symm
  | matrix c r p =>
    obtain ⟨stride, hstride, hexact⟩ := matrixStride_toNat l ht r
    refine ⟨⟨stride, stride * c⟩, ?_, ?_⟩
    · rw [extent, hstride]
      rfl
    · rw [Room.ofType, ← hexact]
      exact Room.ext rfl (UInt32.toNat_mul stride c)
  | array t n =>
    obtain ⟨e, hextent, hroom⟩ := extent_wrapped l (t := t) ht
    obtain ⟨hstride, halign⟩ := strideOf_toNat l (Room.isAlignment_ofType l t) hroom
    refine ⟨_, by rw [extent, hextent]; rfl, ?_⟩
    apply Room.ext
    · exact halign
    · rw [Room.ofType, Room.array]
      dsimp only [Extent.room, Room.wrapped]
      split
      · exact hstride
      · rw [UInt32.toNat_mul]
        exact (congrArg (· * n.toNat % 2 ^ 32) hstride).trans (Nat.mod_mul_mod _ _ _)
  | struct r =>
    obtain ⟨p, hplace, hplan⟩ :=
      placeMembers_wrapped l r.name 0 1 0 ht ⟨0, by decide, rfl⟩ rfl
    refine ⟨p.extent, ?_, congrArg Plan.room hplan⟩
    rw [extent, hplace]
    rfl
  | _ => cases ht

theorem placeMembers_wrapped (l : Layout) (struct : Text) (offset align : UInt32) (n : Nat) :
    ∀ {members : List (Text × Ty)}, Ty.areStored members → IsAlignment align.toNat → offset.toNat = n % 2 ^ 32 →
    ∃ p, placeMembers l struct offset align members = .ok p ∧
      p.plan = (Room.ofMembers l n align.toNat members).wrapped := by
  intro members hmembers halign hoffset
  cases members with
  | nil =>
    have hcompound := compound_toNat l halign
    have hmultiple := Room.isAlignment_compound l halign
    rw [Room.ofMembers, ← hcompound]
    rw [← hcompound] at hmultiple
    exact ⟨_, rfl, Plan.ext rfl (Room.ext rfl (alignUp_toNat hmultiple hoffset))⟩
  | cons m members =>
    simp only [Ty.areStored, Bool.and_eq_true] at hmembers
    have hmember := Room.isAlignment_ofType l m.2
    obtain ⟨e, hextent, hroom⟩ := extent_wrapped l hmembers.1
    have halign' : e.align.toNat = (Room.ofType l m.2).align := congrArg Room.align hroom
    have hsize : e.size.toNat = (Room.ofType l m.2).size % 2 ^ 32 := congrArg Room.size hroom
    have hplace : (alignUp offset e.align).toNat = roundUp n (Room.ofType l m.2).align % 2 ^ 32 := by
      rw [alignUp_toNat (halign' ▸ hmember) hoffset, halign']
    have hnext : (alignUp offset e.align + e.size).toNat =
        (roundUp n (Room.ofType l m.2).align + (Room.ofType l m.2).size) % 2 ^ 32 := by
      rw [UInt32.toNat_add, hplace, hsize, ← Nat.add_mod]
    have hmax : (max align e.align).toNat = max align.toNat (Room.ofType l m.2).align := by
      rw [UInt32.toNat_max, halign']
    obtain ⟨rest, hrest, hplan⟩ := placeMembers_wrapped l struct (alignUp offset e.align + e.size)
      (max align e.align) _ hmembers.2 (hmax ▸ halign.join hmember) hnext
    refine ⟨{ rest with offsets := alignUp offset e.align :: rest.offsets }, ?_, ?_⟩
    · rw [placeMembers, hextent]
      simp only [Except.mapError, bind, Except.bind, hrest, pure, Except.pure]
    · rw [hmax] at hplan
      apply Plan.ext
      · show (alignUp offset e.align).toNat :: rest.plan.offsets = _
        rw [hplace, hplan]
        rfl
      · show rest.plan.room = _
        rw [hplan]
        rfl

end

/-- Things that are placed one after the other from an offset on, each at the least multiple of its alignment that is
not before the end of the one before it. The last number is the end of the last of them. -/
inductive Packed : Nat → List Room → List Nat → Nat → Prop
  | nil (offset : Nat) : Packed offset [] [] offset
  | cons {offset place last : Nat} {room : Room} {rooms : List Room} {places : List Nat}
      (least : IsLeast {k | offset ≤ k ∧ room.align ∣ k} place)
      (rest : Packed (place + room.size) rooms places last) :
      Packed offset (room :: rooms) (place :: places) last

namespace Packed

variable {offset last : Nat} {rooms : List Room} {places : List Nat}

theorem le_last (h : Packed offset rooms places last) : offset ≤ last := by
  induction h with
  | nil => exact Nat.le_refl _
  | cons least _ ih =>
    have hplace := least.1.1
    omega

theorem le_place (h : Packed offset rooms places last) : ∀ k ∈ places, offset ≤ k := by
  induction h with
  | nil => exact List.forall_mem_nil _
  | cons least _ ih =>
    have hplace := least.1.1
    intro k hk
    rcases List.mem_cons.mp hk with rfl | hk
    · exact hplace
    · have hlater := ih k hk
      omega

theorem place_le (h : Packed offset rooms places last) : ∀ k ∈ places, k ≤ last := by
  induction h with
  | nil => exact List.forall_mem_nil _
  | cons _ rest ih =>
    have hrest := rest.le_last
    intro k hk
    rcases List.mem_cons.mp hk with rfl | hk
    · omega
    · exact ih k hk

/-- Nothing begins before the end of what stands before it. -/
theorem disjoint (h : Packed offset rooms places last) :
    (places.zip rooms).Pairwise fun a b => a.1 + a.2.size ≤ b.1 := by
  induction h with
  | nil => exact .nil
  | cons _ rest ih =>
    apply List.Pairwise.cons _ ih
    intro b hb
    exact rest.le_place b.1 (List.of_mem_zip hb).1

end Packed

theorem Room.packed_ofMembers (l : Layout) (members : List (Text × Ty)) (offset : Nat) {align : Nat}
    (h : IsAlignment align) : ∃ last ≤ (ofMembers l offset align members).room.size,
    Packed offset (members.map fun m => ofType l m.2) (ofMembers l offset align members).offsets last := by
  induction members generalizing offset align with
  | nil => exact ⟨offset, le_roundUp offset (isAlignment_compound l h).pos, .nil offset⟩
  | cons m members ih =>
    have hmember := isAlignment_ofType l m.2
    obtain ⟨last, hlast, hpacked⟩ :=
      ih (roundUp offset (ofType l m.2).align + (ofType l m.2).size) (h.join hmember)
    exact ⟨last, hlast, .cons (isLeast_roundUp offset hmember.pos) hpacked⟩

/-- The members of a structure are placed as the rules say: each as near to the one before it as its alignment
allows. -/
structure Correct (l : Layout) (r : Record Ty) (p : Placement) (members : List Extent) : Prop where
  /-- offsets, alignment and size are those of the layout without bounds -/
  exact : p.plan = Room.ofMembers l 0 1 r.members
  extents : List.Forall₂ (fun m e => extent l m.2 = .ok e) r.members members
  packed : ∃ last ≤ p.extent.size.toNat,
    Packed 0 (members.map Extent.room) (p.offsets.map UInt32.toNat) last
  disjoint : (p.offsets.zip members).Pairwise fun a b => a.1.toNat + a.2.size.toNat ≤ b.1.toNat
  size : p.extent.align.toNat ∣ p.extent.size.toNat
  align : ∀ e ∈ members, e.align.toNat ∣ p.extent.align.toNat

/-- What the rules say about the places of the parts of a type. -/
structure WellPlaced (l : Layout) (t : Ty) : Prop where
  exact : ∃ e, extent l t = .ok e ∧ e.room = Room.ofType l t
  /-- arrays, structures and matrices are aligned more coarsely under one of the layouts -/
  aligned : ∃ e, extent l t = .ok e ∧ IsAlignment e.align.toNat ∧ (l = .std140 → t.isCompound → 16 ∣ e.align.toNat)
  struct : ∀ r, t = .struct r → ∃ p members, place l r = .ok p ∧ Correct l r p members
  array : ∀ u n, t = .array u n → ∃ stride e, arrayStride l u = .ok stride ∧ extent l u = .ok e ∧
    e.align.toNat ∣ stride.toNat ∧ e.size.toNat ≤ stride.toNat ∧
    stride.toNat = roundUp (Room.ofType l u).size (Room.compound l (Room.ofType l u).align)

section Rules

variable {l : Layout} {t u : Ty}

theorem sixteen_dvd_ofType (ht : t.isStored) (hcompound : t.isCompound) : 16 ∣ (Room.ofType .std140 t).align := by
  cases t with
  | matrix c r p => exact Room.dvd_compound_std140 _
  | array t n => exact Room.dvd_compound_std140 _
  | struct r => exact Room.sixteen_dvd_ofMembers r.members 0 1
  | _ => cases hcompound

theorem size_member (l : Layout) {members : List (Text × Ty)} {m : Text × Ty} (hm : m ∈ members) (offset : Nat)
    {align : Nat} (h : IsAlignment align) :
    (Room.ofType l m.2).size ≤ (Room.ofMembers l offset align members).room.size := by
  induction members generalizing offset align with
  | nil => cases hm
  | cons m' members ih =>
    have hmember := h.join (Room.isAlignment_ofType l m'.2)
    rcases List.mem_cons.mp hm with rfl | hm
    · exact Nat.le_trans (Nat.le_add_left _ _) (Room.le_size_ofMembers l members _ hmember)
    · exact ih hm _ hmember

mutual

/-- What is in a type can be stored if the type can, and takes no more room. -/
theorem stored_inside (l : Layout) : ∀ {t : Ty}, t.isStored → u ∈ t.inside →
    u.isStored ∧ (Room.ofType l u).size ≤ (Room.ofType l t).size := by
  intro t ht hu
  cases t with
  | array t n =>
    rcases List.mem_cons.mp hu with rfl | hu
    · exact ⟨ht, Nat.le_refl _⟩
    · obtain ⟨hstored, hsize⟩ := stored_inside l (t := t) ht hu
      have halign := Room.isAlignment_compound l (Room.isAlignment_ofType l t)
      refine ⟨hstored, ?_⟩
      calc
        (Room.ofType l u).size ≤ (Room.ofType l t).size := hsize
        _ ≤ roundUp (Room.ofType l t).size (Room.compound l (Room.ofType l t).align) := le_roundUp _ halign.pos
        _ ≤ _ := Room.stride_le_array l _ n
  | struct r =>
    rcases List.mem_cons.mp hu with rfl | hu
    · exact ⟨ht, Nat.le_refl _⟩
    · obtain ⟨m, hm, hstored, hsize⟩ := stored_membersInside l ht hu
      exact ⟨hstored, Nat.le_trans hsize (size_member l hm 0 ⟨0, by decide, rfl⟩)⟩
  | _ =>
    cases List.mem_singleton.mp hu
    exact ⟨ht, Nat.le_refl _⟩

theorem stored_membersInside (l : Layout) : ∀ {members : List (Text × Ty)}, Ty.areStored members →
    u ∈ Ty.membersInside members →
    ∃ m ∈ members, u.isStored ∧ (Room.ofType l u).size ≤ (Room.ofType l m.2).size := by
  intro members hmembers hu
  cases members with
  | nil => cases hu
  | cons m members =>
    simp only [Ty.areStored, Bool.and_eq_true] at hmembers
    rcases List.mem_append.mp hu with hu | hu
    · exact ⟨m, List.mem_cons_self, stored_inside l hmembers.1 hu⟩
    · obtain ⟨m', hm', h⟩ := stored_membersInside l hmembers.2 hu
      exact ⟨m', List.mem_cons_of_mem m hm', h⟩

end

theorem stored_of_mem {members : List (Text × Ty)} (h : Ty.areStored members) : ∀ m ∈ members, m.2.isStored := by
  induction members with
  | nil => exact List.forall_mem_nil _
  | cons m members ih =>
    simp only [Ty.areStored, Bool.and_eq_true] at h
    exact List.forall_mem_cons.mpr ⟨h.1, ih h.2⟩

theorem wrapped_of_fits {r : Room} (h : r.size < 2 ^ 32) : r.wrapped = r := Room.ext rfl (Nat.mod_eq_of_lt h)

/-- The extents of types each of which takes less than 2^32 bytes. -/
theorem extents_exact (l : Layout) {members : List (Text × Ty)} (hmembers : ∀ m ∈ members, m.2.isStored)
    (hfits : ∀ m ∈ members, (Room.ofType l m.2).size < 2 ^ 32) :
    ∃ es, List.Forall₂ (fun m e => extent l m.2 = .ok e) members es ∧
      es.map Extent.room = members.map fun m => Room.ofType l m.2 := by
  induction members with
  | nil => exact ⟨[], .nil, rfl⟩
  | cons m members ih =>
    obtain ⟨e, hextent, hroom⟩ := extent_wrapped l (hmembers m List.mem_cons_self)
    obtain ⟨es, hextents, hrooms⟩ := ih (fun m hm => hmembers m (List.mem_cons_of_mem _ hm))
      fun m hm => hfits m (List.mem_cons_of_mem _ hm)
    rw [wrapped_of_fits (hfits m List.mem_cons_self)] at hroom
    exact ⟨e :: es, .cons hextent hextents, by rw [List.map_cons, List.map_cons, hroom, hrooms]⟩

/-- The places of the members of a structure are exact if and only if the structure takes less than 2^32 bytes. -/
theorem place_exact_iff (l : Layout) {r : Record Ty} (hstored : Ty.areStored r.members) :
    ∃ p, place l r = .ok p ∧
      (p.plan = Room.ofMembers l 0 1 r.members ↔ (Room.ofMembers l 0 1 r.members).room.size < 2 ^ 32) := by
  have hone : IsAlignment 1 := ⟨0, by decide, rfl⟩
  obtain ⟨p, hplace, hplan⟩ :=
    placeMembers_wrapped l r.name 0 1 0 hstored hone rfl
  refine ⟨p, hplace, ?_⟩
  rw [hplan]
  constructor
  · intro h
    have hsize : (Room.ofMembers l 0 1 r.members).room.size % 2 ^ 32 = (Room.ofMembers l 0 1 r.members).room.size :=
      congrArg (·.room.size) h
    have hlt := Nat.mod_lt (Room.ofMembers l 0 1 r.members).room.size (Nat.two_pow_pos 32)
    omega
  · intro h
    obtain ⟨last, hlast, hpacked⟩ := Room.packed_ofMembers l r.members 0 hone
    have hoffsets : ∀ k ∈ (Room.ofMembers l 0 1 r.members).offsets, k % 2 ^ 32 = id k := by
      intro k hk
      have hle := hpacked.place_le k hk
      exact Nat.mod_eq_of_lt (by omega)
    apply Plan.ext
    · exact (List.map_congr_left hoffsets).trans (List.map_id _)
    · exact wrapped_of_fits h

/-- An array of 2^32 bytes takes none: the next member is placed on it. -/
example : place .std140 ⟨0, "Data", [("a", .array (.prim .f32) 268435456), ("b", .prim .f32)]⟩ =
    .ok ⟨[0, 0], 16, 16⟩ := by rfl

theorem place_correct (l : Layout) {r : Record Ty} (hstored : Ty.areStored r.members)
    (hfits : (Room.ofType l (.struct r)).size < 2 ^ 32) :
    ∃ p members, place l r = .ok p ∧ Correct l r p members := by
  have hone : IsAlignment 1 := ⟨0, by decide, rfl⟩
  rw [Room.ofType] at hfits
  obtain ⟨p, hplace, hexact⟩ := place_exact_iff l hstored
  have hplan := hexact.mpr hfits
  have hoffsets : p.offsets.map UInt32.toNat = (Room.ofMembers l 0 1 r.members).offsets :=
    congrArg Plan.offsets hplan
  have halign : p.extent.align.toNat = (Room.ofMembers l 0 1 r.members).room.align :=
    congrArg (·.room.align) hplan
  have hsize : p.extent.size.toNat = (Room.ofMembers l 0 1 r.members).room.size := congrArg (·.room.size) hplan
  obtain ⟨es, hextents, hrooms⟩ := extents_exact l (stored_of_mem hstored) fun m hm =>
    Nat.lt_of_le_of_lt (size_member l hm 0 hone) hfits
  have hpacked : ∃ last ≤ p.extent.size.toNat, Packed 0 (es.map Extent.room) (p.offsets.map UInt32.toNat) last := by
    rw [hrooms, hoffsets, hsize]
    exact Room.packed_ofMembers l r.members 0 hone
  refine ⟨p, es, hplace, hplan, hextents, hpacked, ?_, ?_, ?_⟩
  · obtain ⟨last, -, hpacked⟩ := hpacked
    have hdisjoint := hpacked.disjoint
    rw [List.zip_map, List.pairwise_map] at hdisjoint
    exact hdisjoint
  · rw [halign, hsize]
    exact Room.align_dvd_size l r.members 0 1
  · intro e he
    have hroom : e.room ∈ r.members.map fun m => Room.ofType l m.2 := hrooms ▸ List.mem_map_of_mem he
    obtain ⟨m, hm, hm'⟩ := List.mem_map.mp hroom
    have halign' : e.align.toNat = (Room.ofType l m.2).align := (congrArg Room.align hm').symm
    rw [halign, halign']
    exact Room.align_dvd_ofMembers l hm 0 hone

theorem wellPlaced_of_fits (l : Layout) (ht : t.isStored) (hfits : (Room.ofType l t).size < 2 ^ 32) :
    WellPlaced l t := by
  constructor
  · obtain ⟨e, hextent, hroom⟩ := extent_wrapped l ht
    exact ⟨e, hextent, hroom.trans (wrapped_of_fits hfits)⟩
  · obtain ⟨e, hextent, hroom⟩ := extent_wrapped l ht
    have halign : e.align.toNat = (Room.ofType l t).align := congrArg Room.align hroom
    refine ⟨e, hextent, halign ▸ Room.isAlignment_ofType l t, ?_⟩
    intro hl hcompound
    rw [halign, hl]
    exact sixteen_dvd_ofType ht hcompound
  · intro r hr
    subst hr
    exact place_correct l ht hfits
  · intro u n hu
    subst hu
    have halign := Room.isAlignment_ofType l u
    have helement := le_roundUp (Room.ofType l u).size (Room.isAlignment_compound l halign).pos
    have hstride := Nat.lt_of_le_of_lt (Room.stride_le_array l (Room.ofType l u) n) hfits
    obtain ⟨e, hextent, hroom⟩ := extent_wrapped l (t := u) ht
    obtain ⟨hexact, -⟩ := strideOf_toNat l halign hroom
    rw [wrapped_of_fits (Nat.lt_of_le_of_lt helement hstride)] at hroom
    rw [Nat.mod_eq_of_lt hstride] at hexact
    have hdvd := Nat.dvd_trans (Room.dvd_compound l halign)
      (dvd_roundUp (Room.ofType l u).size (Room.compound l (Room.ofType l u).align))
    rw [← hexact, ← hroom] at helement hdvd
    exact ⟨(strideOf l e).1, e, by rw [arrayStride, hextent]; rfl, hextent, hdvd, helement, hexact⟩

/-- The members of a structure that takes less than 2^32 bytes are placed as the rules say, and so are the parts of
every type in it. -/
theorem place_wellPlaced (l : Layout) (r : Record Ty) (hstored : Ty.areStored r.members)
    (hfits : (Room.ofType l (.struct r)).size < 2 ^ 32) :
    (∃ p members, place l r = .ok p ∧ Correct l r p members) ∧ ∀ t ∈ (Ty.struct r).inside, WellPlaced l t := by
  constructor
  · exact place_correct l hstored hfits
  · intro t ht
    obtain ⟨htype, hsize⟩ := stored_inside l (t := .struct r) hstored ht
    exact wellPlaced_of_fits l htype (Nat.lt_of_le_of_lt hsize hfits)

theorem place_wellPlaced_nested :
    let light : Record Ty := ⟨0, "Light", [("direction", .vector 3 .f32), ("power", .prim .f64)]⟩
    let scene : Record Ty := ⟨1, "Scene", [("scale", .prim .f32), ("view", .matrix 4 3 .f32),
      ("lights", .array (.struct light) 5), ("count", .prim .u32)]⟩
    (∃ p members, place .std140 scene = .ok p ∧ Correct .std140 scene p members) ∧
      ∀ t ∈ (Ty.struct scene).inside, WellPlaced .std140 t :=
  place_wellPlaced .std140 _ rfl (by decide +kernel)

end Rules

end Spirv

end Shading
