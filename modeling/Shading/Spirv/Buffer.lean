import Shading.Attribute
import Shading.Backend.Error
import Shading.Backend.Specialization
import Shading.Spirv.Pool

/-! Where the members of a buffer are placed. Sizes and offsets are counted in bytes. -/
namespace Shading.Spirv

/-- How much room a value takes, and of what number its offset is a multiple. -/
structure Extent where
  align : UInt32
  size : UInt32
deriving DecidableEq, Repr

/-- The places of the members of a structure, and the room that the whole takes. -/
structure Placement where
  offsets : List UInt32
  extent : Extent
deriving DecidableEq, Repr

/-- The least multiple of the alignment from an offset on. -/
def alignUp (offset align : UInt32) : UInt32 := (offset + align - 1) / align * align

namespace Layout

/-- The alignment of an array, a structure or the column of a matrix, which one of the two layouts
rounds up. -/
def compound (l : Layout) (align : UInt32) : UInt32 := if l = .std140 then alignUp align 16 else align

end Layout

namespace Extent

def scalar : Primitive → Except FormError UInt32
  | .i32 | .u32 | .f32 => .ok 4
  | .f64 => .ok 8
  | p => .error (.notStorable (.prim p))

/-- A vector of three components is aligned like one of four. -/
def vector (p : Primitive) (count : UInt32) : Except FormError Extent := do
  let s ← scalar p
  return if count = 2 then ⟨s * 2, s * 2⟩ else if count = 3 then ⟨s * 4, s * 3⟩ else ⟨s * 4, s * 4⟩

end Extent

/-- The distance between two columns of a matrix. -/
def matrixStride (l : Layout) (p : Primitive) (rows : UInt32) : Except FormError UInt32 := do
  return Layout.compound l (← Extent.vector p rows).align

/-- The distance between two elements of an array, and the alignment of the array. -/
def strideOf (l : Layout) (element : Extent) : UInt32 × UInt32 :=
  let align := Layout.compound l element.align
  (alignUp element.size align, align)

mutual

/-- The room that a value takes. An array whose length is not known takes that of one element. -/
def extent (l : Layout) : Ty → Except FormError Extent
  | .prim p => do
    let s ← Extent.scalar p
    return ⟨s, s⟩
  | .vector n p => Extent.vector p n
  | .matrix c r p => do
    let stride ← matrixStride l p r
    return ⟨stride, stride * c⟩
  | .array t n => do
    let (stride, align) := strideOf l (← extent l t)
    return ⟨align, if n = 0 then stride else stride * n⟩
  | .struct r => return (← placeMembers l r.name 0 1 r.members).extent
  | t => .error (.notStorable t)

/-- Places the members of a structure from an offset on, after others with a greatest alignment. -/
def placeMembers (l : Layout) (struct : Text) (offset align : UInt32) :
    List (Text × Ty) → Except FormError Placement
  | [] =>
    let align := Layout.compound l align
    .ok ⟨[], align, alignUp offset align⟩
  | (name, t) :: members => do
    let e ← (extent l t).mapError (.inMember struct name)
    let place := alignUp offset e.align
    let rest ← placeMembers l struct (place + e.size) (max align e.align) members
    return { rest with offsets := place :: rest.offsets }

end

/-- The places of the members of a structure. -/
def place (l : Layout) (r : Record Ty) : Except FormError Placement := placeMembers l r.name 0 1 r.members

/-- The distance between two elements of an array. -/
def arrayStride (l : Layout) (element : Ty) : Except FormError UInt32 := do
  return (strideOf l (← extent l element)).1

/-- The types that are declared, and which of them have their decorations. -/
structure Buffers where
  pool : Pool
  /-- the types of whole buffers -/
  blocks : List UInt32 := []
  /-- the types that say where their parts are -/
  placed : List UInt32 := []

/-- Steps that decorate the types of buffers. -/
abbrev Buffering := StateT Buffers (Except FormError)

namespace Buffers

def pooled {α : Type} (step : Pooling α) : Buffering α := fun s => do
  let (a, pool) ← step s.pool
  return (a, { s with pool })

/-- Runs code for a type whose parts have no places yet. -/
def once (id : UInt32) (code : Buffering Unit) : Buffering Unit := do
  if !(← get).placed.contains id then
    modify fun s => { s with placed := id :: s.placed }
    code

/-- How the columns of a member are placed, if it holds matrices. -/
def decorateColumns (layout : Layout) (id member : UInt32) (t : Ty) : Buffering Unit := do
  match t.innermost with
  | .matrix _ rows p =>
    let stride ← liftM (matrixStride layout p rows)
    pooled (Pool.build do
      Builder.memberDecorate id member Decoration.colMajor []
      Builder.memberDecorate id member Decoration.matrixStride [stride])
  | _ => return

mutual

/-- Decorates a type with the places of its parts. A type has one layout, the first that it is used
with. -/
def decorate (layout : Layout) : Ty → Buffering Unit
  | .struct r => do
    let id ← pooled (Pool.typeId (.struct r))
    once id do
      let placement ← liftM (place layout r)
      decorateMembers layout id 0 placement.offsets r.members
  | .array t n => do
    let id ← pooled (Pool.typeId (.array t n))
    once id do
      let stride ← liftM (arrayStride layout t)
      pooled (Pool.build (Builder.decorate id Decoration.arrayStride [stride]))
      decorate layout t
  | _ => return

def decorateMembers (layout : Layout) (id member : UInt32) (offsets : List UInt32) :
    List (Text × Ty) → Buffering Unit
  | [] => return
  | (_, t) :: members => do
    pooled (Pool.build (Builder.memberDecorate id member Decoration.offset [offsets.headD 0]))
    decorateColumns layout id member t
    decorate layout t
    decorateMembers layout id (member + 1) offsets.tail members

end

/-- Decorates what a buffer holds. -/
def declareBlock (decoration : UInt32) (layout : Layout) (r : Record Ty) : Buffering Unit := do
  let id ← pooled (Pool.typeId (.struct r))
  if !(← get).blocks.contains id then
    modify fun s => { s with blocks := id :: s.blocks }
    pooled (Pool.build (Builder.decorate id decoration []))
  decorate layout (.struct r)

end Buffers

end Shading.Spirv
