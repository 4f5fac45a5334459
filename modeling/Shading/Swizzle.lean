import Shading.Text

/-! Component selectors such as `xyz`. -/
namespace Shading.Swizzle

/-- A family of four letters for the components of a vector. -/
def families : List Text := ["xyzw", "rgba", "stpq"]

/-- Reads a selector of one to four letters of one family. -/
def parse? (t : Text) : Option (List UInt32) :=
  if t.isEmpty || 4 < t.length then none
  else do
    let family ← families.find? fun f => t.all f.contains
    pure (t.map fun b => (family.idxOf b).toUInt32)

/-- The selector that applies first the inner one and then the outer one. -/
def compose (inner outer : List UInt32) : List UInt32 := outer.map fun c => inner.getD c.toNat 0

/-- A selector in the letters `xyzw`. -/
def text (components : List UInt32) : Text :=
  components.map fun c => (Text.ofString "xyzw").getD c.toNat 0

end Shading.Swizzle
