/-! Codes that an enumeration has no member for. -/
namespace Shading

/-- A code past the members of an enumeration. It is kept as it is, so that a stored module can be read
and written again unchanged. -/
structure Reserved (members : UInt8) where
  code : UInt8
  large : members ≤ code
deriving DecidableEq, Repr

end Shading
