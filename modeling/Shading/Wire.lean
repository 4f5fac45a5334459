import Shading.Module

/-! The binary form of modules: a magic, a format version, a table of texts and a tagged tree. -/
namespace Shading.Wire

/-- The bytes that every stored module starts with. -/
def magic : Text := "NZSB"

def formatVersion : Nat := 1

/-- How many nodes may be nested in each other. -/
def maxDepth : Nat := 4096

/-- Seven bits to a byte, low ones first; all bytes but the last have their high bit set. -/
def uvarint (n : Nat) : Text :=
  if n < 128 then [n.toUInt8] else (n % 128 + 128).toUInt8 :: uvarint (n / 128)
termination_by n
decreasing_by omega

/-- Signed numbers alternate between non-negative and negative ones. -/
def zigzag : Int → Nat
  | .ofNat n => 2 * n
  | .negSucc n => 2 * n + 1

def unzigzag (n : Nat) : Int := if n % 2 = 0 then (n / 2 : Nat) else Int.negSucc (n / 2)

/-- What a tree is written as, before texts are gathered in the table. -/
inductive Piece
  | byte (b : UInt8)
  | uint (n : Nat)
  | int (n : Int)
  | text (t : Text)
deriving DecidableEq, Repr

namespace Piece

def ofBool (b : Bool) : Piece := .byte (if b then 1 else 0)

def ofUInt32 (n : UInt32) : Piece := .uint n.toNat

def length {α : Type} (xs : List α) : Piece := .uint xs.length

def text? : Piece → Option Text
  | .text t => some t
  | _ => none

/-- The bytes of a piece; a text is the number of its place in the table. -/
def render (table : List Text) : Piece → Text
  | .byte b => [b]
  | .uint n => uvarint n
  | .int n => uvarint (zigzag n)
  | .text t => uvarint (table.idxOf t)

end Piece

/-- The texts among the pieces, each once, in the order of their first use. -/
def tableOf (ps : List Piece) : List Text :=
  (ps.filterMap Piece.text?).foldl (fun table t => if table.elem t then table else table ++ [t]) []

end Shading.Wire
