import Shading.Wire

/-! Bytes to modules. -/
namespace Shading.Wire

/-- What is wrong at a place of a stored module. -/
inductive Fault
  | endOfData
  | uvarint
  | varint
  | uint32 (v : Nat)
  | length (v : Nat)
  | bool
  | textIndex (v : Nat)
  | nesting
  | root (form : Text)
  | stmtTag (tag : UInt8)
  | exprTag (tag : UInt8)
  | typeTag (tag : UInt8)
  | valueTag (tag : UInt8)
  | swizzle (count : UInt32)
  | int32 (v : Int)
  | column
deriving DecidableEq, Repr

/-- Why some bytes are no stored module. -/
inductive DecodeError
  | magic
  | version (v : Nat)
  | trailing (count : Nat)
  | invalid (fault : Fault) (place : Nat)
deriving DecidableEq, Repr

def Fault.message : Fault → Text
  | .endOfData => "unexpected end of data"
  | .uvarint => "malformed uvarint"
  | .varint => "malformed varint"
  | .uint32 v => "value " ++ Text.ofNat v ++ " overflows uint32"
  | .length v => "length " ++ Text.ofNat v ++ " exceeds input"
  | .bool => "malformed bool"
  | .textIndex v => "string index " ++ Text.ofNat v ++ " out of range"
  | .nesting => "nesting deeper than " ++ Text.ofNat maxDepth
  | .root form => "module root is *ast." ++ form
  | .stmtTag t => "unknown statement tag " ++ Text.ofNat t.toNat
  | .exprTag t => "unknown expression tag " ++ Text.ofNat t.toNat
  | .typeTag t => "unknown type tag " ++ Text.ofNat t.toNat
  | .valueTag t => "unknown constant tag " ++ Text.ofNat t.toNat
  | .swizzle n => "swizzle of " ++ Text.ofNat n.toNat ++ " components"
  | .int32 v => "value " ++ Text.ofInt v ++ " overflows int32"
  | .column => "matrix column is not a vector"

def DecodeError.message : DecodeError → Text
  | .magic => "serialize: invalid encoding: missing " ++ Wire.magic ++ " magic"
  | .version v => "serialize: invalid encoding: unsupported format version " ++ Text.ofNat v
  | .trailing n => "serialize: invalid encoding: " ++ Text.ofNat n ++ " trailing bytes"
  | .invalid f place =>
    "serialize: invalid encoding: " ++ f.message ++ " at byte " ++ Text.ofNat place

/-- The bytes that are left, and the place of the first of them. -/
structure Cursor where
  place : Nat
  rest : Text

/-- What a reader of trees knows: the table of texts and the size of the input. -/
structure Input where
  table : Array Text := #[]
  size : Nat

/-- A reader of a stored module. -/
abbrev Decoder := ReaderT Input (StateT Cursor (Except DecodeError))

namespace Decoder

/-- Fails at the present place. -/
def fail {α : Type} (f : Fault) : Decoder α := fun _ c => .error (.invalid f c.place)

def byte : Decoder UInt8 := fun _ c =>
  match c.rest with
  | b :: rest => .ok (b, ⟨c.place + 1, rest⟩)
  | [] => .error (.invalid .endOfData c.place)

/-- Reads seven bits to a byte. The number has at most 64 bits, so the tenth byte is at most one. -/
def readUvarint : (limit : Nat) → Text → Option (Nat × Nat × Text)
  | 0, _ => none
  | _, [] => none
  | limit + 1, b :: rest =>
    if b < 128 then
      if limit = 0 && 1 < b then none else some (b.toNat, 1, rest)
    else do
      let (high, count, rest) ← readUvarint limit rest
      return (b.toNat % 128 + 128 * high, count + 1, rest)

def varintAs (f : Fault) : Decoder Nat := fun _ c =>
  match readUvarint 10 c.rest with
  | some (n, count, rest) => .ok (n, ⟨c.place + count, rest⟩)
  | none => .error (.invalid f c.place)

def uvarint : Decoder Nat := varintAs .uvarint

def int : Decoder Int := do return unzigzag (← varintAs .varint)

def uint32 : Decoder UInt32 := do
  let n ← uvarint
  if n < UInt32.size then return n.toUInt32 else fail (.uint32 n)

/-- A count, which is never more than the bytes that are left. -/
def length : Decoder Nat := do
  let n ← uvarint
  if (← read).size - (← get).place < n then fail (.length n) else return n

def bool : Decoder Bool := do
  let b ← byte
  if b = 0 then return false else if b = 1 then return true else fail .bool

def text : Decoder Text := do
  let n ← uvarint
  match (← read).table[n]? with
  | some t => return t
  | none => fail (.textIndex n)

/-- The same reader several times over. -/
def times {α : Type} (d : Decoder α) : Nat → Decoder (List α)
  | 0 => return []
  | n + 1 => do
    let x ← d
    let xs ← times d n
    return x :: xs

/-- A count and as many things. -/
def list {α : Type} (d : Decoder α) : Decoder (List α) := do times d (← length)

def position : Decoder Position := do return ⟨← int, ← int, ← int⟩

def span : Decoder Span := do return ⟨← position, ← position, ← text⟩

def primitive : Decoder Primitive := do return .ofCode (← byte)

/-- A structure, given the reader of the types of its members. -/
def record (type : Decoder Ty) : Decoder (Record Ty) := do
  let id ← int
  let name ← text
  let members ← list do return (← text, ← type)
  return ⟨id, name, members⟩

/-- A type, in as many levels as are left. -/
def type : Nat → Decoder Ty
  | 0 => fail .nesting
  | levels + 1 => do
    let tag ← byte
    match tag with
    | 0 => return .unknown
    | 1 => return .prim (← primitive)
    | 2 => return .vector (← uint32) (← primitive)
    | 3 => return .matrix (← uint32) (← uint32) (← primitive)
    | 4 =>
      let n ← uint32
      return .array (← type levels) n
    | 5 => return .struct (← record (type levels))
    | 6 => return .sampler (.ofCode (← byte)) (← primitive) (← bool)
    | 7 => return .uniform (← record (type levels))
    | 8 => return .storage (← record (type levels))
    | 9 => return .func (← int) (← text) (← list (type levels)) (← type levels)
    | 10 => return .intrinsic (.ofCode (← byte))
    | 11 => return .void
    | _ => fail (.typeTag tag)

def column (value : Decoder Value) : Decoder (List Value) := do
  match ← value with
  | .vector cs => return cs
  | _ => fail .column

def value : Nat → Decoder Value
  | 0 => fail .nesting
  | levels + 1 => do
    let tag ← byte
    match tag with
    | 0 => return .absent
    | 1 => return .bool (← bool)
    | 2 =>
      let n ← int
      if Int32.minValue.toInt ≤ n && n ≤ Int32.maxValue.toInt then return .i32 n.toInt32 else fail (.int32 n)
    | 3 => return .u32 (← uint32)
    | 4 => return .f32 ⟨← uint32⟩
    | 5 => return .f64 ⟨(← uvarint).toUInt64⟩
    | 6 => return .vector (← list (value levels))
    | 7 => return .matrix (← list (column (value levels)))
    | _ => fail (.valueTag tag)

def selector : Decoder Selector := do
  let count ← uint32
  let s : Selector := ⟨← uint32, ← uint32, ← uint32, ← uint32, count⟩
  if 4 < count then fail (.swizzle count) else return s

def nameAt : Decoder Name := do return ⟨← text, ← span⟩

def expr : Nat → Decoder Expr
  | 0 => fail .nesting
  | levels + 1 => do
    let tag ← byte
    if tag = 0 then return .absent
    let place ← span
    let t ← type levels
    let i : ExprInfo := ⟨place, t⟩
    match tag with
    | 1 => return .name i (← text)
    | 2 => return .var i (← int)
    | 3 => return .const i (← int)
    | 4 => return .literal i (← value levels)
    | 5 => return .binary i (.ofCode (← byte)) (← expr levels) (← expr levels)
    | 6 => return .unary i (.ofCode (← byte)) (← expr levels)
    | 7 => return .assign i (.ofCode (← byte)) (← expr levels) (← expr levels)
    | 8 => return .cast i (← expr levels) (← list (expr levels))
    | 9 => return .ternary i (← expr levels) (← expr levels) (← expr levels)
    | 10 => return .index i (← expr levels) (← list (expr levels))
    | 11 => return .member i (← expr levels) (← list nameAt)
    | 12 =>
      let s ← selector
      return .swizzle i (← expr levels) s
    | 13 => return .call i (← expr levels) (← list (expr levels))
    | 14 =>
      let name ← text
      return .method i (← expr levels) name (← list (expr levels))
    | 15 => return .intrinsic i (.ofCode (← byte)) (← list (expr levels))
    | 16 => return .function i (← int)
    | 17 => return .intrinsicRef i (.ofCode (← byte))
    | 18 => return .structRef i (← int)
    | 19 => return .typeRef i (← type levels)
    | _ => fail (.exprTag tag)

def attr {α : Type} (e : Decoder Expr) (d : Decoder α) : Decoder (Attr α) := do
  let v ← if ← bool then some <$> d else pure none
  return { expr := ← e, value := v }

def structMember (e : Decoder Expr) : Decoder StructMember := do
  return { span := ← span, name := ← text, type := ← e, builtin := ← attr e (Builtin.ofCode <$> byte),
           location := ← attr e uint32, cond := ← e }

def param (e : Decoder Expr) : Decoder FnParam := do
  let place ← span
  let name ← text
  let id ← int
  return { span := place, name, type := ← e, id }

def external (e : Decoder Expr) : Decoder External := do
  let place ← span
  let name ← text
  let id ← int
  return { span := place, name, type := ← e, set := ← attr e uint32, binding := ← attr e uint32, id }

def importItem : Decoder ImportItem := do
  return { span := ← span, name := ← text, rename := ← text }

def sizes : Decoder (UInt32 × UInt32 × UInt32) := do return (← uint32, ← uint32, ← uint32)

def head (e : Decoder Expr) : Decoder FnHead := do
  let name ← text
  let id ← int
  let params ← list (param e)
  let result ← e
  let stage ← attr e (Stage.ofCode <$> byte)
  let earlyTests ← attr e bool
  let depthWrite ← attr e (DepthWrite.ofCode <$> byte)
  let workgroup ← attr e sizes
  let exported ← attr e bool
  return { name, params, result, stage, earlyTests, depthWrite, workgroup, exported, id }

def unroll (e : Decoder Expr) : Decoder (Attr Unroll) := attr e (Unroll.ofCode <$> byte)

def stmt : Nat → Decoder Stmt
  | 0 => fail .nesting
  | levels + 1 => do
    let tag ← byte
    if tag = 0 then return .absent
    let s ← span
    let e := expr levels
    match tag with
    | 1 => return .expr s (← e)
    | 2 =>
      let name ← text
      let id ← int
      return .letVar s { name, type := ← e, init := ← e, id }
    | 3 =>
      let name ← text
      let id ← int
      let exported ← attr e bool
      return .const s { name, type := ← e, value := ← e, exported, id }
    | 4 =>
      let name ← text
      let id ← int
      let exported ← attr e bool
      return .alias s { name, target := ← e, exported, id }
    | 5 =>
      let name ← text
      let id ← int
      return .option s { name, type := ← e, default := ← e, id }
    | 6 =>
      let name ← text
      let id ← int
      let exported ← attr e bool
      let layout ← attr e (Layout.ofCode <$> byte)
      let members ← list (structMember e)
      return .struct s { name, layout, members, exported, id }
    | 7 => return .function s (← head e) (← list (stmt levels))
    | 8 => return .external s (← attr e uint32) (← list (external e))
    | 9 =>
      let isConst ← bool
      let arms ← list do return (← e, ← stmt levels)
      return .branch s isConst arms (← stmt levels)
    | 10 => return .conditional s (← e) (← stmt levels)
    | 11 =>
      let name ← text
      let id ← int
      let u ← unroll e
      let h : RangeHead := { name, start := ← e, stop := ← e, step := ← e, unroll := u, id }
      return .forRange s h (← stmt levels)
    | 12 =>
      let name ← text
      let id ← int
      let u ← unroll e
      let h : EachHead := { name, array := ← e, unroll := u, id }
      return .forEach s h (← stmt levels)
    | 13 =>
      let u ← unroll e
      return .loop s (← e) u (← stmt levels)
    | 14 => return .returnWith s (← e)
    | 15 => return .discard s
    | 16 => return .breakLoop s
    | 17 => return .continueLoop s
    | 18 => return .importFrom s (← text) (← list importItem)
    | 19 => return .multi s (← list (stmt levels))
    | 20 => return .scoped s (← stmt levels)
    | 21 => return .noOp s
    | _ => fail (.stmtTag tag)

def metadata : Decoder Metadata := do
  return { name := ← text, version := ← uint32, author := ← text, description := ← text,
           license := ← text, imports := ← list text }

def moduleTree : Nat → Decoder Module
  | 0 => fail .nesting
  | levels + 1 => do
    let m ← if ← bool then some <$> metadata else pure none
    let imported ← list do return (← text, ← moduleTree levels)
    match ← stmt levels with
    | .absent => return ⟨m, imported, none⟩
    | .multi s body => return ⟨m, imported, some ⟨s, body⟩⟩
    | s => fail (.root s.form)

/-- A text of the table. -/
def tableEntry : Decoder Text := do
  let n ← length
  let c ← get
  set (Cursor.mk (c.place + n) (c.rest.drop n))
  return c.rest.take n

/-- The format version and the table of texts. -/
def preamble : Decoder (List Text) := do
  let v ← uvarint
  if v ≠ formatVersion then throw (.version v)
  list tableEntry

end Decoder

end Shading.Wire

namespace Shading.Module

/-- The module that some bytes hold. -/
def decode (data : Text) : Except Wire.DecodeError Module := do
  let some rest := Text.dropStart? Wire.magic data | throw .magic
  let start : Wire.Cursor := ⟨Wire.magic.length, rest⟩
  let (table, c) ← Wire.Decoder.preamble ⟨#[], data.length⟩ start
  let (m, c) ← Wire.Decoder.moduleTree Wire.maxDepth ⟨table.toArray, data.length⟩ c
  if c.rest.isEmpty then return m else throw (.trailing c.rest.length)

end Shading.Module
