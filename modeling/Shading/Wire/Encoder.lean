import Shading.Wire

/-! Modules to bytes. -/
namespace Shading.Wire.Encoder

open Piece (ofBool ofUInt32 length)

def span (s : Span) : List Piece :=
  [.int s.start.line, .int s.start.column, .int s.start.offset,
   .int s.stop.line, .int s.stop.column, .int s.stop.offset, .text s.file]

mutual

def type : Ty → List Piece
  | .unknown => [.byte 0]
  | .prim p => [.byte 1, .byte p.code]
  | .vector n p => [.byte 2, ofUInt32 n, .byte p.code]
  | .matrix c r p => [.byte 3, ofUInt32 c, ofUInt32 r, .byte p.code]
  | .array t n => .byte 4 :: ofUInt32 n :: type t
  | .struct r => [.byte 5, .int r.id, .text r.name, length r.members] ++ members r.members
  | .sampler d p depth => [.byte 6, .byte d.code, .byte p.code, ofBool depth]
  | .uniform r => [.byte 7, .int r.id, .text r.name, length r.members] ++ members r.members
  | .storage r => [.byte 8, .int r.id, .text r.name, length r.members] ++ members r.members
  | .func id name params result =>
    [.byte 9, .int id, .text name, length params] ++ types params ++ type result
  | .intrinsic i => [.byte 10, .byte i.code]
  | .void => [.byte 11]

def types : List Ty → List Piece
  | [] => []
  | t :: ts => type t ++ types ts

def members : List (Text × Ty) → List Piece
  | [] => []
  | (name, t) :: ms => .text name :: (type t ++ members ms)

end

mutual

def value : Value → List Piece
  | .absent => [.byte 0]
  | .bool b => [.byte 1, ofBool b]
  | .i32 n => [.byte 2, .int n.toInt]
  | .u32 n => [.byte 3, ofUInt32 n]
  | .f32 x => [.byte 4, .uint x.toNat]
  | .f64 x => [.byte 5, .uint x.toNat]
  | .vector cs => [.byte 6, length cs] ++ values cs
  | .matrix cols => [.byte 7, length cols] ++ columns cols

def values : List Value → List Piece
  | [] => []
  | v :: vs => value v ++ values vs

/-- The columns of a matrix, each written as a vector. -/
def columns : List (List Value) → List Piece
  | [] => []
  | c :: cs => [.byte 6, length c] ++ values c ++ columns cs

end

def exprInfo (tag : UInt8) (i : ExprInfo) : List Piece := .byte tag :: (span i.span ++ type i.type)

mutual

def expr : Expr → List Piece
  | .absent => [.byte 0]
  | .name i n => exprInfo 1 i ++ [.text n]
  | .var i id => exprInfo 2 i ++ [.int id]
  | .const i id => exprInfo 3 i ++ [.int id]
  | .literal i v => exprInfo 4 i ++ value v
  | .binary i op l r => exprInfo 5 i ++ [.byte op.code] ++ expr l ++ expr r
  | .unary i op e => exprInfo 6 i ++ [.byte op.code] ++ expr e
  | .assign i op l r => exprInfo 7 i ++ [.byte op.code] ++ expr l ++ expr r
  | .cast i t as => exprInfo 8 i ++ expr t ++ [length as] ++ exprs as
  | .ternary i c t f => exprInfo 9 i ++ expr c ++ expr t ++ expr f
  | .index i b is => exprInfo 10 i ++ expr b ++ [length is] ++ exprs is
  | .member i b ns =>
    exprInfo 11 i ++ expr b ++ [length ns] ++ ns.flatMap (fun n => .text n.text :: span n.span)
  | .swizzle i b s =>
    exprInfo 12 i ++ [ofUInt32 s.count] ++ s.all.map ofUInt32 ++ expr b
  | .call i t as => exprInfo 13 i ++ expr t ++ [length as] ++ exprs as
  | .method i o n as => exprInfo 14 i ++ [.text n] ++ expr o ++ [length as] ++ exprs as
  | .intrinsic i f as => exprInfo 15 i ++ [.byte f.code, length as] ++ exprs as
  | .function i id => exprInfo 16 i ++ [.int id]
  | .intrinsicRef i f => exprInfo 17 i ++ [.byte f.code]
  | .structRef i id => exprInfo 18 i ++ [.int id]
  | .typeRef i t => exprInfo 19 i ++ type t

def exprs : List Expr → List Piece
  | [] => []
  | e :: es => expr e ++ exprs es

end

/-- An attribute: whether its value is known, the value if it is, and its expression. -/
def attr {α : Type} (put : α → List Piece) (a : Attr α) : List Piece :=
  match a.value with
  | some v => ofBool true :: (put v ++ expr a.expr)
  | none => ofBool false :: expr a.expr

def bool (b : Bool) : List Piece := [ofBool b]
def uint32 (n : UInt32) : List Piece := [ofUInt32 n]

def structMember (m : StructMember) : List Piece :=
  span m.span ++ [.text m.name] ++ expr m.type ++ attr (fun b => [.byte b.code]) m.builtin ++
  attr uint32 m.location ++ expr m.cond

def param (p : FnParam) : List Piece :=
  span p.span ++ [.text p.name, .int p.id] ++ expr p.type

def external (v : External) : List Piece :=
  span v.span ++ [.text v.name, .int v.id] ++ expr v.type ++ attr uint32 v.set ++ attr uint32 v.binding

def importItem (i : ImportItem) : List Piece := span i.span ++ [.text i.name, .text i.rename]

def sizes (w : UInt32 × UInt32 × UInt32) : List Piece :=
  [ofUInt32 w.1, ofUInt32 w.2.1, ofUInt32 w.2.2]

def unroll (u : Attr Unroll) : List Piece := attr (fun x => [.byte x.code]) u

def head (h : FnHead) : List Piece :=
  [.text h.name, .int h.id, length h.params] ++ h.params.flatMap param ++ expr h.result ++
  attr (fun s => [.byte s.code]) h.stage ++ attr bool h.earlyTests ++
  attr (fun d => [.byte d.code]) h.depthWrite ++ attr sizes h.workgroup ++ attr bool h.exported

mutual

def stmt : Stmt → List Piece
  | .absent => [.byte 0]
  | .expr s e => .byte 1 :: (span s ++ expr e)
  | .letVar s d => .byte 2 :: (span s ++ [.text d.name, .int d.id] ++ expr d.type ++ expr d.init)
  | .const s d =>
    .byte 3 :: (span s ++ [.text d.name, .int d.id] ++ attr bool d.exported ++ expr d.type ++ expr d.value)
  | .alias s d =>
    .byte 4 :: (span s ++ [.text d.name, .int d.id] ++ attr bool d.exported ++ expr d.target)
  | .option s d => .byte 5 :: (span s ++ [.text d.name, .int d.id] ++ expr d.type ++ expr d.default)
  | .struct s d =>
    .byte 6 :: (span s ++ [.text d.name, .int d.id] ++ attr bool d.exported ++
      attr (fun l => [.byte l.code]) d.layout ++ [length d.members] ++ d.members.flatMap structMember)
  | .function s h body => .byte 7 :: (span s ++ head h ++ [length body] ++ stmts body)
  | .external s set vars =>
    .byte 8 :: (span s ++ attr uint32 set ++ [length vars] ++ vars.flatMap external)
  | .branch s isConst as other =>
    .byte 9 :: (span s ++ [ofBool isConst, length as] ++ arms as ++ stmt other)
  | .conditional s c body => .byte 10 :: (span s ++ expr c ++ stmt body)
  | .forRange s h body =>
    .byte 11 :: (span s ++ [.text h.name, .int h.id] ++ unroll h.unroll ++ expr h.start ++ expr h.stop ++
      expr h.step ++ stmt body)
  | .forEach s h body =>
    .byte 12 :: (span s ++ [.text h.name, .int h.id] ++ unroll h.unroll ++ expr h.array ++ stmt body)
  | .loop s c u body => .byte 13 :: (span s ++ unroll u ++ expr c ++ stmt body)
  | .returnWith s e => .byte 14 :: (span s ++ expr e)
  | .discard s => .byte 15 :: span s
  | .breakLoop s => .byte 16 :: span s
  | .continueLoop s => .byte 17 :: span s
  | .importFrom s name items =>
    .byte 18 :: (span s ++ [.text name, length items] ++ items.flatMap importItem)
  | .multi s body => .byte 19 :: (span s ++ [length body] ++ stmts body)
  | .scoped s body => .byte 20 :: (span s ++ stmt body)
  | .noOp s => .byte 21 :: span s

def stmts : List Stmt → List Piece
  | [] => []
  | s :: ss => stmt s ++ stmts ss

def arms : List (Expr × Stmt) → List Piece
  | [] => []
  | (c, s) :: as => expr c ++ stmt s ++ arms as

end

def metadata (m : Option Metadata) : List Piece :=
  match m with
  | none => [ofBool false]
  | some d =>
    [ofBool true, .text d.name, ofUInt32 d.version, .text d.author, .text d.description,
     .text d.license, length d.imports] ++ d.imports.map .text

mutual

def moduleTree : Module → List Piece
  | ⟨m, is, root⟩ =>
    metadata m ++ [length is] ++ imports is ++
    match root with
    | some b => stmt b.toStmt
    | none => [.byte 0]

def imports : List (Text × Module) → List Piece
  | [] => []
  | (name, m) :: ms => .text name :: (moduleTree m ++ imports ms)

end

end Shading.Wire.Encoder

namespace Shading

/-- Why there is no binary form. -/
inductive EncodeError
  | noModule
deriving DecidableEq, Repr

def EncodeError.message : EncodeError → Text
  | .noModule => "serialize: nil module"

namespace Module

/-- The binary form of a module. -/
def encode (m : Module) : Text :=
  let ps := Wire.Encoder.moduleTree m
  let table := Wire.tableOf ps
  Wire.magic ++ Wire.uvarint Wire.formatVersion ++ Wire.uvarint table.length ++
    table.flatMap (fun t => Wire.uvarint t.length ++ t) ++ ps.flatMap (Wire.Piece.render table)

/-- The binary form of a module, if there is one. -/
def encoded (m : Option Module) : Except EncodeError Text :=
  m.elim (.error .noModule) fun m => .ok m.encode

end Module

end Shading
