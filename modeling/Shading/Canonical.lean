import Shading.Literal
import Shading.Module
import Shading.Swizzle

/-! Canonical source text: tab indentation, braces on lines of their own, attributes in a fixed order.
References by number are written with the names of their declarations. -/
namespace Shading

/-- Why a module has no source text. -/
inductive WriteError
  | emptyModule
  | notDeclaration (s : Text)
  | notStatement (s : Text)
  | unknownOperator (op : BinaryOp)
  | methodWithoutObject (i : Intrinsic)
  | missingExpression
  | undeclared (what : Text) (id : Int)
  | memberIndex (struct : Text)
  | voidType
  | functionType (t : Ty)

namespace WriteError

def message : WriteError → Text
  | .emptyModule => "serialize: empty module"
  | .notDeclaration s => "serialize: " ++ s ++ " is not a top-level declaration"
  | .notStatement s => "serialize: " ++ s ++ " cannot appear in a function body"
  | .unknownOperator op => "serialize: unknown binary operator " ++ op.text
  | .methodWithoutObject i => "serialize: method " ++ i.text ++ " has no object"
  | .missingExpression => "serialize: missing expression"
  | .undeclared what id => "serialize: " ++ what ++ " #" ++ Text.ofInt id ++ " has no declaration"
  | .memberIndex s => "serialize: invalid member index of struct " ++ s
  | .voidType => "serialize: void has no source spelling"
  | .functionType t => "serialize: function type " ++ t.text ++ " has no source spelling"

end WriteError

/-- A statement's form as it is named in messages. -/
def Stmt.described (s : Stmt) : Text := if s.isAbsent then s.form else "*ast." ++ s.form

namespace Canonical

/-- The names of the declarations by number; the first entry for a number counts. -/
structure Names where
  vars : List (Int × Text) := []
  constants : List (Int × Text) := []
  functions : List (Int × Text) := []
  structs : List (Int × Text) := []

namespace Names

/-- Takes up the names that a statement declares; they take precedence over older ones. -/
def declare (n : Names) : Stmt → Names
  | .letVar _ d => { n with vars := (d.id, d.name) :: n.vars }
  | .forRange _ h _ => { n with vars := (h.id, h.name) :: n.vars }
  | .forEach _ h _ => { n with vars := (h.id, h.name) :: n.vars }
  | .const _ d => { n with constants := (d.id, d.name) :: n.constants }
  | .option _ d => { n with constants := (d.id, d.name) :: n.constants }
  | .struct _ d => { n with structs := (d.id, d.name) :: n.structs }
  | .function _ h _ =>
    { n with
      functions := (h.id, h.name) :: n.functions
      vars := h.params.foldl (fun vs p => (p.id, p.name) :: vs) n.vars }
  | .external _ _ vars =>
    { n with vars := vars.foldl (fun vs v => (v.id, v.name) :: vs) n.vars }
  | _ => n

/-- The names that a module and those that it imports declare. -/
def ofModule (m : Module) : Names :=
  (m.imported.map (·.2) ++ [m]).foldl
    (fun n x => (x.rootStmt.nodes.filterMap Node.stmt?).foldl declare n) {}

def get (names : List (Int × Text)) (id : Int) (what : Text) : Except WriteError Text :=
  match names.find? (·.1 == id) with
  | some (_, name) => .ok name
  | none => .error (.undeclared what id)

end Names

/-- How tightly a binary operator binds; the parser goes by the same levels. -/
def level? : BinaryOp → Option Nat
  | .or => some 1
  | .and => some 2
  | .bitOr => some 3
  | .bitXor => some 4
  | .bitAnd => some 5
  | .eq | .ne => some 6
  | .lt | .le | .gt | .ge => some 7
  | .shiftLeft | .shiftRight => some 8
  | .add | .sub => some 9
  | .mul | .div | .mod => some 10
  | .reserved .. => none

/-- The level of an operand of a unary operator. -/
def unaryLevel : Nat := 11

/-- The level of what a call, an index or a member follows. -/
def postfixLevel : Nat := 12

/-- Puts parentheses around a text where the context needs them. -/
def wrap (needed : Bool) (t : Text) : Text := if needed then "(" ++ t ++ ")" else t

/-- The spelling of a known type. -/
def typeName (n : Names) : Ty → Except WriteError Text
  | .unknown | .void => .error .voidType
  | .func i name ps r => .error (.functionType (.func i name ps r))
  | .intrinsic i => .error (.functionType (.intrinsic i))
  | .struct r =>
    match n.structs.find? (·.1 == r.id) with
    | some (_, name) => .ok name
    | none => .ok r.name
  | t => .ok t.text

/-- The number that a literal stands for. -/
def literalIndex? : Expr → Option Int
  | .literal _ v => v.toInt?
  | _ => none

def isName : Expr → Bool
  | .name .. => true
  | _ => false

def isUnary : Expr → Bool
  | .unary .. => true
  | _ => false

mutual

/-- An expression in a context that binds as tightly as the given level. -/
def expr (n : Names) (level : Nat) : Expr → Except WriteError Text
  | .absent => .error .missingExpression
  | .name _ name => .ok name
  | .var _ id => Names.get n.vars id "variable"
  | .const _ id => Names.get n.constants id "constant"
  | .function _ id => Names.get n.functions id "function"
  | .structRef _ id => Names.get n.structs id "struct"
  | .intrinsicRef _ i => .ok i.text
  | .typeRef _ t => typeName n t
  | .literal _ v =>
    let t := v.text
    .ok (wrap (t.head? == some (Text.byte '-') && unaryLevel ≤ level) t)
  | .binary _ op l r =>
    match level? op with
    | none => .error (.unknownOperator op)
    | some own => do
      let left ← expr n own l
      let right ← expr n (own + 1) r
      return wrap (own < level) (left ++ " " ++ op.text ++ " " ++ right)
  | .unary _ op e => do
    let operand ← expr n unaryLevel e
    return wrap (unaryLevel < level) (op.text ++ wrap (isUnary e) operand)
  | .assign _ op l r => do
    let left ← expr n unaryLevel l
    let right ← expr n 0 r
    return wrap (0 < level) (left ++ " " ++ op.text ++ " " ++ right)
  | .ternary _ c t f => do
    let cond ← expr n 1 c
    let yes ← expr n 0 t
    let no ← expr n 0 f
    return wrap (0 < level) (cond ++ " ? " ++ yes ++ " : " ++ no)
  | .cast _ t args => do
    let target ← expr n postfixLevel t
    let given ← exprs n args
    return target ++ "(" ++ Text.join ", " given ++ ")"
  | .call _ t args => do
    let target ← expr n postfixLevel t
    let given ← exprs n args
    return target ++ "(" ++ Text.join ", " given ++ ")"
  | .method _ o name args => do
    let object ← expr n postfixLevel o
    let given ← exprs n args
    return object ++ "." ++ name ++ "(" ++ Text.join ", " given ++ ")"
  | .intrinsic _ i args =>
    if i.isMethod then
      match args with
      | [] => .error (.methodWithoutObject i)
      | o :: rest => do
        let object ← expr n postfixLevel o
        let given ← exprs n rest
        return object ++ "." ++ i.text ++ "(" ++ Text.join ", " given ++ ")"
    else do
      let given ← exprs n args
      return i.text ++ "(" ++ Text.join ", " given ++ ")"
  | .swizzle _ b s => do
    let base ← expr n postfixLevel b
    return base ++ "." ++ Swizzle.text s.components
  | .member _ b names => do
    let base ← expr n postfixLevel b
    return base ++ names.flatMap (fun x => Text.byte '.' :: x.text)
  | .index _ b indices => do
    let base ← expr n postfixLevel b
    if isName b then
      let given ← exprs n indices
      return base ++ "[" ++ Text.join ", " given ++ "]"
    else
      let chain ← indexChain n b.type indices
      return base ++ chain

def exprs (n : Names) : List Expr → Except WriteError (List Text)
  | [] => .ok []
  | e :: es => do
    let t ← expr n 0 e
    let ts ← exprs n es
    return t :: ts

/-- The indices of a value of a type: members by name, and all else in brackets. -/
def indexChain (n : Names) (t : Ty) : List Expr → Except WriteError Text
  | [] => .ok []
  | e :: es =>
    match t.container? with
    | some r =>
      match (literalIndex? e).bind fun i => if i < 0 then none else r.members[i.toNat]? with
      | some (name, type) => do
        let rest ← indexChain n type es
        return "." ++ name ++ rest
      | none => .error (.memberIndex r.name)
    | none => do
      let i ← expr n 0 e
      let rest ← indexChain n t.element es
      return "[" ++ i ++ "]" ++ rest

end

/-- Lines one step further in. -/
def indent (lines : List Text) : List Text := lines.map fun l => Text.byte '\t' :: l

def braces (lines : List Text) : List Text :=
  Text.ofString "\x7b" :: (indent lines ++ [Text.ofString "\x7d"])

/-- An attribute list on a line of its own, if there are attributes. -/
def attributeLine (attrs : List Text) : List Text :=
  if attrs.isEmpty then [] else ["[" ++ Text.join ", " attrs ++ "]"]

/-- A declaration with its attributes in front. -/
def attributed (attrs : List Text) (t : Text) : Text :=
  if attrs.isEmpty then t else "[" ++ Text.join ", " attrs ++ "] " ++ t

section

variable (n : Names)

/-- An attribute with its argument, as it was written or as its value is spelled. -/
def attr {α : Type} (name : Text) (a : Attr α) (spell : α → Text) :
    Except WriteError (List Text) :=
  match a.expr, a.value with
  | .absent, none => .ok []
  | .absent, some v => .ok [name ++ "(" ++ spell v ++ ")"]
  | e, _ => do
    let t ← expr n 0 e
    return [name ++ "(" ++ t ++ ")"]

/-- An attribute that is true without an argument. -/
def flag (name : Text) (a : Attr Bool) : Except WriteError (List Text) :=
  match a.expr, a.value with
  | .absent, some true => .ok [name]
  | _, _ => attr n name a Text.ofBool

def ofUInt32 (v : UInt32) : Text := Text.ofNat v.toNat

/-- Workgroup sizes, without the vector that they are gathered in. -/
def workgroup (a : Attr (UInt32 × UInt32 × UInt32)) : Except WriteError (List Text) :=
  match a.expr, a.value with
  | .absent, none => .ok []
  | .absent, some (x, y, z) =>
    .ok ["workgroup(" ++ Text.join ", " [ofUInt32 x, ofUInt32 y, ofUInt32 z] ++ ")"]
  | e, _ => do
    let sizes ← exprs n (match e with | .call _ _ args => args | e => [e])
    return ["workgroup(" ++ Text.join ", " sizes ++ ")"]

/-- An expression after a mark, if there is one. -/
def optional (mark : Text) (e : Expr) : Except WriteError Text :=
  if e.isAbsent then .ok [] else do return mark ++ (← expr n 0 e)

def constant (d : ConstDecl) : Except WriteError Text := do
  let type ← optional n ": " d.type
  let value ← expr n 0 d.value
  return "const " ++ d.name ++ type ++ " = " ++ value ++ ";"

mutual

/-- The lines of a statement. Directly inside braces, a scope needs no braces of its own. -/
def lines (inBraces : Bool) : Stmt → Except WriteError (List Text)
  | .expr _ e => do return [(← expr n 0 e) ++ ";"]
  | .letVar _ d => do
    let type ← optional n ": " d.type
    let init ← optional n " = " d.init
    return ["let " ++ d.name ++ type ++ init ++ ";"]
  | .const _ d => do return [← constant n d]
  | .multi _ body => allLines body
  | .scoped _ s => do
    let inner ← lines false s
    return if inBraces then inner else braces inner
  | .branch _ isConst arms other => do
    let front ← armLines (if isConst then "const if" else "if") arms
    match other with
    | .absent => return front
    | s => do
      let inner ← lines true s
      return front ++ (Text.ofString "else" :: braces inner)
  | .forRange _ h body => do
    let attrs ← attr n "unroll" h.unroll Unroll.text
    let start ← expr n 0 h.start
    let stop ← expr n 0 h.stop
    let step ← optional n " : " h.step
    let inner ← lines true body
    return attributeLine attrs ++
      (("for " ++ h.name ++ " in " ++ start ++ " -> " ++ stop ++ step) :: braces inner)
  | .forEach _ h body => do
    let attrs ← attr n "unroll" h.unroll Unroll.text
    let array ← expr n 0 h.array
    let inner ← lines true body
    return attributeLine attrs ++ (("for " ++ h.name ++ " in " ++ array) :: braces inner)
  | .loop _ c unroll body => do
    let attrs ← attr n "unroll" unroll Unroll.text
    let cond ← expr n 0 c
    let inner ← lines true body
    return attributeLine attrs ++ (("while (" ++ cond ++ ")") :: braces inner)
  | .returnWith _ e => do
    let value ← optional n " " e
    return ["return" ++ value ++ ";"]
  | .discard _ => .ok ["discard;"]
  | .breakLoop _ => .ok ["break;"]
  | .continueLoop _ => .ok ["continue;"]
  | .noOp _ => .ok [";"]
  | s => .error (.notStatement s.described)

def allLines : List Stmt → Except WriteError (List Text)
  | [] => .ok []
  | s :: ss => do
    let front ← lines false s
    let rest ← allLines ss
    return front ++ rest

/-- The arms of a chain of conditions, the first of which has the given keyword. -/
def armLines (keyword : Text) : List (Expr × Stmt) → Except WriteError (List Text)
  | [] => .ok []
  | (c, s) :: arms => do
    let cond ← expr n 0 c
    let inner ← lines true s
    let rest ← armLines "else if" arms
    return (keyword ++ " (" ++ cond ++ ")") :: (braces inner ++ rest)

end

def importLine (name : Text) (items : List ImportItem) : Text :=
  let item (i : ImportItem) : Text := if i.rename.isEmpty then i.name else i.name ++ " as " ++ i.rename
  if items.isEmpty then "import " ++ name ++ ";"
  else "import " ++ Text.join ", " (items.map item) ++ " from " ++ name ++ ";"

/-- Adds a comma to all lines but the last. -/
def separated : List Text → List Text
  | [] => []
  | [t] => [t]
  | t :: ts => (t ++ ",") :: separated ts

def structMember (m : StructMember) : Except WriteError Text := do
  let cond ← if m.cond.isAbsent then pure [] else do pure ["cond(" ++ (← expr n 0 m.cond) ++ ")"]
  let builtin ← attr n "builtin" m.builtin Builtin.text
  let location ← attr n "location" m.location ofUInt32
  let type ← expr n 0 m.type
  return attributed (cond ++ builtin ++ location) (m.name ++ ": " ++ type)

def externalVar (v : External) : Except WriteError Text := do
  let set ← attr n "set" v.set ofUInt32
  let binding ← attr n "binding" v.binding ofUInt32
  let type ← expr n 0 v.type
  return attributed (set ++ binding) (v.name ++ ": " ++ type)

/-- Does the expression stand for the lack of a result? -/
def isVoidType : Expr → Bool
  | .typeRef _ t => t.isVoid
  | _ => false

def functionLines (h : FnHead) (attrs : List Text) (body : List Stmt) :
    Except WriteError (List Text) := do
  let entry ← attr n "entry" h.stage Stage.text
  let group ← workgroup n h.workgroup
  let early ← flag n "early_fragment_tests" h.earlyTests
  let depth ← attr n "depth_write" h.depthWrite DepthWrite.text
  let exported ← flag n "export" h.exported
  let params ← h.params.mapM fun p => do return p.name ++ ": " ++ (← expr n 0 p.type)
  let result ← if isVoidType h.result then pure [] else optional n " -> " h.result
  let inner ← allLines n body
  return attributeLine (attrs ++ entry ++ group ++ early ++ depth ++ exported) ++
    (("fn " ++ h.name ++ "(" ++ Text.join ", " params ++ ")" ++ result) :: braces inner)

mutual

/-- The lines of a declaration, with attributes of conditions around it in front. -/
def declaration (attrs : List Text) : Stmt → Except WriteError (List Text)
  | .conditional _ c s => do
    let cond ← expr n 0 c
    declaration (attrs ++ ["cond(" ++ cond ++ ")"]) s
  | .importFrom _ name items => .ok (attributeLine attrs ++ [importLine name items])
  | .option _ d => do
    let type ← expr n 0 d.type
    let default ← optional n " = " d.default
    return attributeLine attrs ++ ["option " ++ d.name ++ ": " ++ type ++ default ++ ";"]
  | .const _ d => do
    let exported ← flag n "export" d.exported
    let line ← constant n d
    return attributeLine (attrs ++ exported) ++ [line]
  | .alias _ d => do
    let exported ← flag n "export" d.exported
    let target ← expr n 0 d.target
    return attributeLine (attrs ++ exported) ++ ["alias " ++ d.name ++ " = " ++ target ++ ";"]
  | .struct _ d => do
    let exported ← flag n "export" d.exported
    let layout ← attr n "layout" d.layout Layout.text
    let members ← d.members.mapM (structMember n)
    return attributeLine (attrs ++ exported ++ layout) ++
      (("struct " ++ d.name) :: braces (separated members))
  | .external _ set vars => do
    let setAttr ← attr n "set" set ofUInt32
    let members ← vars.mapM (externalVar n)
    return attributeLine (attrs ++ setAttr) ++ (Text.ofString "external" :: braces (separated members))
  | .function _ h body => functionLines n h attrs body
  | .multi _ body => declarations attrs true body
  | s => .error (.notDeclaration s.described)

/-- Declarations with empty lines between them. -/
def declarations (attrs : List Text) (first : Bool) : List Stmt → Except WriteError (List Text)
  | [] => .ok []
  | s :: ss => do
    let front ← declaration attrs s
    let rest ← declarations attrs false ss
    return (if first then front else [] :: front) ++ rest

end

/-- May a declaration follow another one without an empty line? -/
def sameGroup : Stmt → Stmt → Bool
  | .importFrom .., .importFrom .. => true
  | .option .., .option .. => true
  | .const .., .const .. => true
  | .alias .., .alias .. => true
  | _, _ => false

/-- The lines of top-level statements. Empty statements are left out. -/
def topLines (previous : Stmt) : List Stmt → Except WriteError (List Text)
  | [] => .ok []
  | .noOp _ :: ss => topLines previous ss
  | s :: ss => do
    let front ← declaration n [] s
    let rest ← topLines s ss
    return (if sameGroup previous s then front else [] :: front) ++ rest

end

/-- The lines of a module's head. -/
def headLines (m : Metadata) : List Text :=
  let version := Text.ofNat (m.version.toNat / 100) ++ "." ++ Text.ofNat (m.version.toNat % 100)
  let quoted (name t : Text) : List Text :=
    if t.isEmpty then [] else [name ++ "(" ++ Literal.quote t ++ ")"]
  let attrs := ["nzsl_version(" ++ Literal.quote version ++ ")"] ++ quoted "author" m.author ++
    quoted "desc" m.description ++ quoted "license" m.license
  let name : Text := if m.name.isEmpty then [] else " " ++ m.name
  attributeLine attrs ++ ["module" ++ name ++ ";"]

end Canonical

namespace Module

/-- The canonical source text of a module. -/
def canonicalText (m : Option Module) : Except WriteError Text := do
  let some m := m | throw .emptyModule
  let some root := m.root | throw .emptyModule
  let n := Canonical.Names.ofModule m
  let body ← Canonical.topLines n .absent root.body
  let lines := Canonical.headLines (m.metadata.getD {}) ++ body
  return lines.flatMap fun l => l ++ "\n"

end Module

end Shading
