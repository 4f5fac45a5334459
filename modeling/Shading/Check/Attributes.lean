import Shading.Check.Expression

/-! Checking the attributes of declarations. -/
namespace Shading.Check

/-- The name that an attribute is given, which is not looked up. -/
def nameArgument : Expr → Check Text
  | .name _ n => return n
  | e => reject e.span .identifierExpected

/-- The value of an attribute's argument. -/
def constantArgument (e : Expr) (what : Text) : Check Value := do
  constantOf e.span what (← expression e)

/-- Resolves an attribute whose argument is one of several names. -/
def choice {α : Type} (a : Attr α) (ofName? : Text → Option α) (unknown : Text → Rejection) :
    Check (Attr α) := do
  if a.expr.isAbsent then return a
  let name ← nameArgument a.expr
  match ofName? name with
  | some v => return .known v
  | none => reject a.expr.span (unknown name)

def stageAttr (a : Attr Stage) : Check (Attr Stage) := choice a Stage.ofName? .unknownStage

def depthWriteAttr (a : Attr DepthWrite) : Check (Attr DepthWrite) :=
  choice a DepthWrite.ofName? .unknownDepthWrite

def layoutAttr (a : Attr Layout) : Check (Attr Layout) := choice a Layout.ofName? .unknownLayout

def builtinAttr (a : Attr Builtin) : Check (Attr Builtin) := choice a Builtin.ofName? .unknownBuiltin

def unrollAttr (a : Attr Unroll) : Check (Attr Unroll) := choice a Unroll.ofName? .unknownUnroll

def boolAttr (a : Attr Bool) : Check (Attr Bool) := do
  if a.expr.isAbsent then return a
  match ← constantArgument a.expr "attribute value" with
  | .bool b => return .known b
  | v => reject a.expr.span (.notBoolean v.type)

def unsignedAttr (a : Attr UInt32) (what : Text) : Check (Attr UInt32) := do
  if a.expr.isAbsent then return a
  return .known (← unsignedOf a.expr.span what (← expression a.expr))

/-- Adds the components of one size to those that are known already. -/
def addSizes (span : Span) : List Value → List UInt32 → Check (List UInt32)
  | [], sizes => return sizes
  | v :: vs, sizes => do
    match v.toInt? with
    | some n =>
      if n ≤ 0 then reject span (.workgroupSize v)
      if 3 ≤ sizes.length then reject span .workgroupCount
      addSizes span vs (sizes ++ [n.toNat.toUInt32])
    | none => reject span (.workgroupSize v)

def workgroupSizes : List Expr → List UInt32 → Check (List UInt32)
  | [], sizes => return sizes
  | e :: es, sizes => do
    let components := match ← constantArgument e "workgroup size" with
      | .vector cs => cs
      | v => [v]
    workgroupSizes es (← addSizes e.span components sizes)

/-- The sizes of a workgroup; those that are not given are one. -/
def workgroupAttr (a : Attr (UInt32 × UInt32 × UInt32)) : Check (Attr (UInt32 × UInt32 × UInt32)) := do
  if a.expr.isAbsent then return a
  let sizes ← match a.expr with
    | .call _ _ args => workgroupSizes args []
    | e => workgroupSizes [e] []
  return .known (sizes.getD 0 1, sizes.getD 1 1, sizes.getD 2 1)

/-- Resolves the attributes of a function and checks that they go together. -/
def functionAttributes (span : Span) (h : FnHead) : Check FnHead := do
  let stage ← stageAttr h.stage
  let earlyTests ← boolAttr h.earlyTests
  let depthWrite ← depthWriteAttr h.depthWrite
  let workgroup ← workgroupAttr h.workgroup
  let exported ← boolAttr h.exported
  let h := { h with stage, earlyTests, depthWrite, workgroup, exported }
  if earlyTests.value.isSome && stage.value != some .fragment then
    reject span (.onlyOn "early_fragment_tests" "fragment")
  if depthWrite.value.isSome && stage.value != some .fragment then
    reject span (.onlyOn "depth_write" "fragment")
  if workgroup.value.isSome && stage.value != some .compute then
    reject span (.onlyOn "workgroup" "compute")
  if stage.value == some .compute && workgroup.value.isNone then
    reject span (.missingWorkgroup h.name)
  return h

end Shading.Check
