import Shading.Check.Declaration

/-! Checking statements. -/
namespace Shading.Check

/-- Provides an imported module with its symbols, or none if it is missing and may be. -/
abbrev Loader := Text → Span → Check (Option Exported)

def declareItems (moduleName : Text) (symbols : List (Text × Binding)) :
    List ImportItem → Check Unit
  | [] => return
  | item :: items => do
    let found := symbols.filter (·.1 == item.name)
    if found.isEmpty then reject item.span (.notExported moduleName item.name)
    let name := if item.rename.isEmpty then item.name else item.rename
    found.forM fun s => declare name item.span s.2
    declareItems moduleName symbols items

/-- Declares what an import brings. Without a list of items it brings all symbols in the order of their
names. -/
def importSymbols (load : Loader) (span : Span) (moduleName : Text) (items : List ImportItem) :
    Check Unit := do
  requireModuleScope span "imports"
  match ← load moduleName span with
  | none =>
    if items.isEmpty then modifyDraft fun d => { d with wildcard := true }
    items.forM fun item =>
      declare (if item.rename.isEmpty then item.name else item.rename) item.span .unresolved
  | some m =>
    modifyDraft fun d =>
      if d.imports.any (·.1 == moduleName) then d
      else { d with imports := d.imports ++ [(moduleName, m.result)] }
    if items.isEmpty then
      let sorted := m.symbols.mergeSort fun a b => !b.1.before a.1
      sorted.forM fun s => declare s.1 span s.2
    else declareItems moduleName m.symbols items

/-- A condition that has to be constant once all options are known, and its value if it is known. -/
def constantCondition (cond : Expr) : Check (Option Bool) := do
  if !cond.type.isKnown then return none
  if !cond.type.isBool then reject cond.span (.conditionType cond.type)
  match ← evaluateWithDefaults cond with
  | .error _ => reject cond.span .conditionNotConstant
  | .ok _ =>
    match ← evaluate cond with
    | .ok (.bool b) => return some b
    | _ => return none

/-- A statement inside another one. What has to stand before it is put in a scope together with it. -/
def nested (span : Span) (act : Check (Option Stmt)) : Check Stmt := do
  let (pending, result) ← collecting act
  let s := result.getD (.noOp span)
  return if pending.isEmpty then s else .block span (pending ++ [s])

def nestedScoped (span : Span) (act : Check (Option Stmt)) : Check Stmt := inScope (nested span act)

/-- A statement that may be left out. -/
def unlessAbsent (s : Stmt) (act : Check Stmt) : Check Stmt := if s.isAbsent then return .absent else act

def checkBound (t : Ty) (e : Expr) : Check Unit := do
  if e.isPresent && e.type.isKnown && !e.type.same t then reject e.span (.rangeBoundType e.type t)

/-- The head of a loop over a range with the type of its counter. -/
def rangeHead (h : RangeHead) : Check (RangeHead × Ty) := do
  let start ← expression h.start
  let stop ← expression h.stop
  let step ← if h.step.isAbsent then pure h.step else expression h.step
  let unroll ← unrollAttr h.unroll
  let t := start.type
  if t.isKnown then
    if !(t.isPrim .i32 || t.isPrim .u32) then reject start.span (.rangeType t)
    checkBound t stop
    checkBound t step
  return ({ h with start, stop, step, unroll }, t)

/-- The head of a loop over an array with the type of its elements. -/
def eachHead (h : EachHead) : Check (EachHead × Ty) := do
  let array ← expression h.array
  let unroll ← unrollAttr h.unroll
  match array.type with
  | .unknown => return ({ h with array, unroll }, .unknown)
  | .array elem _ => return ({ h with array, unroll }, elem)
  | t => reject array.span (.eachType t)

/-- Takes numbers and names for the variables that a lowering makes. -/
def supplied {α : Type} (act : StateM Supply α) : Check α := do
  let s ← get
  let (a, supply) := act.run ⟨s.session.nextVar, s.draft.temporaries⟩
  modifySession fun s => { s with nextVar := supply.nextVar }
  modifyDraft fun d => { d with temporaries := supply.temporaries }
  return a

def rangeLoop (span : Span) (h : RangeHead) (t : Ty) (body : Stmt) : Check Stmt := do
  match t with
  | .prim p =>
    if (← read).settings.reduceLoops then supplied (Stmt.reduceRange span h p body)
    else return .forRange span h body
  | _ => return .forRange span h body

def eachLoop (span : Span) (h : EachHead) (body : Stmt) : Check Stmt := do
  match h.array.type with
  | .array elem n =>
    if (← read).settings.reduceLoops then supplied (Stmt.reduceEach span h elem n body)
    else return .forEach span h body
  | _ => return .forEach span h body

/-- A result has to fit the function that it is returned from. -/
def returned (span : Span) (f : Function) (e : Expr) : Check Expr := do
  if !f.result.isKnown then return ← if e.isAbsent then pure e else expression e
  if e.isAbsent then
    if !f.result.isVoid then reject span (.missingResult f.name f.result)
    return e
  let e ← expression e
  if f.result.isVoid then reject e.span (.superfluousResult f.name)
  if e.type.isKnown && !e.type.same f.result then
    reject e.span (.resultType f.name f.result e.type)
  return e

/-- The first arm whose condition holds, if the conditions are all known: its position or, if none
holds, the number of arms. -/
def selectedArm? (conds : List (Option Bool)) : Option Nat :=
  if conds.all Option.isSome then some (conds.findIdx (· == some true)) else none

/-- Checks the conditions of all arms before any of their bodies. -/
def constantConditions : List (Expr × Stmt) → Check (List (Expr × Option Bool))
  | [] => return []
  | (c, _) :: arms => do
    let c ← expression c
    let known ← constantCondition c
    return (c, known) :: (← constantConditions arms)

/-- Some statements stand inside functions only. -/
def requireFunction (span : Span) : Check Function := do
  match (← read).function with
  | some f => return f
  | none => reject span .outsideFunction

def requireLoop (span : Span) (r : Rejection) : Check Unit := do
  if !(← read).inLoop then reject span r

def unknownSite (s : Site) : Site := { s with conditional := true }

def loopSite (s : Site) : Site := { s with inLoop := true }

mutual

/-- Checks a statement. One that is not there under its constant condition has no result. -/
def statement (load : Loader) : Stmt → Check (Option Stmt)
  | .importFrom span name items => do
    importSymbols load span name items
    return some (.importFrom span name items)
  | .option span d => return some (.option span (← declareOption span d))
  | .const span d => return some (.const span (← declareConst span d))
  | .alias span d => return some (.alias span (← declareAlias span d))
  | .struct span d => return some (.struct span (← declareStruct span d))
  | .external span set vars => do
    let (set, vars) ← declareExternals span set vars
    return some (.external span set vars)
  | .function span h body => do
    let (h, f) ← declareFunction span h
    withReader (fun s => { s with function := some f }) <| inScope do
      let params ← declareParams h.params f.params
      let body ← statements load body
      let h := { h with params }
      if h.isEntry then checkEntryPoint span h f
      return some (.function span h body)
  | .conditional span cond body => do
    let cond ← expression cond
    match ← constantCondition cond with
    | some true => statement load body
    | some false => return none
    | none =>
      let body ← withReader unknownSite (statement load body)
      return body.map (.conditional span cond)
  | .multi span body => return some (.multi span (← statements load body))
  | .noOp span => return some (.noOp span)
  | .scoped span body => do
    let _ ← requireFunction span
    let body ← nestedScoped body.span (statement load body)
    return some (.scoped span body)
  | .expr span e => do
    let _ ← requireFunction span
    return some (.expr span (← expression e))
  | .letVar span d => do
    let _ ← requireFunction span
    return some (.letVar span (← declareVariable span d))
  | .branch span false arms otherwise => do
    let _ ← requireFunction span
    let arms ← branchArms load arms
    let otherwise ← unlessAbsent otherwise (nestedScoped otherwise.span (statement load otherwise))
    if (← read).settings.splitBranches then return some (.splitBranch span false arms otherwise)
    return some (.branch span false arms otherwise)
  | .branch span true arms otherwise => do
    let _ ← requireFunction span
    let conds ← constantConditions arms
    match selectedArm? (conds.map (·.2)) with
    | some n =>
      if n < arms.length then selectedBody load n arms
      else if otherwise.isAbsent then return none
      else return some (← nestedScoped otherwise.span (statement load otherwise))
    | none => withReader unknownSite do
      let bodies ← armBodies load arms
      let otherwise ← unlessAbsent otherwise (nestedScoped otherwise.span (statement load otherwise))
      return some (.branch span true ((conds.map (·.1)).zip bodies) otherwise)
  | .loop span cond unroll body => do
    let _ ← requireFunction span
    let cond ← withReader (fun s => { s with hoisting := false }) do
      let cond ← expression cond
      requireBool "while" cond
      pure cond
    let unroll ← unrollAttr unroll
    let body ← withReader loopSite (nestedScoped body.span (statement load body))
    return some (.loop span cond unroll body)
  | .forRange span h body => do
    let _ ← requireFunction span
    let (head, t) ← rangeHead h
    let (id, body) ← inScope do
      let id ← variableId h.id
      let _ ← declareLocal h.name id t
      let body ← withReader loopSite (nested body.span (statement load body))
      pure (id, body)
    return some (← rangeLoop span { head with id } t body)
  | .forEach span h body => do
    let _ ← requireFunction span
    let (head, t) ← eachHead h
    let (id, body) ← inScope do
      let id ← variableId h.id
      let _ ← declareLocal h.name id t
      let body ← withReader loopSite (nested body.span (statement load body))
      pure (id, body)
    return some (← eachLoop span { head with id } body)
  | .returnWith span e => do
    let f ← requireFunction span
    return some (.returnWith span (← returned span f e))
  | .discard span => do
    let _ ← requireFunction span
    return some (.discard span)
  | .breakLoop span => do
    let _ ← requireFunction span
    requireLoop span .strayBreak
    return some (.breakLoop span)
  | .continueLoop span => do
    let _ ← requireFunction span
    requireLoop span .strayContinue
    return some (.continueLoop span)
  | .absent => do
    let _ ← requireFunction {}
    reject {} (.unexpectedStatement Stmt.absent.form)

/-- Checks statements in their order. What one of them needs before it is put there. -/
def statements (load : Loader) : List Stmt → Check (List Stmt)
  | [] => return []
  | s :: ss => do
    let (pending, result) ← collecting (statement load s)
    let rest ← statements load ss
    return pending ++ result.toList ++ rest

/-- Checks the arms of a branch in their order. -/
def branchArms (load : Loader) : List (Expr × Stmt) → Check (List (Expr × Stmt))
  | [] => return []
  | (c, s) :: arms => do
    let c ← expression c
    requireBool "if" c
    let s ← nestedScoped s.span (statement load s)
    return (c, s) :: (← branchArms load arms)

/-- Checks the bodies of arms whose conditions are checked already. -/
def armBodies (load : Loader) : List (Expr × Stmt) → Check (List Stmt)
  | [] => return []
  | (_, s) :: arms => do
    let s ← nestedScoped s.span (statement load s)
    return s :: (← armBodies load arms)

/-- Checks the body of the `n`th arm only. -/
def selectedBody (load : Loader) : Nat → List (Expr × Stmt) → Check (Option Stmt)
  | _, [] => return none
  | 0, (_, s) :: _ => return some (← nestedScoped s.span (statement load s))
  | n + 1, _ :: arms => selectedBody load n arms

end

end Shading.Check
