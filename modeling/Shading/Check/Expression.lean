import Shading.Check.Session
import Shading.Lowering
import Shading.Typing

/-! Resolving the names and finding the types of expressions. -/
namespace Shading.Check

/-- The type of a structure by its number. -/
def structType (span : Span) (id : Int) : Check Ty := do
  match (← getSession).structs.lookup id with
  | some s => return .struct s.record
  | none => reject span (.unknownId "struct" id)

/-- A reference by number gets the type of what it refers to. -/
def reference : Expr → Check Expr
  | .literal i v => return .literal { i with type := v.type } v
  | .var i id => do
    match (← getSession).vars.lookup id with
    | some v => return .var { i with type := v.type } id
    | none => reject i.span (.unknownId "variable" id)
  | .const i id => do
    match (← getSession).constants.lookup id with
    | some c => return .const { i with type := c.type } id
    | none => reject i.span (.unknownId "constant" id)
  | .function i id => do
    match (← getSession).functions.lookup id with
    | some f => return .function { i with type := f.type } id
    | none => reject i.span (.unknownId "function" id)
  | .structRef i id => return .structRef { i with type := ← structType i.span id } id
  | .typeRef i t => return .typeRef { i with type := t } t
  | .intrinsicRef i f => return .intrinsicRef { i with type := .intrinsic f } f
  | e => return e

/-- What a name stands for. -/
def named (i : ExprInfo) (n : Text) : Check Expr := do
  match ← lookup? n with
  | some (.function id) => reference (.function { span := i.span } id)
  | some (.variable id) | some (.external id) => reference (.var { span := i.span } id)
  | some (.struct id) => reference (.structRef { span := i.span } id)
  | some (.constant id) => reference (.const { span := i.span } id)
  | some (.alias _ target) => reference target
  | some .unresolved => return .name i n
  | none =>
    if let some p := Primitive.ofName? n then return .ofType i.span (.prim p)
    if let some f := Intrinsic.ofName? n then return .intrinsicRef ⟨i.span, .intrinsic f⟩ f
    if (← getDraft).wildcard then return .name i n
    reject i.span (.unknownIdentifier n)

/-- The type that a name stands for, if it stands for one. An alias leads to another name at most as
often as there are declarations. -/
def namedType? (span : Span) (name : Text) : Nat → Check (Option Ty)
  | 0 => return none
  | hops + 1 => do
    match ← lookup? name with
    | some (.struct id) => return some (← structType span id)
    | some (.alias _ (.typeRef _ t)) => return some t
    | some (.alias _ (.structRef i id)) => return some (← structType i.span id)
    | some (.alias _ (.name i n)) => namedType? i.span n hops
    | some _ => return none
    | none =>
      if let some p := Primitive.ofName? name then return some (.prim p)
      if (TypeConstructor.ofName? name).isSome then reject span (.missingTypeArguments name)
      return none

/-- The type constructor that a name stands for, unless a declaration hides it. -/
def constructor? (name : Text) : Check (Option TypeConstructor) := do
  match TypeConstructor.ofName? name with
  | none => return none
  | some c => if (← lookup? name).isSome then return none else return some c

/-- Is it a symbol of a module that could not be found? -/
def isUnresolved : Expr → Check Bool
  | .name _ n => do
    match ← lookup? n with
    | some .unresolved => return true
    | some _ => return false
    | none => return (← getDraft).wildcard
  | _ => return false

/-- Takes the type that an expression stands for. It is not known for a symbol of a module that could
not be found. -/
def asType (e : Expr) : Option Ty → Check Ty
  | some t => return t
  | none => do
    if ← isUnresolved e then return .unknown
    reject e.span .typeExpected

/-- The value of an expression that shapes the module, given its checked form. -/
def constantOf (span : Span) (what : Text) (checked : Expr) : Check Value := do
  match ← evaluateWithDefaults checked with
  | .ok v => return v
  | .error _ => reject span (.notConstant what)

/-- The value of such an expression as a number. -/
def unsignedOf (span : Span) (what : Text) (checked : Expr) : Check UInt32 := do
  let v ← constantOf span what checked
  match v.toInt? with
  | some n => if 0 ≤ n ∧ n < UInt32.size then return n.toNat.toUInt32 else reject span (.notUnsigned what v)
  | none => reject span (.notUnsigned what v)

/-- The type that a constructor makes of one other type. -/
def constructed (c : TypeConstructor) (name : Text) (span argSpan : Span) (t : Ty) : Check Ty :=
  match c, t with
  | .vector n, .prim p => return .vector n p
  | .matrix c r, .prim p =>
    if p.isFloat then return .matrix c r p else reject span (.matrixComponent p)
  | .sampler dim depth, .prim p =>
    if p == .f32 then return .sampler dim p depth else reject span (.samplerComponent p)
  | .vector _, _ | .matrix .., _ | .sampler .., _ => reject argSpan (.primitiveExpected name t)
  | .array, .unknown | .runtimeArray, .unknown => return .unknown
  | .array, _ | .runtimeArray, _ => return .array t 0
  | .uniform, .unknown | .storage, .unknown => return .unknown
  | .uniform, .struct r => return .uniform r
  | .storage, .struct r => return .storage r
  | .uniform, _ | .storage, _ => reject argSpan (.structExpected name t)

def isArray : TypeConstructor → Bool
  | .array | .runtimeArray => true
  | _ => false

/-- A binary operation of checked operands. -/
def binary (i : ExprInfo) (op : BinaryOp) (l r : Expr) : Check Expr := do
  if !l.type.isKnown || !r.type.isKnown then return .binary i op l r
  let t ← typing i.span (l.type.binary op r.type)
  return .binary { i with type := t } op l r

/-- A unary operation of a checked operand. A sign before a literal becomes part of it. -/
def unary (i : ExprInfo) (op : UnaryOp) (e : Expr) : Check Expr := do
  if !e.type.isKnown then return .unary i op e
  let t ← typing i.span (e.type.unary op)
  match op, e with
  | .minus, .literal _ v | .plus, .literal _ v =>
    match v.unary op with
    | .ok w => return .ofValue i.span w
    | .error err => reject i.span (.evaluation err)
  | _, _ => return .unary { i with type := t } op e

/-- Does an expression name a place that may be written? -/
def checkAssignable : Expr → Check Unit
  | .var i id => do
    match (← getSession).vars.lookup id with
    | some v =>
      match v.external, v.type with
      | false, _ | true, .storage _ => return
      | true, t => reject i.span (.externalTarget v.name t)
    | none => return
  | .index _ base _ => checkAssignable base
  | .swizzle i base s => do
    if s.components.Nodup then checkAssignable base else reject i.span (.repeatedComponent s.components)
  | .member i _ _ | .name i _ =>
    if i.type.isKnown then reject i.span .notAssignable else return
  | .const i id => do
    let name := ((← getSession).constants.lookup id).elim [] (·.name)
    reject i.span (.constantTarget name)
  | e => reject e.span .notAssignable

/-- An assignment of checked operands. -/
def assign (i : ExprInfo) (op : AssignOp) (l r : Expr) : Check Expr := do
  checkAssignable l
  if !l.type.isKnown || !r.type.isKnown then return .assign i op l r
  match op.binary? with
  | some b =>
    let t ← typing i.span (l.type.binary b r.type)
    if !t.same l.type then reject i.span (.storedType op t l.type)
  | none => if !l.type.same r.type then reject i.span (.assignedType r.type l.type)
  return .assign { i with type := l.type } op l r

/-- The value of a conversion whose arguments are all known. -/
def foldCast (span : Span) (target : Ty) (args : List Expr) : Check (Option Value) := do
  if target.scalar?.isNone then return none
  match Expr.evaluateAll (← getSession).value? args with
  | .error _ => return none
  | .ok vs =>
    match Value.cast target vs with
    | .ok v => return some v
    | .error e => reject span (.evaluation e)

/-- Declares a temporary variable before the statement that is being checked. -/
def hoist (what : Text) (t : Ty) (init : Expr) : Check Expr := do
  let s ← get
  let ((decl, id), supply) := (Supply.temp what t init).run ⟨s.session.nextVar, s.draft.temporaries⟩
  modifySession fun s => { s with nextVar := supply.nextVar }
  modifyDraft fun d => { d with temporaries := supply.temporaries, pending := d.pending ++ [decl] }
  return .ofVar init.span id t

/-- The conversion of a matrix, built from its columns. -/
def expandMatrix (span : Span) (arg : Expr) (c r : UInt32) (p : Primitive) (d s : UInt32)
    (q : Primitive) : Check Expr := do
  let site ← read
  let source ← if !arg.isPlace && site.hoisting && site.function.isSome
    then hoist "matrix" (.matrix d s q) arg else pure arg
  return .resizedMatrix span source d s q c r p

/-- A conversion to a known or unknown type, or a value built from checked arguments. -/
def cast (i : ExprInfo) (target : Expr) (t : Ty) (args : List Expr) : Check Expr := do
  if !t.isKnown then return .cast i target args
  let whole : Expr := .cast { i with type := t } (.ofType target.span t) args
  if !args.all (·.type.isKnown) then return whole
  if let some v ← foldCast i.span t args then return .ofValue i.span v
  typing i.span (t.construct (args.map Expr.type))
  match t, args with
  | .matrix c r p, [arg] =>
    match arg.type with
    | .matrix d s q =>
      if (← read).settings.removeMatrixCasts then expandMatrix i.span arg c r p d s q else return whole
    | _ => return whole
  | _, _ => return whole

/-- A condition has to be a boolean. -/
def requireBool (what : Text) (cond : Expr) : Check Unit := do
  if cond.type.isKnown && !cond.type.isBool then reject cond.span (.conditionTypeOf what cond.type)

def ternary (i : ExprInfo) (c t f : Expr) : Check Expr := do
  if !t.type.isKnown || !f.type.isKnown then return .ternary i c t f
  if !t.type.same f.type then reject i.span (.ternaryTypes t.type f.type)
  return .ternary { i with type := t.type } c t f

/-- An index that is known has to be within range. -/
def checkRange (e : Expr) (length : UInt32) (t : Ty) : Check Unit := do
  match ← evaluate e with
  | .error _ => return
  | .ok v =>
    match v.toInt? with
    | some n => if n < 0 ∨ (length.toNat : Int) ≤ n then reject e.span (.indexRange n t)
    | none => return

/-- The type of the member that a constant index selects. -/
def memberType (e : Expr) (r : Record Ty) : Check Ty := do
  match (← evaluate e).toOption.bind Value.toInt? with
  | none => reject e.span (.memberNotConstant r.name)
  | some n =>
    match if n < 0 then none else r.members[n.toNat]? with
    | some m => return m.2
    | none => reject e.span (.memberRange n r.name)

/-- The type after one index after the other; none if a type on the way is not known. -/
def indexedType (span : Span) (t : Ty) : List Expr → Check (Option Ty)
  | [] => return some t
  | e :: es => do
    if !t.isKnown || !e.type.isKnown then return none
    if !(e.type.isPrim .i32 || e.type.isPrim .u32) then reject e.span (.indexType e.type)
    match t with
    | .array elem n =>
      if n != 0 then checkRange e n t
      indexedType span elem es
    | .vector n p =>
      checkRange e n t
      indexedType span (.prim p) es
    | .matrix c r p =>
      checkRange e c t
      indexedType span (.vector r p) es
    | _ =>
      match t.container? with
      | some r => indexedType span (← memberType e r) es
      | none => reject span (.indexTarget t)

def indexed (i : ExprInfo) (base : Expr) (indices : List Expr) : Check Expr := do
  match ← indexedType i.span base.type indices with
  | some t => return .index { i with type := t } base indices
  | none => return .index i base indices

def isIdentity (components : List UInt32) : Bool :=
  components == (List.range components.length).map Nat.toUInt32

/-- The selection of components of a checked vector, or a scalar repeated. A selection from a selection
is one selection, and one that selects everything in order is left out. -/
def swizzled (source : Expr) (components : List UInt32) (span : Span) : Check Expr := do
  let t := source.type
  if components.any fun c => t.components ≤ c then
    if t.components = 1 then reject span (.scalarSwizzle components)
    reject span (.swizzleRange components t)
  if components.isEmpty || 4 < components.length then reject span .swizzleCount
  let (base, all) := match source with
    | .swizzle _ inner s => (inner, Swizzle.compose s.components components)
    | _ => (source, components)
  if base.type.components = 1 && all.length = 1 then return base
  if base.type.isVector && base.type.components.toNat = all.length && isIdentity all then return base
  return .swizzle ⟨span, Ty.vectorOf (t.scalarOrVector?.getD .bool) all.length.toUInt32⟩ base
    (Selector.ofList all)

/-- The index of a member behind a base; indices that follow each other are one access. -/
def selectMember (span : Span) (base index : Expr) (t : Ty) : Expr :=
  match base with
  | .index i b is => .index { i with type := t } b (is ++ [index])
  | _ => .index ⟨span, t⟩ base [index]

/-- Members of structures become indices, those of vectors selections of components. -/
def membersOf (i : ExprInfo) (base : Expr) : List Name → Check Expr
  | [] => return base
  | n :: ns => do
    let t := base.type
    if !t.isKnown then return .member i base (n :: ns)
    match t.container? with
    | some r =>
      match r.memberIndex? n.text with
      | none => reject n.span (.noStructMember r.name n.text)
      | some k =>
        let type := (r.members[k]?).elim .unknown (·.2)
        membersOf i (selectMember i.span base (.ofValue n.span (.i32 (Int32.ofNat k))) type) ns
    | none =>
      if t.scalarOrVector?.isNone then reject n.span (.noMember t n.text)
      match Swizzle.parse? n.text with
      | none => reject n.span (.invalidSwizzle n.text)
      | some components => membersOf i (← swizzled base components i.span) ns

/-- A call of a built-in function with checked arguments. -/
def intrinsicCall (i : ExprInfo) (f : Intrinsic) (args : List Expr) : Check Expr := do
  if !args.all (·.type.isKnown) then return .intrinsic i f args
  let t ← typing i.span (f.resultType (args.map Expr.type))
  return .intrinsic { i with type := t } f args

def checkArguments (f : Function) : List Expr → List Ty → Nat → Check Unit
  | e :: es, t :: ts, n => do
    if e.type.isKnown && t.isKnown && !e.type.same t then
      reject e.span (.callArgument n f.name e.type t)
    checkArguments f es ts (n + 1)
  | _, _, _ => return

/-- A call of a checked target with checked arguments. -/
def call (i : ExprInfo) (target : Expr) (args : List Expr) : Check Expr := do
  match target with
  | .function _ id =>
    match (← getSession).functions.lookup id with
    | none => reject i.span (.unknownId "function" id)
    | some f =>
      if (← read).function.any (·.id == f.id) then reject i.span (.selfCall f.name)
      if f.isEntry then reject i.span (.entryCall f.name)
      if args.length != f.params.length then
        reject i.span (.callCount f.name f.params.length args.length)
      checkArguments f args f.params 1
      return .call { i with type := f.result } target args
  | .intrinsicRef _ f => intrinsicCall { span := i.span } f args
  | .name .. => return .call i target args
  | _ => reject i.span (.notCallable target.type)

/-- A call on a checked object. -/
def methodCall (i : ExprInfo) (object : Expr) (name : Text) (args : List Expr) : Check Expr := do
  let refuse := reject i.span (.noMethod object.type name)
  match object.type with
  | .unknown => return .method i object name args
  | .sampler .. =>
    if name == Intrinsic.sample.text then intrinsicCall { span := i.span } .sample (object :: args)
    else refuse
  | .array _ n =>
    if name != Intrinsic.size.text then refuse
    else if !args.isEmpty then reject i.span .sizeArguments
    else if n != 0 then return .ofValue i.span (.u32 n)
    else intrinsicCall { span := i.span } .size [object]
  | _ => refuse

mutual

/-- The type that an expression stands for, if it stands for a type and not for a value. -/
def typeOf? : Expr → Check (Option Ty)
  | .typeRef _ t => return some t
  | .structRef i id => return some (← structType i.span id)
  | .name i n => do namedType? i.span n ((← getDraft).scopes.size + 1)
  | .index i (.name _ n) args => do
    match ← constructor? n with
    | some c => return some (← constructedType c n i.span args)
    | none => return none
  | _ => return none

/-- The type that a constructor makes of its arguments. -/
def constructedType (c : TypeConstructor) (name : Text) (span : Span) : List Expr → Check Ty
  | [e] => do
    let t ← asType e (← typeOf? e)
    constructed c name span e.span t
  | [e, size] => do
    match c with
    | .array =>
      let t ← asType e (← typeOf? e)
      if !t.isKnown then return .unknown
      let n ← unsignedOf size.span "array size" (← expression size)
      if n = 0 then reject size.span .emptyArray
      return .array t n
    | .runtimeArray => reject span (.arrayArguments name)
    | _ => reject span (.typeArgumentCount name 1 2)
  | args =>
    if isArray c then reject span (.arrayArguments name)
    else reject span (.typeArgumentCount name 1 args.length)

/-- Resolves the names of an expression, finds its type and refuses what has none. -/
def expression : Expr → Check Expr
  | .absent => reject {} (.unexpectedExpression Expr.absent.form)
  | .name i n => named i n
  | .literal i v => reference (.literal i v)
  | .var i id => reference (.var i id)
  | .const i id => reference (.const i id)
  | .function i id => reference (.function i id)
  | .structRef i id => reference (.structRef i id)
  | .typeRef i t => reference (.typeRef i t)
  | .intrinsicRef i f => reference (.intrinsicRef i f)
  | .binary i op l r => do
    let l ← expression l
    let r ← expression r
    binary i op l r
  | .unary i op e => do
    let e ← expression e
    unary i op e
  | .assign i op l r => do
    let l ← expression l
    let r ← expression r
    assign i op l r
  | .cast i target args => do
    let t ← asType target (← typeOf? target)
    let args ← expressions args
    cast i target t args
  | .ternary i c t f => do
    let c ← expression c
    requireBool "ternary" c
    let t ← expression t
    let f ← expression f
    ternary i c t f
  | .index i base indices => do
    let c ← match base with
      | .name _ n => do pure ((← constructor? n).map fun c => (c, n))
      | _ => pure none
    match c with
    | some (c, n) => return .ofType i.span (← constructedType c n i.span indices)
    | none =>
      let base ← expression base
      let indices ← expressions indices
      indexed i base indices
  | .member i base names => do
    let base ← expression base
    membersOf i base names
  | .swizzle i base s => do
    let base ← expression base
    if base.type.isKnown then swizzled base s.components i.span else return .swizzle i base s
  | .call i target args => do
    match ← typeOf? target with
    | some t =>
      let args ← expressions args
      cast { span := i.span } (.ofType target.span t) t args
    | none =>
      let target ← expression target
      let args ← expressions args
      call i target args
  | .method i object name args => do
    let object ← expression object
    let args ← expressions args
    methodCall i object name args
  | .intrinsic i f args => do
    let args ← expressions args
    intrinsicCall i f args

def expressions : List Expr → Check (List Expr)
  | [] => return []
  | e :: es => do
    let e ← expression e
    let es ← expressions es
    return e :: es

end

/-- The type that an annotation stands for, and the annotation in its resolved form. -/
def annotation (e : Expr) : Check (Ty × Expr) := do
  let t ← asType e (← typeOf? e)
  return (t, if t.isKnown then .ofType e.span t else e)

end Shading.Check
