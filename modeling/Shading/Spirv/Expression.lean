import Shading.Spirv.Code

/-! The code of expressions. -/
namespace Shading.Spirv.Code

/-- A part of a place. -/
def part (base : Place) (t : Ty) (indices : List UInt32) (span : Span) : Code Place := do
  let type ← pooled span .form (Pool.pointerTo base.storage t)
  let pointer ← drafted (Draft.accessChain type base.pointer indices)
  return { base with pointer, type := t }

/-- The member of a structure that an index selects. -/
def memberOf (r : Record Ty) (index : Expr) : Code (Nat × Ty) := do
  let (n, _, t) ← liftM ((← read).source.constants.memberOf r index)
  return (n, t)

/-- The type of the elements of an indexed type. -/
def elementOf (t : Ty) (span : Span) : Code Ty :=
  match t with
  | .array .. | .vector .. | .matrix .. => return t.element
  | _ => fail span (.indexTarget t)

/-- The indices that are known and not negative, up to the first that is not. -/
def literalIndices (c : Constants) : List Expr → List UInt32
  | [] => []
  | e :: es =>
    match (e.evaluate c.get?).toOption.bind Value.toInt? with
    | some n => if n < 0 then [] else n.toNat.toUInt32 :: literalIndices c es
    | none => []

/-- The variable that has a number. -/
def variablePlace (info : ExprInfo) (id : Int) : Code Place := do
  match ← lookup? id with
  | some p => return p
  | none => fail info.span (.unavailableVariable id)

/-- One component of a vector in a place. A scalar is its own component. -/
def componentPlace (info : ExprInfo) (base : Place) (component : UInt32) : Code Place := do
  match base.type with
  | .vector _ p =>
    let index ← constant (.i32 component.toInt32) info.span
    part base (.prim p) [index] info.span
  | _ => return base

/-- Writes several components of a vector in a place. -/
def storeComponents (span : Span) (base : Option Place) (selector : List UInt32) (value : UInt32) :
    Code Unit := do
  match base with
  | some p =>
    match p.type with
    | .vector n _ =>
      let old ← load p span
      let type ← typeId p.type span
      let new ← drafted (Draft.vectorShuffle type old value (shuffled n.toNat selector))
      drafted (Draft.store p.pointer new)
    | _ => fail span .swizzleTarget
  | none => fail span .swizzleTarget

/-- The value that an assignment stores. -/
def assigned (op : AssignOp) (span : Span) (lt rt : Ty) (current : Code UInt32) (value : UInt32) :
    Code UInt32 :=
  match op.binary? with
  | some b => do
    let old ← current
    binary b lt rt lt old value span
  | none => return value

/-- Computes one of two values, depending on a condition, through a variable of its own. -/
def choice (info : ExprInfo) (condition accepted rejected : Code UInt32) : Code UInt32 := do
  let condition ← condition
  let pointer ← pooled info.span .form (Pool.pointerTo StorageClass.function info.type)
  let temporary ← drafted (Draft.declare pointer)
  let accept ← drafted Draft.fresh
  let reject ← drafted Draft.fresh
  let merge ← drafted Draft.fresh
  drafted do
    Draft.selectionMerge merge 0
    Draft.branchConditional condition accept reject
    Draft.label accept
  let value ← accepted
  drafted do
    Draft.store temporary value
    Draft.branch merge
    Draft.label reject
  let value ← rejected
  drafted do
    Draft.store temporary value
    Draft.branch merge
    Draft.label merge
  load ⟨temporary, StorageClass.function, info.type⟩ info.span

mutual

/-- The code that computes an expression, and the number of its result. -/
def value : Expr → Code UInt32
  | .literal i v => constant v i.span
  | .const i id => do
    match (← read).source.constants.get? id with
    | some v => constant v i.span
    | none => fail i.span (.constantWithoutValue ("#" ++ Text.ofInt id))
  | .var i id => do
    let p ← variablePlace i id
    load p i.span
  | .index i base indices => do
    match ← place? base with
    | some p =>
      let (t, ids) ← chain i.span indices.length p.type indices
      let p ← part p t ids i.span
      load p i.span
    | none =>
      let whole ← value base
      let type ← typeId i.type i.span
      let literals := literalIndices (← read).source.constants indices
      if literals.length = indices.length then
        drafted (Draft.compositeExtract type whole literals)
      else
        -- the value is put into a variable, so that it can be indexed
        let pointer ← pooled i.span .form (Pool.pointerTo StorageClass.function base.type)
        let temporary ← drafted (Draft.declare pointer)
        drafted (Draft.store temporary whole)
        let (t, ids) ← chain i.span indices.length base.type indices
        let p ← part ⟨temporary, StorageClass.function, base.type⟩ t ids i.span
        drafted (Draft.load type p.pointer)
  | .swizzle i base selector => do
    let source ← value base
    let type ← typeId i.type i.span
    swizzle selector.components base.type type source i.span
  | .binary i op l r => do
    let left ← value l
    let right ← value r
    binary op l.type r.type i.type left right i.span
  | .unary i op e => do
    let operand ← value e
    unary op i.type operand i.span
  | .assign i op (.swizzle j base selector) r => do
    let new ← value r
    let new ← assigned op i.span j.type r.type (value (.swizzle j base selector)) new
    if selector.count > 1 then storeComponents j.span (← place? base) selector.components new
    else
      match ← place? (.swizzle j base selector) with
      | some p => drafted (Draft.store p.pointer new)
      | none => fail j.span .notAssignable
    return new
  | .assign i op l r => do
    let new ← value r
    let new ← assigned op i.span l.type r.type (value l) new
    match ← place? l with
    | some p => drafted (Draft.store p.pointer new)
    | none => fail l.span .notAssignable
    return new
  | .cast i target args => do
    let type ← typeId target.denoted i.span
    let parts ← values args
    cast target.denoted type (parts.zip (args.map (·.type))) i.span
  | .ternary i c t f => choice i (value c) (value t) (value f)
  | .call i (.function _ id) args => do
    match function? (← read).functions id with
    | none => fail i.span (.unavailableFunction id)
    | some f =>
      let args ← values args
      let type ← typeId i.type i.span
      drafted (Draft.call type f.id args)
  | .call i target _ => fail i.span (.callTarget target.form)
  | .intrinsic i .size (.index _ base indices :: _) => do
    match indices.getLast? with
    | none => fail i.span .sizeTarget
    | some last =>
      match ← place? base with
      | none => fail i.span .sizeTarget
      | some p =>
        let p ←
          if indices.length = 1 then pure p
          else do
            let (t, ids) ← chain i.span (indices.length - 1) p.type indices
            part p t ids i.span
        match p.type.container? with
        | none => fail i.span .sizeTarget
        | some r =>
          let (member, _) ← memberOf r last
          let type ← typeId i.type i.span
          drafted (Draft.arrayLength type p.pointer member.toUInt32)
  | .intrinsic i .size _ => fail i.span .sizeTarget
  | .intrinsic i f args => do
    let parts ← values args
    let type ← typeId i.type i.span
    intrinsic f ((args.map (·.type)).headD .unknown) type parts i.span
  | e => fail e.span (.expression e.form)

def values : List Expr → Code (List UInt32)
  | [] => return []
  | e :: es => do
    let id ← value e
    return id :: (← values es)

/-- The place that an expression stands for, if it is no mere value. -/
def place? : Expr → Code (Option Place)
  | .var i id => some <$> variablePlace i id
  | .index i base indices => do
    match ← place? base with
    | some p =>
      let (t, ids) ← chain i.span indices.length p.type indices
      some <$> part p t ids i.span
    | none => return none
  | .swizzle i base selector => do
    if selector.count ≠ 1 then return none
    match ← place? base with
    | some p => some <$> componentPlace i p selector.c0
    | none => return none
  | _ => return none

/-- The first so many indices into a type, and the type that they lead to. A member of a structure is
selected by a constant, anything else by a value. -/
def chain (span : Span) : Nat → Ty → List Expr → Code (Ty × List UInt32)
  | 0, t, _ => return (t, [])
  | _, t, [] => return (t, [])
  | n + 1, t, e :: es => do
    let (id, t) ← match t.container? with
      | some r => do
        let (member, inner) ← memberOf r e
        pure (← constant (.i32 (member : Int).toInt32) e.span, inner)
      | none => do
        let id ← value e
        pure (id, ← elementOf t span)
    let (t, ids) ← chain span n t es
    return (t, id :: ids)

end

end Shading.Spirv.Code
