import Shading.Canonical
import Shading.Parser.Expression
import Shading.Proofs.Literal

/-! Expressions of sources. Nothing has a type, and what refers to something does so by name. A member that is called
is written like a method, and is read as one. -/
namespace Shading

/-- Is it what a literal stands for? Signs are operators. -/
def Value.isLiteral : Value → Bool
  | .bool _ | .u32 _ => true
  | .i32 n => 0 ≤ n.toInt
  | .f32 x => x.isPlain
  | _ => false

def Ty.isUnknown : Ty → Bool
  | .unknown => true
  | _ => false

/-- The type alone. -/
def ExprInfo.unplaced (i : ExprInfo) : ExprInfo := ⟨{}, i.type⟩

/-- The text alone. -/
def Name.unplaced (n : Name) : Name := ⟨n.text, {}⟩

namespace Expr

mutual

/-- The expression without its places. -/
def unplaced : Expr → Expr
  | .absent => .absent
  | .name i n => .name i.unplaced n
  | .var i id => .var i.unplaced id
  | .const i id => .const i.unplaced id
  | .literal i v => .literal i.unplaced v
  | .binary i op l r => .binary i.unplaced op (unplaced l) (unplaced r)
  | .unary i op e => .unary i.unplaced op (unplaced e)
  | .assign i op l r => .assign i.unplaced op (unplaced l) (unplaced r)
  | .cast i t as => .cast i.unplaced (unplaced t) (unplacedList as)
  | .ternary i c t f => .ternary i.unplaced (unplaced c) (unplaced t) (unplaced f)
  | .index i b is => .index i.unplaced (unplaced b) (unplacedList is)
  | .member i b ns => .member i.unplaced (unplaced b) (ns.map Name.unplaced)
  | .swizzle i b s => .swizzle i.unplaced (unplaced b) s
  | .call i t as => .call i.unplaced (unplaced t) (unplacedList as)
  | .method i o n as => .method i.unplaced (unplaced o) n (unplacedList as)
  | .intrinsic i f as => .intrinsic i.unplaced f (unplacedList as)
  | .function i id => .function i.unplaced id
  | .intrinsicRef i f => .intrinsicRef i.unplaced f
  | .structRef i id => .structRef i.unplaced id
  | .typeRef i t => .typeRef i.unplaced t

def unplacedList : List Expr → List Expr
  | [] => []
  | e :: es => unplaced e :: unplacedList es

end

theorem unplacedList_eq_map (es : List Expr) : unplacedList es = es.map unplaced := by
  induction es with
  | nil => rfl
  | cons e es ih => rw [unplacedList, ih, List.map_cons]

mutual

/-- The floats among the literals. -/
def floats : Expr → List Single
  | .literal _ (.f32 x) => [x]
  | .binary _ _ l r => floats l ++ floats r
  | .unary _ _ e => floats e
  | .ternary _ c t f => floats c ++ (floats t ++ floats f)
  | .index _ b is => floats b ++ floatsList is
  | .member _ b _ => floats b
  | .call _ t as => floats t ++ floatsList as
  | .method _ o _ as => floats o ++ floatsList as
  | _ => []

def floatsList : List Expr → List Single
  | [] => []
  | e :: es => floats e ++ floatsList es

end

def isIndex : Expr → Bool
  | .index .. => true
  | _ => false

def isMember : Expr → Bool
  | .member .. => true
  | _ => false

mutual

/-- Is it an expression that a source holds? Indices of an index and members of a member are gathered in
one node, and a member that is called is a method. -/
@[grind =]
def isSource : Expr → Bool
  | .name i n => i.type.isUnknown && Lexer.isName n
  | .literal i v => i.type.isUnknown && v.isLiteral
  | .binary i op l r => i.type.isUnknown && (Canonical.level? op).isSome && isSource l && isSource r
  | .unary i op e => i.type.isUnknown && UnaryOp.named.elem op && isSource e
  | .ternary i c t f => i.type.isUnknown && isSource c && isSource t && isSource f
  | .index i b is =>
    i.type.isUnknown && isSource b && !b.isIndex && !is.isEmpty && areSource is
  | .member i b ns =>
    i.type.isUnknown && isSource b && !b.isMember && !ns.isEmpty && ns.all fun n => Lexer.isName n.text
  | .call i t as => i.type.isUnknown && isSource t && !t.isMember && areSource as
  | .method i o n as => i.type.isUnknown && isSource o && Lexer.isName n && areSource as
  | _ => false

@[grind =]
def areSource : List Expr → Bool
  | [] => true
  | e :: es => isSource e && areSource es

end

/-- Is the name one that may be followed by a type in angle brackets? -/
def isGeneric (n : Text) : Bool := Parser.genericNames.elem n

/-- Does the expression end with a generic name, as it is written in a context of a level? -/
def endsGeneric (level : Nat) : Expr → Bool
  | .name _ n => isGeneric n
  | .binary _ op _ r =>
    match Canonical.level? op with
    | some own => level ≤ own && endsGeneric (own + 1) r
    | none => false
  | .unary _ _ e => level ≤ Canonical.unaryLevel && !Canonical.isUnary e && endsGeneric Canonical.unaryLevel e
  | .ternary _ _ _ f => level = 0 && endsGeneric 0 f
  | _ => false

mutual

/-- Does nothing that ends with a generic name stand on the left of a less-than sign? -/
def isClear : Expr → Bool
  | .binary _ op l r => isClear l && isClear r && !(op == .lt && endsGeneric 7 l)
  | .unary _ _ e => isClear e
  | .ternary _ c t f => isClear c && isClear t && isClear f
  | .index _ b is => isClear b && areClear is
  | .member _ b _ => isClear b
  | .call _ t as => isClear t && areClear as
  | .method _ o _ as => isClear o && areClear as
  | _ => true

def areClear : List Expr → Bool
  | [] => true
  | e :: es => isClear e && areClear es

end

/-- The members of a base, if there are any. -/
def selectAll (i : ExprInfo) (b : Expr) (ns : List Name) : Expr :=
  if ns.isEmpty then b else .member i b ns

/-- The call of a target. The last of the members of a base is a method of what is in front of it. -/
def called (i : ExprInfo) (t : Expr) (as : List Expr) : Expr :=
  match t with
  | .member j b ns =>
    match ns.getLast? with
    | some n => .method i (selectAll j b ns.dropLast) n.text as
    | none => .call i t as
  | t => .call i t as

mutual

/-- The expression with methods for the members that are called. -/
@[grind =]
def methods : Expr → Expr
  | .binary i op l r => .binary i op (methods l) (methods r)
  | .unary i op e => .unary i op (methods e)
  | .ternary i c t f => .ternary i (methods c) (methods t) (methods f)
  | .index i b is => .index i (methods b) (methodsList is)
  | .member i b ns => .member i (methods b) ns
  | .call i t as => called i (methods t) (methodsList as)
  | .method i o n as => .method i (methods o) n (methodsList as)
  | e => e

@[grind =]
def methodsList : List Expr → List Expr
  | [] => []
  | e :: es => methods e :: methodsList es

end

/-- What is known of a call: it is one, of whichever form. -/
theorem called_cases (i : ExprInfo) (t : Expr) (as : List Expr) :
    (∃ j b ns n, t = .member j b (ns ++ [n]) ∧ called i t as = .method i (selectAll j b ns) n.text as) ∨
      (∀ j b ns, t = .member j b ns → ns = []) ∧ called i t as = .call i t as := by
  unfold called
  split
  · rename_i j b ns
    split
    · rename_i n hn
      obtain ⟨ms, rfl⟩ := List.getLast?_eq_some_iff.mp hn
      refine .inl ⟨j, b, ms, n, rfl, ?_⟩
      rw [List.dropLast_concat]
    · rename_i hn
      refine .inr ⟨fun j' b' ns' heq => ?_, rfl⟩
      cases heq
      exact List.getLast?_eq_none_iff.mp hn
  · rename_i hmember
    exact .inr ⟨fun j b ns heq => absurd heq (hmember j b ns), rfl⟩

theorem floats_selectAll (i : ExprInfo) (b : Expr) (ns : List Name) : (selectAll i b ns).floats = b.floats := by
  unfold selectAll
  split <;> rfl

theorem isClear_selectAll (i : ExprInfo) (b : Expr) (ns : List Name) :
    (selectAll i b ns).isClear = b.isClear := by
  unfold selectAll
  split <;> rfl

theorem floats_called (i : ExprInfo) (t : Expr) (as : List Expr) :
    (called i t as).floats = t.floats ++ floatsList as := by
  obtain ⟨j, b, ns, n, rfl, h⟩ | ⟨-, h⟩ := called_cases i t as
  · simp only [h, floats, floats_selectAll]
  · simp only [h, floats]

theorem isClear_called (i : ExprInfo) (t : Expr) (as : List Expr) :
    (called i t as).isClear = (t.isClear && areClear as) := by
  obtain ⟨j, b, ns, n, rfl, h⟩ | ⟨-, h⟩ := called_cases i t as
  · simp only [h, isClear, isClear_selectAll]
  · simp only [h, isClear]

theorem isSource_called {i : ExprInfo} {t : Expr} {as : List Expr} (hi : i.type.isUnknown) (ht : t.isSource)
    (has : areSource as) : (called i t as).isSource := by
  obtain ⟨j, b, ns, n, rfl, h⟩ | ⟨hnone, h⟩ := called_cases i t as
  · simp only [isSource, Bool.and_eq_true, List.all_append, List.all_cons, List.all_nil] at ht
    obtain ⟨⟨⟨⟨hj, hb⟩, hmember⟩, -⟩, hns, hn, -⟩ := ht
    have hobject : (selectAll j b ns).isSource := by
      unfold selectAll
      split
      · exact hb
      · rename_i hne
        simp only [isSource, Bool.and_eq_true]
        exact ⟨⟨⟨⟨hj, hb⟩, hmember⟩, by simpa using hne⟩, hns⟩
    rw [h]
    simp only [isSource, Bool.and_eq_true]
    exact ⟨⟨⟨hi, hobject⟩, hn⟩, has⟩
  · have hmember : t.isMember = false := by
      cases t with
      | member j b ns =>
        rw [hnone j b ns rfl] at ht
        simp [isSource] at ht
      | _ => rfl
    rw [h]
    simp only [isSource, Bool.and_eq_true, hmember]
    exact ⟨⟨⟨hi, ht⟩, rfl⟩, has⟩

/-- What is false of calls and of methods. -/
theorem called_eq_false {f : Expr → Bool} (hcall : ∀ i t as, f (.call i t as) = false)
    (hmethod : ∀ i o n as, f (.method i o n as) = false) (i : ExprInfo) (t : Expr) (as : List Expr) :
    f (called i t as) = false := by
  obtain ⟨j, b, ns, n, -, h⟩ | ⟨-, h⟩ := called_cases i t as
  · rw [h, hmethod]
  · rw [h, hcall]

theorem isUnary_methods (e : Expr) : Canonical.isUnary e.methods = Canonical.isUnary e := by
  cases e with
  | call => exact called_eq_false (fun _ _ _ => rfl) (fun _ _ _ _ => rfl) _ _ _
  | _ => rfl

theorem isName_methods (e : Expr) : Canonical.isName e.methods = Canonical.isName e := by
  cases e with
  | call => exact called_eq_false (fun _ _ _ => rfl) (fun _ _ _ _ => rfl) _ _ _
  | _ => rfl

theorem isIndex_methods (e : Expr) : e.methods.isIndex = e.isIndex := by
  cases e with
  | call => exact called_eq_false (fun _ _ _ => rfl) (fun _ _ _ _ => rfl) _ _ _
  | _ => rfl

theorem isMember_methods (e : Expr) : e.methods.isMember = e.isMember := by
  cases e with
  | call => exact called_eq_false (fun _ _ _ => rfl) (fun _ _ _ _ => rfl) _ _ _
  | _ => rfl

theorem endsGeneric_methods (e : Expr) (level : Nat) : e.methods.endsGeneric level = e.endsGeneric level := by
  fun_induction endsGeneric level e with
  | case1 => rfl
  | case2 level i op l r own hown ih => simp only [methods, endsGeneric, hown, ih]
  | case3 level i op l r hown => simp only [methods, endsGeneric, hown]
  | case4 level i op e ih => simp only [methods, endsGeneric, isUnary_methods, ih]
  | case5 level i c t f ih => simp only [methods, endsGeneric, ih]
  | case6 e level hname hbinary hunary hternary =>
    cases e with
    | name => exact absurd rfl (hname _ _)
    | binary => exact absurd rfl (hbinary _ _ _ _)
    | unary => exact absurd rfl (hunary _ _ _)
    | ternary => exact absurd rfl (hternary _ _ _ _)
    | call => exact called_eq_false (fun _ _ _ => rfl) (fun _ _ _ _ => rfl) _ _ _
    | _ => rfl

mutual

theorem floats_methods (e : Expr) : e.methods.floats = e.floats := by
  cases e with
  | literal => rfl
  | binary i op l r => simp only [methods, floats, floats_methods l, floats_methods r]
  | unary i op e => simp only [methods, floats, floats_methods e]
  | ternary i c t f => simp only [methods, floats, floats_methods c, floats_methods t, floats_methods f]
  | index i b is => simp only [methods, floats, floats_methods b, floatsList_methods is]
  | member i b ns => simp only [methods, floats, floats_methods b]
  | call i t as => simp only [methods, floats_called, floats, floats_methods t, floatsList_methods as]
  | method i o n as => simp only [methods, floats, floats_methods o, floatsList_methods as]
  | _ => rfl

theorem floatsList_methods (es : List Expr) : floatsList (methodsList es) = floatsList es := by
  cases es with
  | nil => rfl
  | cons e es => simp only [methodsList, floatsList, floats_methods e, floatsList_methods es]

end

mutual

theorem isClear_methods (e : Expr) : e.methods.isClear = e.isClear := by
  cases e with
  | binary i op l r =>
    simp only [methods, isClear, isClear_methods l, isClear_methods r, endsGeneric_methods]
  | unary i op e => simp only [methods, isClear, isClear_methods e]
  | ternary i c t f => simp only [methods, isClear, isClear_methods c, isClear_methods t, isClear_methods f]
  | index i b is => simp only [methods, isClear, isClear_methods b, areClear_methods is]
  | member i b ns => simp only [methods, isClear, isClear_methods b]
  | call i t as => simp only [methods, isClear_called, isClear, isClear_methods t, areClear_methods as]
  | method i o n as => simp only [methods, isClear, isClear_methods o, areClear_methods as]
  | _ => rfl

theorem areClear_methods (es : List Expr) : areClear (methodsList es) = areClear es := by
  cases es with
  | nil => rfl
  | cons e es => simp only [methodsList, areClear, isClear_methods e, areClear_methods es]

end

/-- With methods for the members that are called, it is an expression of a source. -/
def Sourced (e : Expr) : Prop := e.methods.isSource

/-- An expression of a source, if there is one. -/
def MaybeSourced (e : Expr) : Prop := e.isAbsent = false → e.Sourced

def AllSourced (es : List Expr) : Prop := ∀ e ∈ es, e.Sourced

theorem AllSourced.nil : AllSourced [] := List.forall_mem_nil _

theorem AllSourced.cons {e : Expr} {es : List Expr} (he : e.Sourced) (hes : AllSourced es) : AllSourced (e :: es) :=
  List.forall_mem_cons.mpr ⟨he, hes⟩

theorem MaybeSourced.absent : MaybeSourced .absent := nofun

theorem Sourced.maybe {e : Expr} (h : e.Sourced) : e.MaybeSourced := fun _ => h

theorem areSource_iff (es : List Expr) : areSource (methodsList es) ↔ AllSourced es := by
  induction es with
  | nil => exact ⟨fun _ => .nil, fun _ => rfl⟩
  | cons e es ih =>
    rw [methodsList, areSource, Bool.and_eq_true, ih]
    exact ⟨fun h => .cons h.1 h.2, fun h => List.forall_mem_cons.mp h⟩

theorem isEmpty_methodsList (es : List Expr) : (methodsList es).isEmpty = es.isEmpty := by
  cases es <;> rfl

end Expr

namespace Canonical

variable (n : Names)

theorem expr_called (level : Nat) (i : ExprInfo) (t : Expr) (as : List Expr) :
    expr n level (Expr.called i t as) = expr n level (.call i t as) := by
  obtain ⟨j, b, ns, m, rfl, h⟩ | ⟨-, h⟩ := Expr.called_cases i t as
  · rw [h, expr, expr, expr]
    have hobject : expr n postfixLevel (Expr.selectAll j b ns) =
        (do let base ← expr n postfixLevel b
            return base ++ ns.flatMap (fun x => Text.byte '.' :: x.text)) := by
      unfold Expr.selectAll
      split
      · rename_i hempty
        rw [List.isEmpty_iff.mp hempty]
        cases expr n postfixLevel b with
        | error => rfl
        | ok t => exact congrArg Except.ok (List.append_nil t).symm
      · rw [expr]
    rw [hobject]
    cases expr n postfixLevel b with
    | error => rfl
    | ok t =>
      cases exprs n as with
      | error => rfl
      | ok ts =>
        have hdot : Text.ofString "." = [Text.byte '.'] := rfl
        simp [bind, Except.bind, pure, Except.pure, hdot]
  · rw [h]

theorem type_methods (e : Expr) : e.methods.type = e.type := by
  cases e with
  | call i t as =>
    rw [Expr.methods]
    obtain ⟨j, b, ns, m, -, h⟩ | ⟨-, h⟩ := Expr.called_cases i t.methods (Expr.methodsList as) <;> rw [h] <;> rfl
  | _ => rfl

theorem literalIndex_methods (e : Expr) : literalIndex? e.methods = literalIndex? e := by
  cases e with
  | call i t as =>
    rw [Expr.methods]
    obtain ⟨j, b, ns, m, -, h⟩ | ⟨-, h⟩ := Expr.called_cases i t.methods (Expr.methodsList as) <;> rw [h] <;> rfl
  | _ => rfl

mutual

/-- Methods are written like the members that are called. -/
theorem expr_methods (e : Expr) (level : Nat) : expr n level e.methods = expr n level e := by
  cases e with
  | binary i op l r =>
    simp only [Expr.methods, expr, fun k => expr_methods l k, fun k => expr_methods r k]
  | unary i op e => simp only [Expr.methods, expr, expr_methods e, Expr.isUnary_methods]
  | ternary i c t f => simp only [Expr.methods, expr, expr_methods c, expr_methods t, expr_methods f]
  | index i b is =>
    simp only [Expr.methods, expr, expr_methods b, Expr.isName_methods, exprs_methods is, type_methods,
      indexChain_methods is]
  | member i b ns => simp only [Expr.methods, expr, expr_methods b]
  | call i t as => simp only [Expr.methods, expr_called, expr, expr_methods t, exprs_methods as]
  | method i o m as => simp only [Expr.methods, expr, expr_methods o, exprs_methods as]
  | _ => rfl

theorem exprs_methods (es : List Expr) : exprs n (Expr.methodsList es) = exprs n es := by
  cases es with
  | nil => rfl
  | cons e es => simp only [Expr.methodsList, exprs, expr_methods e, exprs_methods es]

theorem indexChain_methods (es : List Expr) (t : Ty) :
    indexChain n t (Expr.methodsList es) = indexChain n t es := by
  cases es with
  | nil => rfl
  | cons e es =>
    simp only [Expr.methodsList, indexChain, literalIndex_methods, expr_methods e, fun u => indexChain_methods es u]

end

theorem type_unplaced (e : Expr) : e.unplaced.type = e.type := by
  cases e <;> rfl

theorem literalIndex_unplaced (e : Expr) : literalIndex? e.unplaced = literalIndex? e := by
  cases e <;> rfl

theorem isName_unplaced (e : Expr) : isName e.unplaced = isName e := by
  cases e <;> rfl

theorem isUnary_unplaced (e : Expr) : isUnary e.unplaced = isUnary e := by
  cases e <;> rfl

mutual

/-- Places are not written. -/
theorem expr_unplaced (e : Expr) (level : Nat) : expr n level e.unplaced = expr n level e := by
  cases e with
  | binary i op l r =>
    simp only [Expr.unplaced, expr, fun k => expr_unplaced l k, fun k => expr_unplaced r k]
  | unary i op e => simp only [Expr.unplaced, expr, expr_unplaced e, isUnary_unplaced]
  | assign i op l r => simp only [Expr.unplaced, expr, expr_unplaced l, expr_unplaced r]
  | cast i t as => simp only [Expr.unplaced, expr, expr_unplaced t, exprs_unplaced as]
  | ternary i c t f => simp only [Expr.unplaced, expr, expr_unplaced c, expr_unplaced t, expr_unplaced f]
  | index i b is =>
    simp only [Expr.unplaced, expr, expr_unplaced b, isName_unplaced, exprs_unplaced is, type_unplaced,
      indexChain_unplaced is]
  | member i b ns =>
    simp only [Expr.unplaced, expr, expr_unplaced b, List.flatMap_map, Name.unplaced]
  | swizzle i b s => simp only [Expr.unplaced, expr, expr_unplaced b]
  | call i t as => simp only [Expr.unplaced, expr, expr_unplaced t, exprs_unplaced as]
  | method i o m as => simp only [Expr.unplaced, expr, expr_unplaced o, exprs_unplaced as]
  | intrinsic i f as =>
    cases as with
    | nil => simp only [Expr.unplaced, Expr.unplacedList, expr]
    | cons a as =>
      simp only [Expr.unplaced, Expr.unplacedList, expr, exprs, expr_unplaced a, exprs_unplaced as]
  | _ => simp only [Expr.unplaced, expr]

theorem exprs_unplaced (es : List Expr) : exprs n (Expr.unplacedList es) = exprs n es := by
  cases es with
  | nil => rfl
  | cons e es => simp only [Expr.unplacedList, exprs, expr_unplaced e, exprs_unplaced es]

theorem indexChain_unplaced (es : List Expr) (t : Ty) :
    indexChain n t (Expr.unplacedList es) = indexChain n t es := by
  cases es with
  | nil => rfl
  | cons e es =>
    simp only [Expr.unplacedList, indexChain, literalIndex_unplaced, expr_unplaced e,
      fun u => indexChain_unplaced es u]

end

end Canonical

end Shading
