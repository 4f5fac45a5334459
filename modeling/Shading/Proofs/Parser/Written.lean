import Shading.Parser
import Shading.Proofs.Decimal.Reading
import Shading.Proofs.Literal
import Shading.Proofs.Module.Declarations
import Shading.Proofs.Parser.Stream

/-! What the parser makes of tokens is as it is written: nothing has a number yet. -/
namespace Shading

namespace Parser

variable {α β : Type}

/-- Everything that a parser reads has a property. -/
structure Yields (p : Parser α) (Q : α → Prop) : Prop where
  run : ∀ {ts us a}, p ts = .ok (a, us) → Q a

namespace Yields

variable {p : Parser α} {f : α → Parser β} {P : α → Prop} {Q : β → Prop}

theorem bind (hp : Yields p P) (hf : ∀ a, P a → Yields (f a) Q) : Yields (p >>= f) Q := by
  refine ⟨fun h => ?_⟩
  obtain ⟨a, vs, ha, hb⟩ := bind_ok h
  exact (hf a (hp.run ha)).run hb

/-- Whatever is read first does not matter. -/
theorem step (hf : ∀ a, Yields (f a) Q) : Yields (p >>= f) Q := bind (P := fun _ => True) ⟨fun _ => trivial⟩ fun a _ => hf a

theorem pure {a : α} (h : P a) : Yields (Pure.pure a) P := by
  refine ⟨fun hrun => ?_⟩
  obtain ⟨rfl, -⟩ := pure_ok hrun
  exact h

theorem throw (e : ParseError) : Yields (throwThe ParseError e) P := ⟨fun h => by cases h⟩

theorem lift {x : Except ParseError α} (h : ∀ a, x = .ok a → P a) : Yields (liftM x) P := by
  refine ⟨fun hrun => ?_⟩
  obtain ⟨hx, -⟩ := lift_ok hrun
  exact h _ hx

theorem ite {c : Prop} [Decidable c] {q : Parser α} (hp : Yields p P) (hq : Yields q P) :
    Yields (if c then p else q) P := by
  split
  · exact hp
  · exact hq

end Yields

theorem isScalar_of_int {t : Text} {v : Value} (h : Literal.int t = .ok v) : v.isScalar := by
  obtain ⟨k, rfl⟩ | ⟨k, rfl, -⟩ := Literal.nonneg_of_int h
  · rfl
  · rfl

theorem isScalar_of_float {t : Text} {v : Value} (h : Literal.float? t = some v) : v.isScalar := by
  obtain ⟨x, rfl, -⟩ := Literal.isPlain_of_float h
  rfl

/-- All expressions of a list are as they are written. -/
def WrittenAll (es : List Expr) : Prop := ∀ e ∈ es, e.Written

theorem WrittenAll.cons {e : Expr} {es : List Expr} (he : e.Written) (hes : WrittenAll es) : WrittenAll (e :: es) :=
  List.forall_mem_cons.mpr ⟨he, hes⟩

theorem WrittenAll.nil : WrittenAll [] := List.forall_mem_nil _

theorem written_indexed {e : Expr} {es : List Expr} (he : e.Written) (hes : WrittenAll es) : (indexed e es).Written := by
  unfold indexed
  split
  · rename_i info b is
    refine .of_children trivial (WrittenAll.cons (he.child List.mem_cons_self) fun c hc => ?_)
    rcases List.mem_append.mp hc with hc | hc
    · exact he.child (List.mem_cons_of_mem _ hc)
    · exact hes c hc
  · exact .of_children trivial (WrittenAll.cons he hes)

theorem written_selected {e : Expr} (he : e.Written) (name : Name) : (selected e name).Written := by
  unfold selected
  split
  · exact .of_children trivial (WrittenAll.cons (he.child List.mem_cons_self) .nil)
  · exact .of_children trivial (WrittenAll.cons he .nil)

theorem written_name (info : ExprInfo) (name : Text) : (Expr.name info name).Written :=
  .of_children trivial WrittenAll.nil

theorem written_literal (info : ExprInfo) {v : Value} (hv : v.isScalar) : (Expr.literal info v).Written :=
  .of_children hv WrittenAll.nil

/-- Expressions are read as they are written, as deep as a number says. -/
structure YieldsWritten (fuel : Nat) : Prop where
  expression : Yields (expression fuel) Expr.Written
  operators : ∀ bound lhs, lhs.Written → Yields (operators fuel bound lhs) Expr.Written
  unary : Yields (unary fuel) Expr.Written
  postfixed : Yields (postfixed fuel) Expr.Written
  postfixes : ∀ e, e.Written → Yields (postfixes fuel e) Expr.Written
  indexList : Yields (indexList fuel) WrittenAll
  arguments : Yields (arguments fuel) WrittenAll
  argumentList : Yields (argumentList fuel) WrittenAll
  primary : Yields (primary fuel) Expr.Written

section

variable {fuel : Nat} (ih : YieldsWritten fuel)
include ih

theorem expression_succ : Yields (expression (fuel + 1)) Expr.Written := by
  refine ih.unary.bind fun lhs hlhs => ?_
  refine (ih.operators 0 lhs hlhs).bind fun cond hcond => ?_
  refine .step fun more => .ite (.pure hcond) (.step fun _ => ?_)
  refine ih.expression.bind fun yes hyes => .step fun _ => ?_
  refine ih.expression.bind fun no hno => .pure ?_
  exact .of_children trivial (WrittenAll.cons hcond (.cons hyes (.cons hno .nil)))

theorem operators_succ {lhs : Expr} (hlhs : lhs.Written) (bound : Nat) :
    Yields (operators (fuel + 1) bound lhs) Expr.Written := by
  refine .step fun kind => ?_
  cases hop : binaryOp? kind with
  | none => exact .pure hlhs
  | some x =>
    obtain ⟨level, op⟩ := x
    refine .ite (.pure hlhs) (.step fun _ => ?_)
    refine ih.unary.bind fun operand hoperand => .step fun next => ?_
    have hrest {rhs : Expr} (hrhs : rhs.Written) :
        Yields (operators fuel bound (.binary (untyped lhs.span) op lhs rhs)) Expr.Written :=
      ih.operators bound _ (.of_children trivial (WrittenAll.cons hlhs (.cons hrhs .nil)))
    split
    · exact .ite ((ih.operators _ operand hoperand).bind fun rhs hrhs => hrest hrhs) (hrest hoperand)
    · exact hrest hoperand

theorem unary_succ : Yields (unary (fuel + 1)) Expr.Written := by
  refine .step fun kind => ?_
  cases hop : unaryOp? kind with
  | none => exact ih.postfixed
  | some op =>
    refine .step fun tok => ih.unary.bind fun operand hoperand => .pure ?_
    exact .of_children trivial (WrittenAll.cons hoperand .nil)

theorem postfixed_succ : Yields (postfixed (fuel + 1)) Expr.Written := ih.primary.bind ih.postfixes

theorem postfixes_succ {e : Expr} (he : e.Written) : Yields (postfixes (fuel + 1) e) Expr.Written := by
  refine .step fun call => .ite ?_ (.step fun index => .ite ?_ (.step fun dot => .ite ?_ (.pure he)))
  · refine ih.arguments.bind fun args hargs => ih.postfixes _ ?_
    exact .of_children trivial (WrittenAll.cons he hargs)
  · refine ih.indexList.bind fun indices hindices => .step fun _ => ih.postfixes _ ?_
    exact written_indexed he hindices
  · refine .step fun name => .step fun method => .ite ?_ (ih.postfixes _ (written_selected he _))
    refine ih.arguments.bind fun args hargs => ih.postfixes _ ?_
    exact .of_children trivial (WrittenAll.cons he hargs)

theorem indexList_succ : Yields (indexList (fuel + 1)) WrittenAll := by
  refine ih.expression.bind fun e he => .step fun more => .ite ?_ (.pure (.cons he .nil))
  exact ih.indexList.bind fun es hes => .pure (.cons he hes)

theorem arguments_succ : Yields (arguments (fuel + 1)) WrittenAll :=
  .step fun _ => ih.argumentList.bind fun _ hargs => .step fun _ => .pure hargs

theorem argumentList_succ : Yields (argumentList (fuel + 1)) WrittenAll := by
  refine .step fun _ => .step fun _ => .ite (.pure .nil) ?_
  refine ih.expression.bind fun e he => .step fun more => .ite ?_ (.pure (.cons he .nil))
  exact ih.argumentList.bind fun es hes => .pure (.cons he hes)

theorem primary_succ : Yields (primary (fuel + 1)) Expr.Written := by
  refine .step fun tok => ?_
  split
  · refine .step fun _ => ?_
    split
    · rename_i v hv
      exact .pure (written_literal _ (isScalar_of_int hv))
    · exact .throw _
  · refine .step fun _ => ?_
    split
    · rename_i v hv
      exact .pure (written_literal _ (isScalar_of_float hv))
    · exact .throw _
  · exact .step fun _ => .pure (written_literal _ rfl)
  · exact .step fun _ => .pure (written_literal _ rfl)
  · refine .step fun _ => .step fun _ => .ite (.step fun _ => ?_) (.pure (written_name _ _))
    refine ih.postfixed.bind fun arg harg => .step fun _ => .pure ?_
    exact .of_children trivial (WrittenAll.cons (written_name _ _) (.cons harg .nil))
  · exact .step fun _ => ih.expression.bind fun e he => .step fun _ => .pure he
  · exact .throw _

end

theorem yieldsWritten (fuel : Nat) : YieldsWritten fuel := by
  induction fuel with
  | zero =>
    exact ⟨.throw _, fun _ _ _ => .throw _, .throw _, .throw _, fun _ _ => .throw _, .throw _, .throw _, .throw _, .throw _⟩
  | succ fuel ih =>
    exact ⟨expression_succ ih, fun bound _ h => operators_succ ih h bound, unary_succ ih, postfixed_succ ih,
      fun _ h => postfixes_succ ih h, indexList_succ ih, arguments_succ ih, argumentList_succ ih, primary_succ ih⟩

theorem yields_typeExpression (fuel : Nat) : Yields (typeExpression fuel) Expr.Written := (yieldsWritten fuel).postfixed

/-- An expression may be left out. -/
theorem Yields.optional {p : Parser Expr} {f : Expr → Parser β} {Q : β → Prop} (present : Bool)
    (hp : Yields p Expr.Written) (hf : ∀ e, e.Written → Yields (f e) Q) :
    Yields (if present = true then p >>= f else Pure.pure .absent >>= f) Q := .ite (hp.bind hf) (hf _ .absent)

/-- The arguments of all attributes are as they are written. -/
def WrittenAttributes (as : List Attribute) : Prop := ∀ a ∈ as, WrittenAll a.args

theorem WrittenAttributes.take {as : List Attribute} (h : WrittenAttributes as) (name : Text) :
    (∀ a ∈ (Attribute.take as name).1, WrittenAll a.args) ∧ WrittenAttributes (Attribute.take as name).2 :=
  ⟨fun a ha => h a (List.mem_of_find?_eq_some ha), fun a ha => h a (List.mem_filter.mp ha |>.1)⟩

theorem written_exprArg {a : Attribute} {e : Expr} (ha : WrittenAll a.args) (h : a.exprArg = .ok e) : e.Written := by
  unfold Attribute.exprArg at h
  split at h
  · rename_i hargs
    cases h
    exact ha e (by rw [hargs]; exact List.mem_cons_self)
  · cases h

theorem written_optionalArg {a : Option Attribute} {e : Expr} (ha : ∀ b ∈ a, WrittenAll b.args)
    (h : Attribute.optionalArg a = .ok e) : e.Written := by
  cases a with
  | none =>
    cases h
    exact .absent
  | some b => exact written_exprArg (ha b rfl) h

theorem written_flag {a : Option Attribute} {x : Attr Bool} (ha : ∀ b ∈ a, WrittenAll b.args)
    (h : Attribute.flag a = .ok x) : x.expr.Written := by
  cases a with
  | none =>
    cases h
    exact .absent
  | some b =>
    simp only [Attribute.flag] at h
    split at h
    · cases h
      exact .absent
    · cases hb : b.exprArg with
      | error e =>
        rw [hb] at h
        cases h
      | ok e =>
        rw [hb] at h
        cases h
        exact written_exprArg (ha b rfl) hb

theorem yields_attributeArguments (fuel : Nat) (a : Attribute) (ha : a.args = []) :
    Yields (attributeArguments fuel a) fun b => WrittenAll b.args := by
  have hnone : WrittenAll a.args := by rw [ha]; exact .nil
  have hclose (b : Attribute) (hb : WrittenAll b.args) :
      Yields (do
        let _ ← expect .rightParen
        if b.string.isNone && b.args.isEmpty then throw (.emptyArguments a.name a.span)
        return b) fun b => WrittenAll b.args :=
    .step fun _ => .ite (.throw _) (.pure hb)
  refine .step fun opened => .ite (.pure hnone) (.step fun isString => .ite (.step fun tok => ?_) ?_)
  · split
    · exact hclose _ hnone
    · exact .throw _
  · exact (yieldsWritten fuel).argumentList.bind fun args hargs => hclose _ hargs

theorem yields_attributeGroup (fuel : Nat) {seen : List Attribute} (hseen : WrittenAttributes seen) :
    Yields (attributeGroup seen fuel) WrittenAttributes := by
  induction fuel generalizing seen with
  | zero => exact .throw _
  | succ fuel ih =>
    refine .step fun name => .ite (.throw _) (.ite (.throw _) ?_)
    refine (yields_attributeArguments fuel _ rfl).bind fun a ha => .step fun more => ?_
    have hall : WrittenAttributes (seen ++ [a]) := by
      intro b hb
      rcases List.mem_append.mp hb with hb | hb
      · exact hseen b hb
      · rw [List.mem_singleton.mp hb]
        exact ha
    exact .ite (ih hall) (.step fun _ => .pure hall)

theorem yields_attributeGroups (fuel : Nat) {seen : List Attribute} (hseen : WrittenAttributes seen) :
    Yields (attributeGroups seen fuel) WrittenAttributes := by
  induction fuel generalizing seen with
  | zero => exact .throw _
  | succ fuel ih =>
    exact .step fun _ => .ite ((yields_attributeGroup fuel hseen).bind fun all hall => ih hall) (.pure hseen)

theorem yields_attributes (fuel : Nat) : Yields (attributes fuel) WrittenAttributes :=
  yields_attributeGroups fuel (List.forall_mem_nil _)

theorem yields_optionalArg {a : Option Attribute} (ha : ∀ b ∈ a, WrittenAll b.args) :
    Yields (liftM (Attribute.optionalArg a)) Expr.Written := .lift fun _ h => written_optionalArg ha h

theorem yields_flag {a : Option Attribute} (ha : ∀ b ∈ a, WrittenAll b.args) :
    Yields (liftM (Attribute.flag a)) fun x => x.expr.Written := .lift fun _ h => written_flag ha h

/-- A statement without statements inside it. -/
theorem written_simple {s : Stmt} (hown : ∀ d ∈ s.own {}, d.key.2 = 0) (hlet : ∀ span d, s ≠ .letVar span d)
    (hexprs : WrittenAll s.ownExprs) (hchildren : s.children = []) : s.Written := by
  refine .of_children (.of_own hown hlet) hexprs ?_
  rw [hchildren]
  exact List.forall_mem_nil _

theorem yields_importDecl (fuel : Nat) (attrs : List Attribute) : Yields (importDecl fuel attrs) Stmt.Written := by
  have himport (span : Span) (name : Text) (items : List ImportItem) : (Stmt.importFrom span name items).Written :=
    written_simple (List.forall_mem_nil _) (by simp) .nil rfl
  refine .step fun _ => .step fun start => .step fun place => .step fun first => .step fun all => ?_
  refine .ite (.pure (himport _ _ _)) (.ite (.throw _) (.step fun items => .step fun _ => .step fun name => .step fun _ => ?_))
  exact .pure (himport _ _ _)

theorem yields_optionDecl (fuel : Nat) (attrs : List Attribute) : Yields (optionDecl fuel attrs) Stmt.Written := by
  refine .step fun _ => .step fun start => .step fun name => .step fun _ => ?_
  refine (yields_typeExpression fuel).bind fun type htype => .step fun given => ?_
  refine .optional given (yieldsWritten fuel).expression fun e he => .step fun _ => .pure ?_
  exact written_simple (List.forall_mem_singleton.mpr rfl) (by simp) (.cons htype (.cons he .nil)) rfl

theorem yields_constDecl (fuel : Nat) {attrs : List Attribute} (hattrs : WrittenAttributes attrs) :
    Yields (constDecl fuel attrs) Stmt.Written := by
  refine (yields_flag (hattrs.take _).1).bind fun exported hexported => .step fun _ => ?_
  refine .step fun start => .step fun name => .step fun typed => ?_
  refine .optional typed (yields_typeExpression fuel) fun type htype => .step fun _ => ?_
  refine (yieldsWritten fuel).expression.bind fun value hvalue => .step fun _ => .pure ?_
  exact written_simple (List.forall_mem_singleton.mpr rfl) (by simp)
    (.cons htype (.cons hvalue (.cons hexported .nil))) rfl

theorem yields_aliasDecl (fuel : Nat) {attrs : List Attribute} (hattrs : WrittenAttributes attrs) :
    Yields (aliasDecl fuel attrs) Stmt.Written := by
  refine (yields_flag (hattrs.take _).1).bind fun exported hexported => .step fun _ => ?_
  refine .step fun start => .step fun name => .step fun _ => ?_
  refine (yields_typeExpression fuel).bind fun target htarget => .step fun _ => .pure ?_
  exact written_simple (List.forall_mem_singleton.mpr rfl) (by simp)
    (.cons htarget (.cons hexported .nil)) rfl

theorem yields_structMember (fuel : Nat) : Yields (structMember fuel) fun m => WrittenAll (Stmt.memberExprs m) := by
  refine (yields_attributes fuel).bind fun attrs hattrs => ?_
  refine (yields_optionalArg (hattrs.take _).1).bind fun builtin hbuiltin => ?_
  refine (yields_optionalArg ((hattrs.take _).2.take _).1).bind fun location hlocation => ?_
  refine (yields_optionalArg (((hattrs.take _).2.take _).2.take _).1).bind fun cond hcond => ?_
  refine .step fun _ => .step fun name => .step fun _ => ?_
  refine (yields_typeExpression fuel).bind fun type htype => .pure ?_
  exact .cons htype (.cons hbuiltin (.cons hlocation (.cons hcond .nil)))

theorem yields_structMembers (fuel : Nat) :
    Yields (structMembers fuel) fun ms => ∀ m ∈ ms, WrittenAll (Stmt.memberExprs m) := by
  induction fuel with
  | zero => exact .throw _
  | succ fuel ih =>
    refine .step fun _ => .step fun _ => .ite (.pure (List.forall_mem_nil _)) ?_
    refine (yields_structMember fuel).bind fun m hm => .step fun _ => .ite (ih.bind fun ms hms => .pure ?_) (.pure ?_)
    · exact List.forall_mem_cons.mpr ⟨hm, hms⟩
    · exact List.forall_mem_singleton.mpr hm

theorem yields_structDecl (fuel : Nat) {attrs : List Attribute} (hattrs : WrittenAttributes attrs) :
    Yields (structDecl fuel attrs) Stmt.Written := by
  refine (yields_flag (hattrs.take _).1).bind fun exported hexported => ?_
  refine (yields_optionalArg ((hattrs.take _).2.take _).1).bind fun layout hlayout => .step fun _ => ?_
  refine .step fun start => .step fun name => .step fun _ => ?_
  refine (yields_structMembers fuel).bind fun members hmembers => .step fun _ => .ite (.throw _) (.pure ?_)
  refine written_simple (List.forall_mem_singleton.mpr rfl) (by simp) (.cons hexported (.cons hlayout fun e he => ?_)) rfl
  obtain ⟨m, hm, he⟩ := List.mem_flatMap.mp he
  exact hmembers m hm e he

theorem yields_externalVar (fuel : Nat) :
    Yields (externalVar fuel) fun v => v.id = 0 ∧ WrittenAll (Stmt.externalExprs v) := by
  refine (yields_attributes fuel).bind fun attrs hattrs => ?_
  refine (yields_optionalArg (hattrs.take _).1).bind fun set hset => ?_
  refine (yields_optionalArg ((hattrs.take _).2.take _).1).bind fun binding hbinding => ?_
  refine .step fun _ => .step fun name => .step fun _ => ?_
  refine (yields_typeExpression fuel).bind fun type htype => .pure ⟨rfl, ?_⟩
  exact .cons htype (.cons hset (.cons hbinding .nil))

theorem yields_externalVars (fuel : Nat) :
    Yields (externalVars fuel) fun vs => ∀ v ∈ vs, v.id = 0 ∧ WrittenAll (Stmt.externalExprs v) := by
  induction fuel with
  | zero => exact .throw _
  | succ fuel ih =>
    refine .step fun _ => .step fun _ => .ite (.pure (List.forall_mem_nil _)) ?_
    refine (yields_externalVar fuel).bind fun v hv => .step fun _ => .ite (ih.bind fun vs hvs => .pure ?_) (.pure ?_)
    · exact List.forall_mem_cons.mpr ⟨hv, hvs⟩
    · exact List.forall_mem_singleton.mpr hv

theorem yields_externalDecl (fuel : Nat) {attrs : List Attribute} (hattrs : WrittenAttributes attrs) :
    Yields (externalDecl fuel attrs) Stmt.Written := by
  refine (yields_optionalArg (hattrs.take _).1).bind fun set hset => .step fun _ => .step fun start => .step fun _ => ?_
  refine (yields_externalVars fuel).bind fun vars hvars => .step fun _ => .pure ?_
  refine written_simple ?_ (by simp) (.cons hset ?_) rfl
  · intro d hd
    obtain ⟨v, hv, rfl⟩ := List.mem_map.mp hd
    exact (hvars v hv).1
  · intro e he
    obtain ⟨v, hv, he⟩ := List.mem_flatMap.mp he
    exact (hvars v hv).2 e he

theorem yields_letStmt (fuel : Nat) : Yields (letStmt fuel) Stmt.Written := by
  refine .step fun start => .step fun name => .step fun typed => ?_
  refine .optional typed (yields_typeExpression fuel) fun type htype => .step fun given => ?_
  refine .optional given (yieldsWritten fuel).expression fun init hinit => ?_
  dsimp only
  split
  · exact .step fun _ => .throw _
  · rename_i hpresent
    refine .step fun _ => .pure (.of_children ⟨List.forall_mem_singleton.mpr rfl, fun span d hd => ?_⟩
      (WrittenAll.cons htype (.cons hinit .nil)) (List.forall_mem_nil _))
    cases hd
    cases htype : type.isAbsent <;> simp_all

theorem yields_returnStmt (fuel : Nat) : Yields (returnStmt fuel) Stmt.Written := by
  refine .step fun start => .step fun alone => ?_
  have hclose (e : Expr) (he : e.Written) :
      Yields (expect .semicolon >>= fun _ => pure (Stmt.returnWith start.span e)) Stmt.Written :=
    .step fun _ => .pure (written_simple (List.forall_mem_nil _) (by simp) (.cons he .nil) rfl)
  exact .ite (hclose _ .absent) ((yieldsWritten fuel).expression.bind hclose)

theorem yields_expressionStmt (fuel : Nat) : Yields (expressionStmt fuel) Stmt.Written := by
  refine .step fun start => (yieldsWritten fuel).expression.bind fun lhs hlhs => .step fun kind => ?_
  have hclose (e : Expr) (he : e.Written) :
      Yields (expect .semicolon >>= fun _ => pure (Stmt.expr start.span e)) Stmt.Written :=
    .step fun _ => .pure (written_simple (List.forall_mem_nil _) (by simp) (.cons he .nil) rfl)
  split
  · refine .step fun _ => (yieldsWritten fuel).expression.bind fun rhs hrhs => hclose _ ?_
    exact .of_children trivial (WrittenAll.cons hlhs (.cons hrhs .nil))
  · exact hclose lhs hlhs

theorem yields_parenExpression (fuel : Nat) : Yields (parenExpression fuel) Expr.Written :=
  .step fun _ => (yieldsWritten fuel).expression.bind fun _ he => .step fun _ => .pure he

theorem yields_statementAttributes (fuel : Nat) : Yields (statementAttributes fuel) fun u => u.expr.Written := by
  refine (yields_attributes fuel).bind fun attrs hattrs => ?_
  have htaken := (hattrs.take "unroll").1
  dsimp only
  cases hunroll : (Attribute.take attrs "unroll").1 with
  | none => exact (Yields.pure (P := fun u : Attr Unroll => u.expr.Written) .absent).bind fun u hu => .step fun _ => .pure hu
  | some a =>
    rw [hunroll] at htaken
    have hloop {u : Attr Unroll} (hu : u.expr.Written) : Yields (pure u) fun u : Attr Unroll => u.expr.Written := .pure hu
    refine .ite ((hloop (u := .known .always) .absent).bind ?_)
      (.bind (.lift fun e he => written_exprArg (htaken a rfl) he) fun e he => (hloop (u := ⟨e, none⟩) he).bind ?_)
    all_goals
      refine fun u hu => .step fun _ => .step fun _ => .ite (.step fun _ => .throw _) ?_
      exact (hloop hu).bind fun u hu => .step fun _ => .pure hu

/-- All statements of a list are as they are written. -/
def WrittenStmts (ss : List Stmt) : Prop := ∀ s ∈ ss, s.Written

/-- Statements are read as they are written, as deep as a number says. -/
structure YieldsStmts (fuel : Nat) : Prop where
  block : Yields (block fuel) WrittenStmts
  statements : Yields (statements fuel) WrittenStmts
  statement : Yields (statement fuel) Stmt.Written
  branches : ∀ isConst start arms, (∀ a ∈ arms, a.1.Written ∧ a.2.Written) →
    Yields (branches fuel isConst start arms) Stmt.Written
  forStmt : ∀ unroll : Attr Unroll, unroll.expr.Written → Yields (forStmt fuel unroll) Stmt.Written

theorem written_branch {span : Span} {isConst : Bool} {arms : List (Expr × Stmt)} {other : Stmt}
    (harms : ∀ a ∈ arms, a.1.Written ∧ a.2.Written) (hother : other.Written) :
    (Stmt.branch span isConst arms other).Written := by
  refine .of_children (.of_own (List.forall_mem_nil _) (by simp)) (fun e he => ?_) fun s hs => ?_
  · obtain ⟨a, ha, rfl⟩ := List.mem_map.mp he
    exact (harms a ha).1
  · rcases List.mem_append.mp hs with hs | hs
    · obtain ⟨a, ha, rfl⟩ := List.mem_map.mp hs
      exact (harms a ha).2
    · rw [List.mem_singleton.mp hs]
      exact hother

section

variable {fuel : Nat} (ih : YieldsStmts fuel)
include ih

theorem block_succ : Yields (block (fuel + 1)) WrittenStmts :=
  .step fun _ => ih.statements.bind fun _ hbody => .step fun _ => .pure hbody

theorem statements_succ : Yields (statements (fuel + 1)) WrittenStmts := by
  refine .step fun _ => .step fun _ => .ite (.pure (List.forall_mem_nil _)) ?_
  exact ih.statement.bind fun s hs => ih.statements.bind fun ss hss => .pure (List.forall_mem_cons.mpr ⟨hs, hss⟩)

theorem branches_succ (isConst : Bool) (start : Span) {arms : List (Expr × Stmt)}
    (harms : ∀ a ∈ arms, a.1.Written ∧ a.2.Written) : Yields (branches (fuel + 1) isConst start arms) Stmt.Written := by
  refine .step fun _ => (yields_parenExpression fuel).bind fun cond hcond => ih.statement.bind fun body hbody => ?_
  have hmore : ∀ a ∈ arms ++ [(cond, body)], a.1.Written ∧ a.2.Written :=
    List.forall_mem_append.mpr ⟨harms, List.forall_mem_singleton.mpr ⟨hcond, hbody⟩⟩
  refine .step fun _ => .ite (.pure (written_branch hmore .absent)) (.step fun _ => ?_)
  exact .ite (ih.branches _ _ _ hmore) (ih.statement.bind fun other hother => .pure (written_branch hmore hother))

theorem forStmt_succ {unroll : Attr Unroll} (hunroll : unroll.expr.Written) :
    Yields (forStmt (fuel + 1) unroll) Stmt.Written := by
  refine .step fun start => .step fun name => .step fun _ => ?_
  refine (yieldsWritten fuel).expression.bind fun e he => .step fun ranged => .ite ?_ ?_
  · refine ih.statement.bind fun body hbody => .pure ?_
    exact .of_children (.of_own (List.forall_mem_singleton.mpr rfl) (by simp))
      (WrittenAll.cons hunroll (.cons he .nil)) (List.forall_mem_singleton.mpr hbody)
  · refine (yieldsWritten fuel).expression.bind fun stop hstop => .step fun stepped => ?_
    refine .optional stepped (yieldsWritten fuel).expression fun step hstep => ih.statement.bind fun body hbody => .pure ?_
    exact .of_children (.of_own (List.forall_mem_singleton.mpr rfl) (by simp))
      (WrittenAll.cons hunroll (.cons he (.cons hstop (.cons hstep .nil)))) (List.forall_mem_singleton.mpr hbody)

theorem statement_succ : Yields (statement (fuel + 1)) Stmt.Written := by
  refine (yields_statementAttributes fuel).bind fun unroll hunroll => .step fun tok => ?_
  have halone {s : Stmt} (hown : s.own {} = []) (hlet : ∀ span d, s ≠ .letVar span d) (hexprs : s.ownExprs = [])
      (hchildren : s.children = []) : s.Written :=
    written_simple (hown ▸ List.forall_mem_nil _) hlet (hexprs ▸ .nil) hchildren
  split
  · refine ih.block.bind fun body hbody => .pure ?_
    have hmulti : (Stmt.multi tok.span body).Written :=
      .of_children (.of_own (List.forall_mem_nil _) (by simp)) WrittenAll.nil hbody
    exact .of_children (.of_own (List.forall_mem_nil _) (by simp)) WrittenAll.nil (List.forall_mem_singleton.mpr hmulti)
  · exact yields_letStmt fuel
  · refine .step fun second => .ite (.step fun _ => ?_) (yields_constDecl fuel (List.forall_mem_nil _))
    exact ih.branches _ _ _ (List.forall_mem_nil _)
  · exact ih.branches _ _ _ (List.forall_mem_nil _)
  · refine .step fun start => (yields_parenExpression fuel).bind fun cond hcond => ih.statement.bind fun body hbody => .pure ?_
    exact .of_children (.of_own (List.forall_mem_nil _) (by simp)) (WrittenAll.cons hunroll (.cons hcond .nil))
      (List.forall_mem_singleton.mpr hbody)
  · exact ih.forStmt unroll hunroll
  · exact yields_returnStmt fuel
  · exact .step fun _ => .step fun _ => .pure (halone rfl (by simp) rfl rfl)
  · exact .step fun _ => .step fun _ => .pure (halone rfl (by simp) rfl rfl)
  · exact .step fun _ => .step fun _ => .pure (halone rfl (by simp) rfl rfl)
  · exact .step fun _ => .pure (halone rfl (by simp) rfl rfl)
  · exact yields_expressionStmt fuel

end

theorem yieldsStmts (fuel : Nat) : YieldsStmts fuel := by
  induction fuel with
  | zero => exact ⟨.throw _, .throw _, .throw _, fun _ _ _ _ => .throw _, fun _ _ => .throw _⟩
  | succ fuel ih =>
    exact ⟨block_succ ih, statements_succ ih, statement_succ ih, fun isConst start _ h => branches_succ ih isConst start h,
      fun _ h => forStmt_succ ih h⟩

theorem yields_parameters (fuel : Nat) : Yields (parameters fuel) fun ps => ∀ p ∈ ps, p.id = 0 ∧ p.type.Written := by
  induction fuel with
  | zero => exact .throw _
  | succ fuel ih =>
    refine .step fun _ => .step fun _ => .ite (.pure (List.forall_mem_nil _)) (.step fun name => .step fun _ => ?_)
    refine (yields_typeExpression fuel).bind fun type htype => .step fun _ => .ite (ih.bind fun ps hps => .pure ?_) (.pure ?_)
    · exact List.forall_mem_cons.mpr ⟨⟨rfl, htype⟩, hps⟩
    · exact List.forall_mem_singleton.mpr ⟨rfl, htype⟩

theorem written_workgroupExpr {a : Attribute} {e : Expr} (ha : WrittenAll a.args) (h : workgroupExpr a = .ok e) :
    e.Written := by
  unfold workgroupExpr at h
  split at h
  · cases h
  · cases h
    refine .of_children trivial (WrittenAll.cons ?_ (List.forall_mem_append.mpr ⟨ha, fun x hx => ?_⟩))
    · exact .of_children trivial (WrittenAll.cons (written_name _ _) (.cons (written_name _ _) .nil))
    · rw [(List.mem_replicate.mp hx).2]
      exact written_literal _ rfl

/-- The sizes of a workgroup may be left out. -/
theorem Yields.workgroup {a : Option Attribute} {f : Expr → Parser β} {Q : β → Prop} (ha : ∀ b ∈ a, WrittenAll b.args)
    (hf : ∀ e : Expr, e.Written → Yields (f e) Q) :
    Yields (match a with
      | some a => liftM (workgroupExpr a) >>= f
      | none => Pure.pure Expr.absent >>= f) Q := by
  cases a with
  | none => exact hf _ .absent
  | some b => exact .bind (.lift fun e he => written_workgroupExpr (ha b rfl) he) hf

theorem yields_functionDecl (fuel : Nat) {attrs : List Attribute} (hattrs : WrittenAttributes attrs) :
    Yields (functionDecl fuel attrs) Stmt.Written := by
  have hentry := hattrs.take "entry"
  have hearly := hentry.2.take "early_fragment_tests"
  have hdepth := hearly.2.take "depth_write"
  have hgroup := hdepth.2.take "workgroup"
  have hexport := hgroup.2.take "export"
  refine (yields_optionalArg hentry.1).bind fun stage hstage => ?_
  refine (yields_flag hearly.1).bind fun earlyTests hearlyTests => ?_
  refine (yields_optionalArg hdepth.1).bind fun depthWrite hdepthWrite => ?_
  refine .workgroup hgroup.1 fun workgroup hworkgroup => ?_
  refine (yields_flag hexport.1).bind fun exported hexported => .step fun _ => ?_
  refine .step fun start => .step fun name => .step fun _ => ?_
  refine (yields_parameters fuel).bind fun params hparams => .step fun _ => .step fun arrow => ?_
  refine .optional arrow (yields_typeExpression fuel) fun result hresult => ?_
  refine (yieldsStmts fuel).block.bind fun body hbody => .pure ?_
  refine .of_children (.of_own ?_ (by simp)) (List.forall_mem_append.mpr ⟨List.forall_mem_append.mpr ⟨?_, ?_⟩, ?_⟩) hbody
  · refine List.forall_mem_cons.mpr ⟨rfl, fun d hd => ?_⟩
    obtain ⟨p, hp, rfl⟩ := List.mem_map.mp hd
    exact (hparams p hp).1
  · exact WrittenAll.cons hstage (.cons hearlyTests (.cons hdepthWrite (.cons hworkgroup (.cons hexported .nil))))
  · intro e he
    obtain ⟨p, hp, rfl⟩ := List.mem_map.mp he
    exact (hparams p hp).2
  · exact WrittenAll.cons hresult .nil

theorem yields_declaration (fuel : Nat) : Yields (declaration fuel) Stmt.Written := by
  refine (yields_attributes fuel).bind fun attrs hattrs => ?_
  have hcond := hattrs.take "cond"
  refine (yields_optionalArg hcond.1).bind fun cond hcondition => .step fun tok => ?_
  have hclose (s : Stmt) (hs : s.Written) :
      Yields (pure (if cond.isPresent then .conditional s.span cond s else s)) Stmt.Written := by
    refine .pure ?_
    split
    · exact .of_children (.of_own (List.forall_mem_nil _) (by simp)) (WrittenAll.cons hcondition .nil)
        (List.forall_mem_singleton.mpr hs)
    · exact hs
  dsimp only
  split
  · exact (yields_importDecl fuel _).bind hclose
  · exact (yields_optionDecl fuel _).bind hclose
  · exact (yields_constDecl fuel hcond.2).bind hclose
  · exact (yields_aliasDecl fuel hcond.2).bind hclose
  · exact (yields_structDecl fuel hcond.2).bind hclose
  · exact (yields_externalDecl fuel hcond.2).bind hclose
  · exact (yields_functionDecl fuel hcond.2).bind hclose
  · exact .throw _

theorem yields_declarations (fuel : Nat) : Yields (declarations fuel) WrittenStmts := by
  induction fuel with
  | zero => exact .throw _
  | succ fuel ih =>
    refine .step fun _ => .ite (.pure (List.forall_mem_nil _)) ?_
    exact (yields_declaration fuel).bind fun d hd => ih.bind fun ds hds => .pure (List.forall_mem_cons.mpr ⟨hd, hds⟩)

end Parser

namespace Module

/-- A module as it is written. It has no imported modules with it yet. -/
structure Written (m : Module) : Prop where
  root : m.rootStmt.Written
  imported : m.imported = []

theorem written_moduleOf (fuel : Nat) : Parser.Yields (Parser.moduleOf fuel) Written := by
  refine .step fun metadata => .step fun place => ?_
  refine (Parser.yields_declarations fuel).bind fun body hbody => .pure ⟨?_, rfl⟩
  exact .of_children (.of_own (List.forall_mem_nil _) nofun) Parser.WrittenAll.nil hbody

theorem written_ofTokens {ts : List Token} {m : Module} (h : ofTokens ts = .ok m) : m.Written := by
  unfold ofTokens at h
  rw [StateT.run'] at h
  cases hrun : Parser.moduleOf (Parser.fuelFor ts) ts with
  | error e =>
    rw [hrun] at h
    cases h
  | ok r =>
    rw [hrun] at h
    cases h
    exact (written_moduleOf _).run hrun

/-- A parsed module is as it is written. -/
theorem written_parse {source : Text} {m : Module} (h : parse source = .ok m) : m.Written := by
  unfold parse at h
  cases hts : tokenize [] source with
  | error e =>
    rw [hts] at h
    cases h
  | ok ts =>
    rw [hts] at h
    exact written_ofTokens h

end Module

end Shading
