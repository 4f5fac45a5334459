import Shading.Proofs.Parser.Position
import Shading.Proofs.Parser.Rule

/-! The parser always gets on. What a loop or a function that comes back to itself takes of rules that are not of a
lower rank, it takes behind a token that it has passed. So the tokens in front of the first end of the file bound the
depth of the recursion, and all is read from them. -/
namespace Shading.Parser

theorem bind_ne_exhausted {α β : Type} {x : Except ParseError α} {f : α → Except ParseError β}
    (hx : x ≠ .error .exhausted) (hf : ∀ a, f a ≠ .error .exhausted) : x >>= f ≠ .error .exhausted := by
  cases x with
  | error e => exact fun he => hx (congrArg Except.error (Except.error.inj he))
  | ok a => exact hf a

namespace Attribute

theorem rejectAll_ne (as : List Attribute) (what : Text) : rejectAll as what ≠ .error .exhausted := by
  cases as <;> nofun

theorem stringArg_ne (a : Attribute) : a.stringArg ≠ .error .exhausted := by
  unfold stringArg
  cases a.string <;> nofun

theorem exprArg_ne (a : Attribute) : a.exprArg ≠ .error .exhausted := by
  unfold exprArg
  split <;> nofun

theorem optionalArg_ne (a : Option Attribute) : optionalArg a ≠ .error .exhausted := by
  cases a with
  | none => nofun
  | some a => exact a.exprArg_ne

theorem flag_ne (a : Option Attribute) : flag a ≠ .error .exhausted := by
  cases a with
  | none => nofun
  | some a =>
    rw [flag]
    split
    · nofun
    · exact bind_ne_exhausted a.exprArg_ne fun _ => nofun

end Attribute

theorem headAttribute_ne (m : Metadata) (a : Attribute) : headAttribute m a ≠ .error .exhausted := by
  have htext (f : Text → Metadata) : (do return f (← a.stringArg)) ≠ Except.error ParseError.exhausted :=
    bind_ne_exhausted a.stringArg_ne fun _ => nofun
  unfold headAttribute
  split
  · refine bind_ne_exhausted a.stringArg_ne fun t => ?_
    cases languageVersion? t <;> nofun
  split
  · exact htext _
  split
  · exact htext _
  split
  · exact htext _
  · nofun

theorem foldlM_headAttribute_ne (as : List Attribute) (m : Metadata) :
    as.foldlM (m := Except ParseError) headAttribute m ≠ .error .exhausted := by
  induction as generalizing m with
  | nil => nofun
  | cons a as ih =>
    rw [List.foldlM_cons]
    exact bind_ne_exhausted (headAttribute_ne m a) fun m => ih m

theorem workgroupExpr_ne (a : Attribute) : workgroupExpr a ≠ .error .exhausted := by
  unfold workgroupExpr
  split <;> nofun

/-- Two families of parsers are alike behind a place, and those of lower ranks at the place as well. -/
structure Calls (ts us : List Token) (m rank : Nat) (call call' : ∀ ⦃α : Type⦄, Rule α → Parser α) : Prop where
  behind : ∀ {α : Type} (r : Rule α), Alike ts us (m + 1) r.least (call r) (call' r)
  lower : ∀ {α : Type} (r : Rule α), r.rank < rank → Alike ts us m r.least (call r) (call' r)

variable {α : Type} {ts us : List Token} {m n fuel fuel' : Nat}

theorem Calls.next {call call' : ∀ ⦃α : Type⦄, Rule α → Parser α} (h : Calls ts us m n call call') :
    Calls ts us (m + 1) 5 call call' :=
  ⟨fun r => (h.behind r).later (Nat.le_succ _), fun r _ => h.behind r⟩

section

variable (h : Calls ts us m 5 (Rule.runs fuel) (Rule.runs fuel'))
include h

theorem expression_alike : Alike ts us m 1 (expression fuel) (expression fuel') := h.lower .expression (by decide)

theorem typeExpression_alike : Alike ts us m 1 (typeExpression fuel) (typeExpression fuel') :=
  h.lower .postfixed (by decide)

theorem attributes_alike : Alike ts us m 0 (attributes fuel) (attributes fuel') :=
  h.lower (.attributeGroups []) (by decide)

theorem dottedName_alike : Alike ts us m 1 (dottedName fuel) (dottedName fuel') :=
  (expect_alike (by decide)).bind fun first => h.behind (.dottedRest first.lexeme)

theorem parenExpression_alike : Alike ts us m 1 (parenExpression fuel) (parenExpression fuel') :=
  (expect_alike (by decide)).bind fun _ => (expression_alike h.next).bind fun _ =>
    (expect_alike (by decide)).bind fun _ => .pure _

theorem attributeArguments_alike (a : Attribute) :
    Alike ts us m 0 (attributeArguments fuel a) (attributeArguments fuel' a) := by
  unfold attributeArguments
  refine accept_ite_not (by decide) (.pure _) ?_
  refine (check_alike _).bind fun quoted => .ite (advance_alike.bind fun tok => ?_) ?_
  · cases Literal.string tok.lexeme with
    | error e => exact .throw_bind nofun
    | ok s =>
      refine (AlikeWhere.pure _).bind fun given => (expect_alike (by decide)).bind fun _ => ?_
      exact .ite (.throw_bind nofun) (.pure _)
  · refine (h.behind .argumentList).bind fun args => (AlikeWhere.pure _).bind fun given => ?_
    exact (expect_alike (by decide)).bind fun _ => .ite (.throw_bind nofun) (.pure _)

theorem importDecl_alike (attrs : List Attribute) : Alike ts us m 1 (importDecl fuel attrs) (importDecl fuel' attrs) := by
  unfold importDecl
  refine (AlikeWhere.lift (Attribute.rejectAll_ne _ _)).bind fun _ => ?_
  refine advance_alike.bind fun start => peek_bind fun place => .narrow ?_
  refine (dottedName_alike h).bind fun first => ?_
  refine (accept_alike _).bind fun whole => .ite (.pure _) ?_
  refine .ite (.throw_bind nofun) ?_
  refine (h.behind (.importItems { span := place.span, name := first })).bind fun items => ?_
  refine (expect_alike (by decide)).bind fun _ => (dottedName_alike h.next.next).bind fun name => ?_
  exact (expect_alike (by decide)).bind fun _ => .pure _

theorem optionDecl_alike (attrs : List Attribute) : Alike ts us m 1 (optionDecl fuel attrs) (optionDecl fuel' attrs) := by
  unfold optionDecl
  refine (AlikeWhere.lift (Attribute.rejectAll_ne _ _)).bind fun _ => ?_
  refine advance_alike.bind fun start => (expect_alike (by decide)).bind fun name => ?_
  refine (expect_alike (by decide)).bind fun _ => (typeExpression_alike h.next.next).bind fun type => ?_
  refine (accept_alike _).bind fun given => ?_
  refine .ite_bind ((expression_alike h.next.next.next).weaken (by decide)) (.pure _) fun default => ?_
  exact (expect_alike (by decide)).bind fun _ => .pure _

theorem constDecl_alike (attrs : List Attribute) : Alike ts us m 1 (constDecl fuel attrs) (constDecl fuel' attrs) := by
  unfold constDecl
  cases Attribute.take attrs "export" with | mk exportAttr attrs
  refine (AlikeWhere.lift (Attribute.flag_ne _)).bind fun exported => ?_
  refine (AlikeWhere.lift (Attribute.rejectAll_ne _ _)).bind fun _ => ?_
  refine advance_alike.bind fun start => (expect_alike (by decide)).bind fun name => ?_
  refine (accept_alike _).bind fun typed => ?_
  refine .ite_bind ((typeExpression_alike h.next).weaken (by decide)) (.pure _) fun type => ?_
  refine (expect_alike (by decide)).bind fun _ => (expression_alike h.next.next).bind fun value => ?_
  exact (expect_alike (by decide)).bind fun _ => .pure _

theorem aliasDecl_alike (attrs : List Attribute) : Alike ts us m 1 (aliasDecl fuel attrs) (aliasDecl fuel' attrs) := by
  unfold aliasDecl
  cases Attribute.take attrs "export" with | mk exportAttr attrs
  refine (AlikeWhere.lift (Attribute.flag_ne _)).bind fun exported => ?_
  refine (AlikeWhere.lift (Attribute.rejectAll_ne _ _)).bind fun _ => ?_
  refine advance_alike.bind fun start => (expect_alike (by decide)).bind fun name => ?_
  refine (expect_alike (by decide)).bind fun _ => (typeExpression_alike h.next.next).bind fun target => ?_
  exact (expect_alike (by decide)).bind fun _ => .pure _

theorem structMember_alike : Alike ts us m 1 (structMember fuel) (structMember fuel') := by
  unfold structMember
  refine (attributes_alike h).bind fun attrs => ?_
  cases Attribute.take attrs "builtin" with | mk builtinAttr attrs
  refine (AlikeWhere.lift (Attribute.optionalArg_ne _)).bind fun builtin => ?_
  cases Attribute.take attrs "location" with | mk locationAttr attrs
  refine (AlikeWhere.lift (Attribute.optionalArg_ne _)).bind fun location => ?_
  cases Attribute.take attrs "cond" with | mk condAttr attrs
  refine (AlikeWhere.lift (Attribute.optionalArg_ne _)).bind fun cond => ?_
  refine (AlikeWhere.lift (Attribute.rejectAll_ne _ _)).bind fun _ => ?_
  refine (expect_alike (by decide)).bind fun name => (expect_alike (by decide)).bind fun _ => ?_
  exact (typeExpression_alike h.next.next).bind fun type => .pure _

theorem structDecl_alike (attrs : List Attribute) : Alike ts us m 1 (structDecl fuel attrs) (structDecl fuel' attrs) := by
  unfold structDecl
  cases Attribute.take attrs "export" with | mk exportAttr attrs
  refine (AlikeWhere.lift (Attribute.flag_ne _)).bind fun exported => ?_
  cases Attribute.take attrs "layout" with | mk layoutAttr attrs
  refine (AlikeWhere.lift (Attribute.optionalArg_ne _)).bind fun layout => ?_
  refine (AlikeWhere.lift (Attribute.rejectAll_ne _ _)).bind fun _ => ?_
  refine advance_alike.bind fun start => (expect_alike (by decide)).bind fun name => ?_
  refine (expect_alike (by decide)).bind fun _ => (h.next.behind .structMembers).bind fun members => ?_
  refine (expect_alike (by decide)).bind fun _ => .ite (.throw_bind nofun) (.pure _)

theorem externalVar_alike : Alike ts us m 1 (externalVar fuel) (externalVar fuel') := by
  unfold externalVar
  refine (attributes_alike h).bind fun attrs => ?_
  cases Attribute.take attrs "set" with | mk setAttr attrs
  refine (AlikeWhere.lift (Attribute.optionalArg_ne _)).bind fun set => ?_
  cases Attribute.take attrs "binding" with | mk bindingAttr attrs
  refine (AlikeWhere.lift (Attribute.optionalArg_ne _)).bind fun binding => ?_
  refine (AlikeWhere.lift (Attribute.rejectAll_ne _ _)).bind fun _ => ?_
  refine (expect_alike (by decide)).bind fun name => (expect_alike (by decide)).bind fun _ => ?_
  exact (typeExpression_alike h.next.next).bind fun type => .pure _

theorem externalDecl_alike (attrs : List Attribute) :
    Alike ts us m 1 (externalDecl fuel attrs) (externalDecl fuel' attrs) := by
  unfold externalDecl
  cases Attribute.take attrs "set" with | mk setAttr attrs
  refine (AlikeWhere.lift (Attribute.optionalArg_ne _)).bind fun set => ?_
  refine (AlikeWhere.lift (Attribute.rejectAll_ne _ _)).bind fun _ => ?_
  refine advance_alike.bind fun start => (expect_alike (by decide)).bind fun _ => ?_
  refine (h.behind .externalVars).bind fun vars => ?_
  exact (expect_alike (by decide)).bind fun _ => .pure _

theorem letStmt_alike : Alike ts us m 1 (letStmt fuel) (letStmt fuel') := by
  unfold letStmt
  refine advance_alike.bind fun start => (expect_alike (by decide)).bind fun name => ?_
  refine (accept_alike _).bind fun typed => ?_
  refine .ite_bind ((typeExpression_alike h.next).weaken (by decide)) (.pure _) fun type => ?_
  refine (accept_alike _).bind fun given => ?_
  refine .ite_bind ((expression_alike h.next).weaken (by decide)) (.pure _) fun init => ?_
  refine .ite (peek_bind fun _ => .throw_bind nofun) ?_
  exact (expect_alike (by decide)).bind fun _ => .pure _

theorem returnStmt_alike : Alike ts us m 1 (returnStmt fuel) (returnStmt fuel') := by
  unfold returnStmt
  refine advance_alike.bind fun start => (check_alike _).bind fun bare => ?_
  refine .ite_bind (.pure _) ((expression_alike h).weaken (by decide)) fun e => ?_
  exact (expect_alike (by decide)).bind fun _ => .pure _

theorem expressionStmt_alike : Alike ts us m 1 (expressionStmt fuel) (expressionStmt fuel') := by
  unfold expressionStmt
  refine peek_bind fun start => .narrow ((expression_alike h).bind fun lhs => peekKind_bind fun kind => .narrow ?_)
  cases assignOp? kind with
  | some op =>
    refine advance_alike.bind fun _ => (expression_alike h.next).bind fun rhs => (AlikeWhere.pure _).bind fun e => ?_
    exact (expect_alike (by decide)).bind fun _ => .pure _
  | none => exact (AlikeWhere.pure _).bind fun e => (expect_alike (by decide)).bind fun _ => .pure _

theorem statementAttributes_alike : Alike ts us m 0 (statementAttributes fuel) (statementAttributes fuel') := by
  unfold statementAttributes
  refine (attributes_alike h).bind fun attrs => ?_
  cases Attribute.take attrs "unroll" with | mk unrollAttr attrs
  cases unrollAttr with
  | none =>
    exact (AlikeWhere.pure _).bind fun unroll => (AlikeWhere.lift (Attribute.rejectAll_ne _ _)).bind fun _ => .pure _
  | some a =>
    refine .ite ?_ ((AlikeWhere.lift a.exprArg_ne).bind fun e => ?_)
    all_goals
      refine (AlikeWhere.pure _).bind fun u => (check_alike _).bind fun _ => (check_alike _).bind fun _ => ?_
      refine .ite (peekKind_bind fun _ => .throw_bind nofun) ((AlikeWhere.pure _).bind fun unroll => ?_)
      exact (AlikeWhere.lift (Attribute.rejectAll_ne _ _)).bind fun _ => .pure _

theorem functionDecl_alike (attrs : List Attribute) :
    Alike ts us m 1 (functionDecl fuel attrs) (functionDecl fuel' attrs) := by
  unfold functionDecl
  cases Attribute.take attrs "entry" with | mk entryAttr attrs
  refine (AlikeWhere.lift (Attribute.optionalArg_ne _)).bind fun stage => ?_
  cases Attribute.take attrs "early_fragment_tests" with | mk earlyAttr attrs
  refine (AlikeWhere.lift (Attribute.flag_ne _)).bind fun earlyTests => ?_
  cases Attribute.take attrs "depth_write" with | mk depthAttr attrs
  refine (AlikeWhere.lift (Attribute.optionalArg_ne _)).bind fun depthWrite => ?_
  cases Attribute.take attrs "workgroup" with | mk groupAttr attrs
  cases groupAttr
  case' none => refine (AlikeWhere.pure _).bind fun workgroup => ?_
  case' some a => refine (AlikeWhere.lift (workgroupExpr_ne a)).bind fun workgroup => ?_
  all_goals
    cases Attribute.take attrs "export" with | mk exportAttr attrs
    refine (AlikeWhere.lift (Attribute.flag_ne _)).bind fun exported => ?_
    refine (AlikeWhere.lift (Attribute.rejectAll_ne _ _)).bind fun _ => ?_
    refine advance_alike.bind fun start => (expect_alike (by decide)).bind fun name => ?_
    refine (expect_alike (by decide)).bind fun _ => (h.next.behind .parameters).bind fun params => ?_
    refine (expect_alike (by decide)).bind fun _ => (accept_alike _).bind fun returns => ?_
    refine .ite_bind ((typeExpression_alike h.next.next.next).weaken (by decide)) (.pure _) fun result => ?_
    exact (h.next.next.behind .block).bind fun body => .pure _

theorem declaration_alike : Alike ts us m 1 (declaration fuel) (declaration fuel') := by
  unfold declaration
  refine (attributes_alike h).bind fun attrs => ?_
  cases Attribute.take attrs "cond" with | mk condAttr attrs
  refine (AlikeWhere.lift (Attribute.optionalArg_ne _)).bind fun cond => peek_bind fun tok => .narrow ?_
  dsimp only
  split
  · exact (importDecl_alike h attrs).bind fun s => .pure _
  · exact (optionDecl_alike h attrs).bind fun s => .pure _
  · exact (constDecl_alike h attrs).bind fun s => .pure _
  · exact (aliasDecl_alike h attrs).bind fun s => .pure _
  · exact (structDecl_alike h attrs).bind fun s => .pure _
  · exact (externalDecl_alike h attrs).bind fun s => .pure _
  · exact (functionDecl_alike h attrs).bind fun s => .pure _
  · exact .throw_bind nofun

end

section

variable {call call' : ∀ ⦃α : Type⦄, Rule α → Parser α}

theorem primary_alike (c : Calls ts us m 1 call call') :
    Alike ts us m 1 (Rule.body fuel call .primary) (Rule.body fuel' call' .primary) := by
  refine peek_bind fun tok => ?_
  split
  next hkind =>
    rw [hkind]
    refine (advance_where (by decide)).bind fun _ => ?_
    cases Literal.int tok.lexeme with
    | ok v => exact .pure _
    | error e => exact .throw nofun
  next hkind =>
    rw [hkind]
    refine (advance_where (by decide)).bind fun _ => ?_
    cases Literal.float? tok.lexeme with
    | some v => exact .pure _
    | none => exact .throw nofun
  next hkind =>
    rw [hkind]
    exact (advance_where (by decide)).bind fun _ => .pure _
  next hkind =>
    rw [hkind]
    exact (advance_where (by decide)).bind fun _ => .pure _
  next hkind =>
    rw [hkind]
    refine (advance_where (by decide)).bind fun _ => (check_alike _).bind fun generic => .ite ?_ (.pure _)
    refine advance_alike.bind fun _ => (c.behind .postfixed).bind fun arg => ?_
    exact (expect_alike (by decide)).bind fun _ => .pure _
  next hkind =>
    rw [hkind]
    refine (advance_where (by decide)).bind fun _ => (c.behind .expression).bind fun e => ?_
    exact (expect_alike (by decide)).bind fun _ => .pure _
  next => exact .throw nofun

theorem postfixes_alike (c : Calls ts us m 2 call call') (e : Expr) :
    Alike ts us m 0 (Rule.body fuel call (.postfixes e)) (Rule.body fuel' call' (.postfixes e)) := by
  have harguments : Alike ts us m 1 (call .arguments) (call' .arguments) := c.lower .arguments (by decide)
  have hindices : Alike ts us (m + 1) 1 (call .indexList) (call' .indexList) := c.behind .indexList
  have hself (e : Expr) : Alike ts us (m + 1) 0 (call (.postfixes e)) (call' (.postfixes e)) := c.behind (.postfixes e)
  refine (check_alike _).bind fun called => .ite ?_ (accept_ite (by decide) ?_ ?_)
  · exact harguments.bind fun args => hself _
  · refine hindices.bind fun indices => (expect_alike (by decide)).bind fun _ => ?_
    exact (hself _).later (by omega)
  · refine (accept_alike _).bind fun dot => .ite ?_ (.pure _)
    refine (expect_alike (by decide)).bind fun name => (check_alike _).bind fun called => .ite ?_ (hself _)
    exact (harguments.later (by omega)).bind fun args => (hself _).later (by omega)

theorem unary_alike (c : Calls ts us m 3 call call') :
    Alike ts us m 1 (Rule.body fuel call .unary) (Rule.body fuel' call' .unary) := by
  refine peekKind_bind fun kind => ?_
  cases hop : unaryOp? kind with
  | none => exact .narrow (c.lower .postfixed (by decide))
  | some op =>
    have hkind : kind ≠ .endOfFile := by
      rintro rfl
      cases hop
    exact (advance_where hkind).bind fun tok => (c.behind .unary).bind fun operand => .pure _

theorem operators_alike (c : Calls ts us m 1 call call') (bound : Nat) (lhs : Expr) :
    Alike ts us m 0 (Rule.body fuel call (.operators bound lhs)) (Rule.body fuel' call' (.operators bound lhs)) := by
  have hunary : Alike ts us (m + 1) 1 (call .unary) (call' .unary) := c.behind .unary
  have hself (b : Nat) (e : Expr) : Alike ts us (m + 1 + 1) 0 (call (.operators b e)) (call' (.operators b e)) :=
    (c.behind (.operators b e)).later (Nat.le_succ _)
  refine peekKind_bind fun kind => ?_
  cases hop : binaryOp? kind with
  | none => exact .pure _
  | some x =>
    obtain ⟨level, op⟩ := x
    have hkind : kind ≠ .endOfFile := by
      rintro rfl
      cases hop
    refine .ite (.pure _) ((advance_where hkind).bind fun _ => hunary.bind fun operand => ?_)
    refine peekKind_bind fun next => .narrow ?_
    split
    · exact .ite_bind (hself _ operand) (.pure _) fun rhs => hself _ _
    · exact (AlikeWhere.pure _).bind fun rhs => hself _ _

theorem expression_body (c : Calls ts us m 4 call call') :
    Alike ts us m 1 (Rule.body fuel call .expression) (Rule.body fuel' call' .expression) := by
  refine (c.lower .unary (by decide)).bind fun lhs => (c.behind (.operators 0 lhs)).bind fun cond => ?_
  refine (check_alike _).bind fun choice => .ite (.pure _) (advance_alike.bind fun _ => ?_)
  refine (c.behind .expression).bind fun yes => (expect_alike (by decide)).bind fun _ => ?_
  exact ((c.behind .expression).later (by omega)).bind fun no => .pure _

/-- Expressions with commas between them, after the first of which all is as it is with the other rules. -/
theorem expressions_alike (c : Calls ts us m 5 call call') (r : Rule (List Expr)) :
    Alike ts us m 1 (do
      let e ← call .expression
      if ← accept .comma then
        let es ← call r
        return e :: es
      return [e]) (do
      let e ← call' .expression
      if ← accept .comma then
        let es ← call' r
        return e :: es
      return [e]) := by
  have hexpression : Alike ts us m 1 (call .expression) (call' .expression) := c.lower .expression (by decide)
  have hself : Alike ts us (m + 1) 0 (call r) (call' r) := (c.behind r).weaken (Nat.zero_le _)
  exact hexpression.bind fun e => (accept_alike _).bind fun more => .ite (hself.bind fun es => .pure _) (.pure _)

theorem dottedRest_alike (c : Calls ts us m 1 call call') (name : Text) :
    Alike ts us m 0 (Rule.body fuel call (.dottedRest name)) (Rule.body fuel' call' (.dottedRest name)) := by
  have hself (name : Text) : Alike ts us (m + 1) 0 (call (.dottedRest name)) (call' (.dottedRest name)) :=
    c.behind (.dottedRest name)
  refine check_peekSecond_bind (by decide) (fun next => .ite ?_ (.pure _)) fun _ _ => .pure _
  exact (advance_where (by decide)).bind fun _ => advance_alike.bind fun part => hself _

theorem importItems_alike (c : Calls ts us m 1 call call') (item : ImportItem) :
    Alike ts us m 0 (Rule.body fuel call (.importItems item)) (Rule.body fuel' call' (.importItems item)) := by
  have hself (item : ImportItem) : Alike ts us (m + 1) 0 (call (.importItems item)) (call' (.importItems item)) :=
    c.behind (.importItems item)
  refine (accept_alike _).bind fun renamed => .ite ?_ ?_
  · refine (expect_alike (by decide)).bind fun tok => (AlikeWhere.pure _).bind fun named => ?_
    refine (accept_alike _).bind fun more => .ite ?_ (.pure _)
    exact (expect_alike (by decide)).bind fun tok => ((hself _).later (by omega)).bind fun items => .pure _
  · refine (AlikeWhere.pure _).bind fun named => (accept_alike _).bind fun more => .ite ?_ (.pure _)
    exact (expect_alike (by decide)).bind fun tok => (hself _).bind fun items => .pure _

section

variable (h : Calls ts us m 1 (Rule.runs fuel) (Rule.runs fuel')) (c : Calls ts us m 1 call call')
include h c

theorem attributeGroup_alike (seen : List Attribute) :
    Alike ts us m 1 (Rule.body fuel call (.attributeGroup seen)) (Rule.body fuel' call' (.attributeGroup seen)) := by
  have hself (seen : List Attribute) :
      Alike ts us (m + 1) 1 (call (.attributeGroup seen)) (call' (.attributeGroup seen)) := c.behind (.attributeGroup seen)
  refine (expect_alike (by decide)).bind fun name => .ite (.throw_bind nofun) (.ite (.throw_bind nofun) ?_)
  refine (attributeArguments_alike h.next _).bind fun a => (accept_alike _).bind fun more => .ite ?_ ?_
  · exact (hself _).weaken (by decide)
  · exact (expect_alike (by decide)).bind fun _ => .pure _

theorem parameters_alike : Alike ts us m 0 (Rule.body fuel call .parameters) (Rule.body fuel' call' .parameters) := by
  have hself : Alike ts us (m + 1) 0 (call .parameters) (call' .parameters) := c.behind .parameters
  refine (check_alike _).bind fun closed => (check_alike _).bind fun ended => .ite (.pure _) ?_
  refine (expect_alike (by decide)).bind fun name => (expect_alike (by decide)).bind fun _ => ?_
  refine (typeExpression_alike h.next.next).bind fun type => (accept_alike _).bind fun more => .ite ?_ (.pure _)
  exact (hself.later (by omega)).bind fun ps => .pure _

theorem branches_alike (isConst : Bool) (start : Span) (arms : List (Expr × Stmt)) :
    Alike ts us m 1 (Rule.body fuel call (.branches isConst start arms))
      (Rule.body fuel' call' (.branches isConst start arms)) := by
  have hstatement : Alike ts us (m + 1) 1 (call .statement) (call' .statement) := c.behind .statement
  have hself (arms : List (Expr × Stmt)) : Alike ts us (m + 1) 1 (call (.branches isConst start arms))
      (call' (.branches isConst start arms)) := c.behind (.branches isConst start arms)
  refine (expect_alike (by decide)).bind fun _ => (parenExpression_alike h.next).bind fun cond => ?_
  refine (hstatement.later (by omega)).bind fun stmt => (accept_alike _).bind fun more => .ite (.pure _) ?_
  refine (check_alike _).bind fun chained => .ite (((hself _).later (by omega)).weaken (by decide)) ?_
  exact (hstatement.later (by omega)).bind fun other => .pure _

end

theorem forStmt_alike (c : Calls ts us m 1 call call') (unroll : Attr Unroll) :
    Alike ts us m 1 (Rule.body fuel call (.forStmt unroll)) (Rule.body fuel' call' (.forStmt unroll)) := by
  have hstatement : Alike ts us (m + 1) 1 (call .statement) (call' .statement) := c.behind .statement
  have hexpression : Alike ts us (m + 1) 1 (call .expression) (call' .expression) := c.behind .expression
  refine advance_alike.bind fun start => (expect_alike (by decide)).bind fun name => ?_
  refine (expect_alike (by decide)).bind fun _ => (hexpression.later (by omega)).bind fun e => ?_
  refine (accept_alike _).bind fun range => .ite ((hstatement.later (by omega)).bind fun stmt => .pure _) ?_
  refine (hexpression.later (by omega)).bind fun stop => (accept_alike _).bind fun stepped => ?_
  refine .ite_bind ((hexpression.later (by omega)).weaken (by decide)) (.pure _) fun step => ?_
  exact (hstatement.later (by omega)).bind fun stmt => .pure _

section

variable (h : Calls ts us m 5 (Rule.runs fuel) (Rule.runs fuel')) (c : Calls ts us m 5 call call')
include h c

theorem structMembers_alike :
    Alike ts us m 0 (Rule.body fuel call .structMembers) (Rule.body fuel' call' .structMembers) := by
  have hself : Alike ts us (m + 1) 0 (call .structMembers) (call' .structMembers) := c.behind .structMembers
  refine (check_alike _).bind fun closed => (check_alike _).bind fun ended => .ite (.pure _) ?_
  refine (structMember_alike h).bind fun member => (accept_alike _).bind fun more => .ite ?_ (.pure _)
  exact hself.bind fun ms => .pure _

theorem externalVars_alike :
    Alike ts us m 0 (Rule.body fuel call .externalVars) (Rule.body fuel' call' .externalVars) := by
  have hself : Alike ts us (m + 1) 0 (call .externalVars) (call' .externalVars) := c.behind .externalVars
  refine (check_alike _).bind fun closed => (check_alike _).bind fun ended => .ite (.pure _) ?_
  refine (externalVar_alike h).bind fun v => (accept_alike _).bind fun more => .ite ?_ (.pure _)
  exact hself.bind fun vs => .pure _

theorem statement_alike : Alike ts us m 1 (Rule.body fuel call .statement) (Rule.body fuel' call' .statement) := by
  have hself : Alike ts us (m + 1) 1 (call .statement) (call' .statement) := c.behind .statement
  have hblock : Alike ts us m 1 (call .block) (call' .block) := c.lower .block (by decide)
  have hbranches (isConst : Bool) (start : Span) : Alike ts us m 1 (call (.branches isConst start []))
      (call' (.branches isConst start [])) := c.lower (.branches isConst start []) (by simp [Rule.rank])
  refine (statementAttributes_alike h).bind fun unroll => peek_bind fun tok => ?_
  split
  · exact .narrow (hblock.bind fun stmts => .pure _)
  · exact .narrow (letStmt_alike h)
  next hkind =>
    rw [hkind]
    refine (peekSecond_alike (by decide)).bind fun next => .ite ?_ (constDecl_alike h [])
    exact advance_alike.bind fun _ => hbranches _ _
  · exact .narrow (hbranches _ _)
  · refine advance_alike.bind fun start => (parenExpression_alike h).bind fun cond => ?_
    exact hself.bind fun stmt => .pure _
  · exact .narrow (c.lower (.forStmt unroll) (by simp [Rule.rank]))
  · exact .narrow (returnStmt_alike h)
  · exact advance_alike.bind fun _ => (expect_alike (by decide)).bind fun _ => .pure _
  · exact advance_alike.bind fun _ => (expect_alike (by decide)).bind fun _ => .pure _
  · exact advance_alike.bind fun _ => (expect_alike (by decide)).bind fun _ => .pure _
  next hkind =>
    rw [hkind]
    exact (advance_where (by decide)).bind fun _ => .pure _
  · exact .narrow (expressionStmt_alike h)

theorem declarations_alike :
    Alike ts us m 0 (Rule.body fuel call .declarations) (Rule.body fuel' call' .declarations) := by
  have hself : Alike ts us (m + 1) 0 (call .declarations) (call' .declarations) := c.behind .declarations
  refine (check_alike _).bind fun ended => .ite (.pure _) ?_
  exact (declaration_alike h).bind fun d => hself.bind fun ds => .pure _

end

/-- The bodies of a rule are alike if the rules are that they take, where they take them. -/
theorem body_alike (r : Rule α) (h : Calls ts us m r.rank (Rule.runs fuel) (Rule.runs fuel'))
    (c : Calls ts us m r.rank call call') : Alike ts us m r.least (Rule.body fuel call r) (Rule.body fuel' call' r) := by
  cases r with
  | primary => exact primary_alike c
  | postfixed => exact (c.lower .primary (by decide)).bind fun e => c.behind (.postfixes e)
  | postfixes e => exact postfixes_alike c e
  | unary => exact unary_alike c
  | operators bound lhs => exact operators_alike c bound lhs
  | expression => exact expression_body c
  | indexList => exact expressions_alike c .indexList
  | arguments =>
    refine (expect_alike (by decide)).bind fun _ => (c.behind .argumentList).bind fun args => ?_
    exact (expect_alike (by decide)).bind fun _ => .pure _
  | argumentList =>
    refine (check_alike _).bind fun closed => (check_alike _).bind fun ended => .ite (.pure _) ?_
    exact (expressions_alike c .argumentList).weaken (by decide)
  | dottedRest name => exact dottedRest_alike c name
  | attributeGroup seen => exact attributeGroup_alike h c seen
  | attributeGroups seen =>
    refine (accept_alike _).bind fun more => .ite ?_ (.pure _)
    exact (c.lower (.attributeGroup seen) (by simp [Rule.rank])).bind fun all => c.behind (.attributeGroups all)
  | importItems item => exact importItems_alike c item
  | structMembers => exact structMembers_alike h c
  | externalVars => exact externalVars_alike h c
  | parameters => exact parameters_alike h c
  | block =>
    refine (expect_alike (by decide)).bind fun _ => (c.behind .statements).bind fun stmts => ?_
    exact (expect_alike (by decide)).bind fun _ => .pure _
  | statements =>
    refine (check_alike _).bind fun closed => (check_alike _).bind fun ended => .ite (.pure _) ?_
    exact (c.lower .statement (by decide)).bind fun s => (c.behind .statements).bind fun ss => .pure _
  | statement => exact statement_alike h c
  | branches isConst start arms => exact branches_alike h c isConst start arms
  | forStmt unroll => exact forStmt_alike c unroll
  | declarations => exact declarations_alike h c

end

namespace Rule

theorem rank_pos (r : Rule α) : 0 < r.rank := by cases r <;> simp [rank]

theorem rank_le (r : Rule α) : r.rank ≤ 6 := by cases r <;> simp [rank]

/-- With a bound that is large enough for the tokens that are left, a rule reads as with every greater bound. -/
theorem alike (r : Rule α) (hle : fuel ≤ fuel') (hroom : 8 * left ts + r.rank ≤ fuel + 8 * m) :
    Alike ts us m r.least (runs fuel r) (runs fuel' r) := by
  induction fuel generalizing α fuel' m with
  | zero =>
    have hpos := r.rank_pos
    exact .behind (by omega)
  | succ fuel ih =>
    obtain ⟨fuel', rfl⟩ : ∃ n, fuel' = n + 1 := ⟨fuel' - 1, by omega⟩
    have hpos := r.rank_pos
    have hcalls : Calls ts us m r.rank (runs fuel) (runs fuel') := by
      constructor
      · intro β s
        have hle := s.rank_le
        exact ih s (by omega) (by omega)
      · exact fun s hs => ih s (by omega) (by omega)
    rw [runs_succ, runs_succ]
    exact body_alike r hcalls hcalls

end Rule

theorem Agree.eq {l : Nat} {x y : Except ParseError (α × List Token)} (h : Agree ts ts l x y) : x = y := by
  cases h <;> rfl

theorem Agree.map_fst {l : Nat} {x y : Except ParseError (α × List Token)} (h : Agree ts us l x y) :
    x.map Prod.fst = y.map Prod.fst := by
  cases h <;> rfl

theorem Agree.ne_exhausted {l : Nat} {x y : Except ParseError (α × List Token)} (h : Agree ts us l x y) :
    x ≠ .error .exhausted := by
  cases h with
  | fail hne => exact fun he => hne (Except.error.inj he)
  | read => nofun

theorem Agree.exists_drop {l : Nat} {x y : Except ParseError (α × List Token)} (h : Agree ts us l x y) {a : α}
    {rest : List Token} (hx : x = .ok (a, rest)) : ∃ j, l ≤ j ∧ j ≤ left ts ∧ rest = ts.drop j := by
  cases h with
  | fail => cases hx
  | read hleast hleft =>
    cases hx
    exact ⟨_, hleast, hleft, rfl⟩

/-- A rule in front of some tokens. -/
structure Rule.Progresses (r : Rule α) (ts : List Token) : Prop where
  /-- A bound that is large enough for the tokens is not met, and nothing depends on it. -/
  ends : ∀ fuel, 8 * left ts + r.rank ≤ fuel → runs fuel r ts ≠ .error .exhausted ∧
    ∀ fuel', fuel ≤ fuel' → runs fuel' r ts = runs fuel r ts
  /-- What is read is in front of the first end of the file, and where something has to be read, a token is passed. -/
  passes : ∀ fuel, 8 * left ts + r.rank ≤ fuel → ∀ a rest, runs fuel r ts = .ok (a, rest) →
    ∃ j, r.least ≤ j ∧ j ≤ left ts ∧ rest = ts.drop j
  /-- What it takes of itself and of others it takes behind a token, save those of a lower rank. -/
  calls : ∀ fuel, 8 * left ts + r.rank ≤ fuel + 1 → ∀ call : ∀ ⦃β : Type⦄, Rule β → Parser β,
    (∀ ⦃β : Type⦄ (s : Rule β) (j : Nat), j ≤ left ts → 0 < j ∨ s.rank < r.rank →
      call s (ts.drop j) = runs fuel s (ts.drop j)) → body fuel call r ts = runs (fuel + 1) r ts

theorem Rule.body_eq (r : Rule α) (hfuel : 8 * left ts + r.rank ≤ fuel + 1) {call : ∀ ⦃β : Type⦄, Rule β → Parser β}
    (hcall : ∀ ⦃β : Type⦄ (s : Rule β) (j : Nat), j ≤ left ts → 0 < j ∨ s.rank < r.rank →
      call s (ts.drop j) = runs fuel s (ts.drop j)) :
    body fuel call r ts = runs (fuel + 1) r ts := by
  have hpos := r.rank_pos
  have halike {β : Type} (s : Rule β) {m : Nat} (hm : 0 < m ∨ s.rank < r.rank) :
      Alike ts ts m s.least (runs fuel s) (runs fuel s) := by
    have hle := s.rank_le
    exact s.alike (Nat.le_refl _) (by omega)
  have hcalls : Calls ts ts 0 r.rank (runs fuel) (runs fuel) :=
    ⟨fun s => halike s (.inl Nat.one_pos), fun s hs => halike s (.inr hs)⟩
  have hgiven : Calls ts ts 0 r.rank (runs fuel) call := by
    constructor
    · intro β s
      refine ⟨fun {i} hcut hm hi hhere => ?_⟩
      rw [hcall s i hi (.inl hm)]
      exact (hcalls.behind s).run hcut hm hi hhere
    · intro β s hs
      refine ⟨fun {i} hcut hm hi hhere => ?_⟩
      rw [hcall s i hi (.inr hs)]
      exact (hcalls.lower s hs).run hcut hm hi hhere
  rw [runs_succ]
  exact ((body_alike r hcalls hgiven).run rfl (Nat.le_refl 0) (Nat.zero_le _) trivial).eq.symm

theorem Rule.progresses (r : Rule α) (ts : List Token) : r.Progresses ts := by
  have hagree {fuel fuel' : Nat} (hfuel : 8 * left ts + r.rank ≤ fuel) (hle : fuel ≤ fuel') :
      Agree ts ts (0 + r.least) (runs fuel r ts) (runs fuel' r ts) :=
    (r.alike (m := 0) hle hfuel).run rfl (Nat.le_refl 0) (Nat.zero_le _) trivial
  constructor
  · exact fun fuel hfuel => ⟨(hagree hfuel (Nat.le_refl _)).ne_exhausted, fun fuel' hle => (hagree hfuel hle).eq.symm⟩
  · intro fuel hfuel a rest hrun
    obtain ⟨j, hleast, hleft, hrest⟩ := (hagree hfuel (Nat.le_refl _)).exists_drop hrun
    exact ⟨j, by omega, hleft, hrest⟩
  · exact fun fuel hfuel call hcall => r.body_eq hfuel hcall

theorem moduleOf_alike (hle : fuel ≤ fuel') (hroom : 8 * left ts + 4 ≤ fuel) :
    Alike ts us 0 1 (moduleOf fuel) (moduleOf fuel') := by
  have h : Calls ts us 0 5 (Rule.runs fuel) (Rule.runs fuel') := by
    constructor
    · intro β r
      have hrank := r.rank_le
      exact r.alike hle (by omega)
    · exact fun r hr => r.alike hle (by omega)
  have hhead : Alike ts us 0 1 (moduleHead fuel) (moduleHead fuel') := by
    unfold moduleHead
    refine (attributes_alike h).bind fun attrs => (expect_alike (by decide)).bind fun _ => ?_
    refine (check_alike _).bind fun named => ?_
    refine .ite_bind ((dottedName_alike h.next).weaken (by decide)) (.pure _) fun name => ?_
    exact (expect_alike (by decide)).bind fun _ => .lift (foldlM_headAttribute_ne _ _)
  refine hhead.bind fun metadata => peek_bind fun place => .narrow ?_
  exact (h.behind .declarations).bind fun body => .pure _

/-- Declarations are read up to an end of the file. -/
theorem headKind_of_declarations {ds : List Stmt} {rest : List Token} (h : declarations fuel ts = .ok (ds, rest)) :
    headKind rest = .endOfFile := by
  induction fuel generalizing ts ds with
  | zero => cases h
  | succ fuel ih =>
    unfold declarations at h
    rw [bind_of_ok (check_run _ _)] at h
    by_cases hend : headKind ts = .endOfFile
    · rw [hend, beq_self_eq_true, if_pos rfl] at h
      obtain ⟨-, rfl⟩ := pure_ok h
      exact hend
    · rw [beq_eq_false_iff_ne.mpr hend, if_neg Bool.false_ne_true] at h
      obtain ⟨d, vs, -, h⟩ := bind_ok h
      obtain ⟨es, ws, hes, h⟩ := bind_ok h
      obtain ⟨-, rfl⟩ := pure_ok h
      exact ih hes

theorem headKind_of_moduleOf {m : Module} {rest : List Token} (h : moduleOf fuel ts = .ok (m, rest)) :
    headKind rest = .endOfFile := by
  obtain ⟨metadata, vs, -, h⟩ := bind_ok h
  obtain ⟨place, ws, -, h⟩ := bind_ok h
  obtain ⟨body, xs, hbody, h⟩ := bind_ok h
  obtain ⟨-, rfl⟩ := pure_ok h
  exact headKind_of_declarations hbody

theorem agree_moduleOf (hle : fuel ≤ fuel') (hroom : 8 * left ts + 4 ≤ fuel) (h : upToEnd ts = upToEnd us) :
    Agree ts us 1 (moduleOf fuel ts) (moduleOf fuel' us) :=
  (moduleOf_alike hle hroom).run h (Nat.le_refl 0) (Nat.zero_le _) trivial

/-- A module is read up to the first end of the file. -/
theorem rest_of_moduleOf (hroom : 8 * left ts + 4 ≤ fuel) {m : Module} {rest : List Token}
    (h : moduleOf fuel ts = .ok (m, rest)) : rest = ts.drop (left ts) := by
  obtain ⟨j, -, hleft, rfl⟩ := (agree_moduleOf (Nat.le_refl _) hroom rfl).exists_drop h
  rcases Nat.lt_or_eq_of_le hleft with hlt | rfl
  · obtain ⟨t, ht, hne⟩ := drop_of_lt hlt
    have hend := headKind_of_moduleOf h
    rw [ht] at hend
    exact absurd hend hne
  · rfl

theorem room_fuelFor (ts : List Token) : 8 * left ts + 4 ≤ fuelFor ts := by
  have hlength := left_le_length ts
  unfold fuelFor
  omega

/-- The bounds that two lists get differ, if tokens behind the first end of the file do. -/
theorem ofTokens_congr (h : upToEnd us = upToEnd ts) : Module.ofTokens us = Module.ofTokens ts := by
  have hts := (agree_moduleOf (Nat.le_add_right _ (fuelFor us)) (room_fuelFor ts) rfl).eq
  have hus := (agree_moduleOf (Nat.le_add_left _ (fuelFor ts)) (room_fuelFor us) rfl).eq
  have hroom := Nat.le_trans (room_fuelFor us) (Nat.le_add_left _ (fuelFor ts))
  have hrun : (moduleOf (fuelFor us)).run' us = (moduleOf (fuelFor ts)).run' ts := by
    change Except.map Prod.fst (moduleOf (fuelFor us) us) = Except.map Prod.fst (moduleOf (fuelFor ts) ts)
    rw [hts, hus]
    exact (agree_moduleOf (Nat.le_refl _) hroom h).map_fst
  rw [Module.ofTokens, Module.ofTokens, hrun]

/-- For every list of tokens, a module is read or refused with a bound of the recursion that is never met. No token
behind the first end of the file plays a part, and a module that is read ends there. Each loop and each function that
comes back to itself has passed a token before it does so: what it takes of rules that are not of a lower rank, it takes
behind a token. -/
theorem moduleOf_progresses (ts : List Token) :
    (∀ {α : Type} (r : Rule α) (i : Nat), r.Progresses (ts.drop i)) ∧
    moduleOf (fuelFor ts) ts ≠ .error .exhausted ∧
    (∀ fuel, fuelFor ts ≤ fuel → moduleOf fuel ts = moduleOf (fuelFor ts) ts) ∧
    (∀ us, upToEnd us = upToEnd ts → Module.ofTokens us = Module.ofTokens ts) ∧
    ∀ m rest, moduleOf (fuelFor ts) ts = .ok (m, rest) → rest = ts.drop (left ts) := by
  have hroom := room_fuelFor ts
  refine ⟨fun r i => r.progresses _, (agree_moduleOf (Nat.le_refl _) hroom rfl).ne_exhausted, fun fuel hle => ?_,
    fun us hus => ofTokens_congr hus, fun m rest hrun => rest_of_moduleOf hroom hrun⟩
  exact (agree_moduleOf hle hroom rfl).eq.symm

/-- A list with tokens behind an end of the file, of which nothing is read. -/
theorem moduleOf_progresses_middle :
    let ts : List Token := [{ kind := .kwModule }, { kind := .semicolon }, {}, { kind := .star }]
    (∃ m, moduleOf (fuelFor ts) ts = .ok (m, ts.drop 2)) ∧ moduleOf 100 ts = moduleOf (fuelFor ts) ts ∧
      Module.ofTokens (ts.take 2) = Module.ofTokens ts := by
  intro ts
  obtain ⟨-, -, hfuel, hcut, hend⟩ := moduleOf_progresses ts
  obtain ⟨m, rest, hrun⟩ : ∃ m rest, moduleOf (fuelFor ts) ts = .ok (m, rest) := ⟨_, _, rfl⟩
  have hrest : rest = ts.drop 2 := hend m rest hrun
  exact ⟨⟨m, hrest ▸ hrun⟩, hfuel 100 (by decide), hcut _ rfl⟩

end Shading.Parser
