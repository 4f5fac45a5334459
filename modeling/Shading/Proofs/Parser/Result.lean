import Shading.Parser
import Shading.Proofs.Decimal.Reading
import Shading.Proofs.Module.Parts
import Shading.Proofs.Parser.Stream
import Shading.Proofs.Token.Partition

/-! What the parser makes of tokens whose identifiers are names: statements of the forms that can be written, with
parts that have a text. -/
namespace Shading

namespace Expr

section

variable {s : Span} {e l r : Expr} {es : List Expr}

theorem sourced_name {n : Text} (hn : Lexer.isName n) : (Expr.name (Parser.untyped s) n).Sourced := by
  simp only [Sourced, methods, isSource, hn]
  rfl

theorem sourced_literal {v : Value} (hv : v.isLiteral) : (Expr.literal (Parser.untyped s) v).Sourced := by
  simp only [Sourced, methods, isSource, hv]
  rfl

theorem sourced_binary {op : BinaryOp} (hop : (Canonical.level? op).isSome) (hl : l.Sourced) (hr : r.Sourced) :
    (Expr.binary (Parser.untyped s) op l r).Sourced := by
  unfold Sourced at *
  simp only [methods, isSource, hop, hl, hr]
  rfl

theorem sourced_unary {op : UnaryOp} (hop : UnaryOp.named.elem op) (he : e.Sourced) :
    (Expr.unary (Parser.untyped s) op e).Sourced := by
  unfold Sourced at *
  simp only [methods, isSource, hop, he]
  rfl

theorem sourced_ternary (hc : e.Sourced) (ht : l.Sourced) (hf : r.Sourced) :
    (Expr.ternary (Parser.untyped s) e l r).Sourced := by
  unfold Sourced at *
  simp only [methods, isSource, hc, ht, hf]
  rfl

theorem sourced_call (he : e.Sourced) (hes : AllSourced es) : (Expr.call (Parser.untyped s) e es).Sourced := by
  rw [Sourced, methods]
  exact isSource_called rfl he ((areSource_iff es).mpr hes)

theorem sourced_method {n : Text} (hn : Lexer.isName n) (he : e.Sourced) (hes : AllSourced es) :
    (Expr.method (Parser.untyped s) e n es).Sourced := by
  have hargs := (areSource_iff es).mpr hes
  unfold Sourced at *
  simp only [methods, isSource, he, hn, hargs]
  rfl

/-- Indices are gathered in one node, where there are some. -/
theorem sourced_indexed (he : e.Sourced) (hne : es ≠ []) (hes : AllSourced es) : (Parser.indexed e es).Sourced := by
  have hempty : es.isEmpty = false := List.isEmpty_eq_false_iff.mpr hne
  unfold Parser.indexed
  split
  · rename_i i base is
    simp only [Sourced, methods, isSource, Bool.and_eq_true, areSource_iff] at he ⊢
    obtain ⟨⟨hbase, -⟩, his⟩ := he
    refine ⟨⟨hbase, ?_⟩, List.forall_mem_append.mpr ⟨his, hes⟩⟩
    simp [isEmpty_methodsList, hne]
  · rename_i hindex
    have hnot : e.isIndex = false := by
      cases e with
      | index i b is => exact absurd rfl (hindex i b is)
      | _ => rfl
    have hargs := (areSource_iff es).mpr hes
    unfold Sourced at *
    simp only [methods, isSource, he, isIndex_methods, hnot, isEmpty_methodsList, hempty, hargs]
    rfl

theorem sourced_selected {n : Name} (hn : Lexer.isName n.text) (he : e.Sourced) : (Parser.selected e n).Sourced := by
  unfold Parser.selected
  split
  · rename_i i base ns
    simp only [Sourced, methods, isSource, Bool.and_eq_true] at he ⊢
    obtain ⟨⟨hbase, -⟩, hns⟩ := he
    refine ⟨⟨hbase, by simp⟩, ?_⟩
    rw [List.all_append, hns, List.all_cons, hn]
    rfl
  · rename_i hmember
    have hnot : e.isMember = false := by
      cases e with
      | member i b ns => exact absurd rfl (hmember i b ns)
      | _ => rfl
    unfold Sourced at *
    simp only [methods, isSource, he, isMember_methods, hnot, List.all_cons, hn]
    rfl

end

end Expr

namespace Parser

variable {α β : Type}

/-- An identifier is a name. -/
def IsNamed (t : Token) : Prop := t.kind = .identifier → Lexer.isName t.lexeme

def Named (ts : List Token) : Prop := ∀ t ∈ ts, IsNamed t

/-- From tokens whose identifiers are names, a parser makes what has a property, and it leaves such tokens. -/
structure Gives (p : Parser α) (Q : α → Prop) : Prop where
  run : ∀ {ts us a}, Named ts → p ts = .ok (a, us) → Named us ∧ Q a

theorem Named.head {ts : List Token} (h : Named ts) : IsNamed (headToken ts) := by
  cases ts with
  | nil => nofun
  | cons t ts => exact h t List.mem_cons_self

theorem Named.tail {t : Token} {ts : List Token} (h : Named (t :: ts)) : Named ts := (List.forall_mem_cons.mp h).2

namespace Gives

variable {p : Parser α} {f : α → Parser β} {P : α → Prop} {Q : β → Prop}

theorem bind (hp : Gives p P) (hf : ∀ a, P a → Gives (f a) Q) : Gives (p >>= f) Q := by
  refine ⟨fun hts h => ?_⟩
  obtain ⟨a, vs, ha, hb⟩ := bind_ok h
  obtain ⟨hvs, hP⟩ := hp.run hts ha
  exact (hf a hP).run hvs hb

theorem pure {a : α} (h : P a) : Gives (Pure.pure a) P := by
  refine ⟨fun hts hrun => ?_⟩
  obtain ⟨rfl, rfl⟩ := pure_ok hrun
  exact ⟨hts, h⟩

theorem throw (e : ParseError) : Gives (throwThe ParseError e) P := ⟨fun _ h => by cases h⟩

theorem lift {x : Except ParseError α} (h : ∀ a, x = .ok a → P a) : Gives (liftM x) P := by
  refine ⟨fun hts hrun => ?_⟩
  obtain ⟨hx, rfl⟩ := lift_ok hrun
  exact ⟨hts, h _ hx⟩

theorem ite {c : Prop} [Decidable c] {q : Parser α} (hp : c → Gives p P) (hq : ¬ c → Gives q P) :
    Gives (if c then p else q) P := by
  by_cases h : c
  · rw [if_pos h]
    exact hp h
  · rw [if_neg h]
    exact hq h

theorem peek {f : Token → Parser β} (hf : ∀ t, IsNamed t → Gives (f t) Q) : Gives (Parser.peek >>= f) Q :=
  bind (P := IsNamed) ⟨fun hts h => by cases h; exact ⟨hts, hts.head⟩⟩ hf

theorem peekKind {f : TokenKind → Parser β} (hf : ∀ k, Gives (f k) Q) : Gives (Parser.peekKind >>= f) Q :=
  bind (P := fun _ => True) ⟨fun hts h => by cases h; exact ⟨hts, trivial⟩⟩ fun k _ => hf k

theorem peekSecond {f : TokenKind → Parser β} (hf : ∀ k, Gives (f k) Q) : Gives (Parser.peekSecond >>= f) Q :=
  bind (P := fun _ => True) ⟨fun hts h => by cases h; exact ⟨hts, trivial⟩⟩ fun k _ => hf k

theorem check {k : TokenKind} {f : Bool → Parser β} (hf : ∀ b, Gives (f b) Q) : Gives (Parser.check k >>= f) Q :=
  bind (P := fun _ => True) ⟨fun hts h => by cases h; exact ⟨hts, trivial⟩⟩ fun b _ => hf b

theorem advance {f : Token → Parser β} (hf : ∀ t, Gives (f t) Q) : Gives (Parser.advance >>= f) Q := by
  refine bind (P := fun _ => True) ⟨fun {ts us a} hts h => ?_⟩ fun t _ => hf t
  cases ts with
  | nil => cases h; exact ⟨hts, trivial⟩
  | cons t ts =>
    by_cases hend : t.kind = .endOfFile
    · simp only [Parser.advance, hend, if_true] at h
      cases h
      exact ⟨hts, trivial⟩
    · rw [advance_run hend] at h
      cases h
      exact ⟨hts.tail, trivial⟩

theorem accept {k : TokenKind} {f : Bool → Parser β} (hf : ∀ b, Gives (f b) Q) : Gives (Parser.accept k >>= f) Q := by
  have haccept : Gives (Parser.accept k) fun _ => True :=
    .check fun b => .ite (fun _ => .advance fun _ => .pure trivial) fun _ => .pure trivial
  exact haccept.bind fun b _ => hf b

theorem expect {k : TokenKind} {f : Token → Parser β} (hf : ∀ t, Gives (f t) Q) : Gives (Parser.expect k >>= f) Q := by
  have hexpect : Gives (Parser.expect k) fun _ => True := by
    refine .check fun b => .ite (fun _ => ?_) fun _ => .peek fun t _ => .throw _
    have hadvance := Gives.advance (f := Pure.pure) (Q := fun _ => True) fun t => .pure trivial
    rwa [bind_pure] at hadvance
  exact hexpect.bind fun t _ => hf t

/-- A token that is expected to be an identifier holds a name. -/
theorem name {f : Token → Parser β} (hf : ∀ t, Lexer.isName t.lexeme → Gives (f t) Q) :
    Gives (Parser.expect .identifier >>= f) Q := by
  refine ⟨fun hts h => ?_⟩
  obtain ⟨t, vs, rfl, hkind, hrest⟩ := expect_bind_ok (by decide) h
  exact (hf t (hts.head hkind)).run hts.tail hrest

end Gives

open Shading.Expr (Sourced MaybeSourced AllSourced)

theorem level_of_binaryOp {k : TokenKind} {own : Nat} {op : BinaryOp} (h : binaryOp? k = some (own, op)) :
    (Canonical.level? op).isSome := by
  cases k <;> first
    | (cases h; rfl)
    | cases h

theorem named_of_unaryOp {k : TokenKind} {op : UnaryOp} (h : unaryOp? k = some op) : UnaryOp.named.elem op := by
  cases k <;> first
    | (cases h; rfl)
    | cases h

theorem isLiteral_of_int {t : Text} {v : Value} (h : Literal.int t = .ok v) : v.isLiteral := by
  obtain ⟨k, rfl⟩ | ⟨k, rfl, hk⟩ := Literal.nonneg_of_int h
  · rfl
  · exact decide_eq_true hk

/-- What every function of the grammar of expressions gives, at a bound of the recursion. -/
structure GivesSourced (fuel : Nat) : Prop where
  expression : Gives (expression fuel) Sourced
  operators : ∀ bound lhs, lhs.Sourced → Gives (operators fuel bound lhs) Sourced
  unary : Gives (unary fuel) Sourced
  postfixed : Gives (postfixed fuel) Sourced
  postfixes : ∀ e, e.Sourced → Gives (postfixes fuel e) Sourced
  indexList : Gives (indexList fuel) fun es => es ≠ [] ∧ AllSourced es
  arguments : Gives (arguments fuel) AllSourced
  argumentList : Gives (argumentList fuel) AllSourced
  primary : Gives (primary fuel) Sourced

section

variable {fuel : Nat} (ih : GivesSourced fuel)
include ih

theorem gives_expression : Gives (expression (fuel + 1)) Sourced := by
  refine ih.unary.bind fun lhs hlhs => (ih.operators 0 lhs hlhs).bind fun cond hcond => ?_
  refine .check fun more => .ite (fun _ => .pure hcond) fun _ => .advance fun _ => ?_
  refine ih.expression.bind fun yes hyes => .expect fun _ => ?_
  exact ih.expression.bind fun no hno => .pure (Expr.sourced_ternary hcond hyes hno)

theorem gives_operators {lhs : Expr} (hlhs : lhs.Sourced) (bound : Nat) :
    Gives (operators (fuel + 1) bound lhs) Sourced := by
  refine .peekKind fun kind => ?_
  cases hop : binaryOp? kind with
  | none => exact .pure hlhs
  | some x =>
    obtain ⟨level, op⟩ := x
    refine .ite (fun _ => .pure hlhs) fun _ => .advance fun _ => ?_
    refine ih.unary.bind fun operand hoperand => .peekKind fun next => ?_
    have hrest {rhs : Expr} (hrhs : rhs.Sourced) :
        Gives (operators fuel bound (.binary (untyped lhs.span) op lhs rhs)) Sourced :=
      ih.operators bound _ (Expr.sourced_binary (level_of_binaryOp hop) hlhs hrhs)
    split
    · refine .ite (fun _ => ?_) fun _ => hrest hoperand
      exact (ih.operators _ operand hoperand).bind fun rhs hrhs => hrest hrhs
    · exact hrest hoperand

theorem gives_unary : Gives (unary (fuel + 1)) Sourced := by
  refine .peekKind fun kind => ?_
  cases hop : unaryOp? kind with
  | none => exact ih.postfixed
  | some op =>
    refine .advance fun tok => ih.unary.bind fun operand hoperand => ?_
    exact .pure (Expr.sourced_unary (named_of_unaryOp hop) hoperand)

theorem gives_postfixes {e : Expr} (he : e.Sourced) : Gives (postfixes (fuel + 1) e) Sourced := by
  refine .check fun call => .ite (fun _ => ?_) fun _ => .accept fun index => .ite (fun _ => ?_) fun _ =>
    .accept fun dot => .ite (fun _ => .name fun name hname => .check fun method => .ite (fun _ => ?_) fun _ => ?_)
      fun _ => .pure he
  · exact ih.arguments.bind fun args hargs => ih.postfixes _ (Expr.sourced_call he hargs)
  · refine ih.indexList.bind fun indices hindices => .expect fun _ => ih.postfixes _ ?_
    exact Expr.sourced_indexed he hindices.1 hindices.2
  · exact ih.arguments.bind fun args hargs => ih.postfixes _ (Expr.sourced_method hname he hargs)
  · exact ih.postfixes _ (Expr.sourced_selected hname he)

theorem gives_indexList : Gives (indexList (fuel + 1)) fun es => es ≠ [] ∧ AllSourced es := by
  refine ih.expression.bind fun e he => .accept fun more => .ite (fun _ => ?_) fun _ => .pure ?_
  · exact ih.indexList.bind fun es hes => .pure ⟨List.cons_ne_nil _ _, .cons he hes.2⟩
  · exact ⟨List.cons_ne_nil _ _, .cons he .nil⟩

theorem gives_arguments : Gives (arguments (fuel + 1)) AllSourced :=
  .expect fun _ => ih.argumentList.bind fun _ hargs => .expect fun _ => .pure hargs

theorem gives_argumentList : Gives (argumentList (fuel + 1)) AllSourced := by
  refine .check fun _ => .check fun _ => .ite (fun _ => .pure .nil) fun _ => ?_
  refine ih.expression.bind fun e he => .accept fun more => .ite (fun _ => ?_) fun _ => .pure (.cons he .nil)
  exact ih.argumentList.bind fun es hes => .pure (.cons he hes)

theorem gives_primary : Gives (primary (fuel + 1)) Sourced := by
  refine .peek fun tok hnamed => ?_
  split
  · refine .advance fun _ => ?_
    split
    · rename_i v hv
      exact .pure (Expr.sourced_literal (isLiteral_of_int hv))
    · exact .throw _
  · refine .advance fun _ => ?_
    split
    · rename_i v hv
      obtain ⟨x, rfl, hx⟩ := Literal.isPlain_of_float hv
      exact .pure (Expr.sourced_literal hx)
    · exact .throw _
  · exact .advance fun _ => .pure (Expr.sourced_literal rfl)
  · exact .advance fun _ => .pure (Expr.sourced_literal rfl)
  · rename_i hkind
    have hname : (Expr.name (untyped tok.span) tok.lexeme).Sourced := Expr.sourced_name (hnamed hkind)
    refine .advance fun _ => .check fun _ => .ite (fun _ => .advance fun _ => ?_) fun _ => .pure hname
    refine ih.postfixed.bind fun arg harg => .expect fun _ => .pure ?_
    exact Expr.sourced_indexed (e := .name (untyped tok.span) tok.lexeme) hname (List.cons_ne_nil _ _) (.cons harg .nil)
  · exact .advance fun _ => ih.expression.bind fun e he => .expect fun _ => .pure he
  · exact .throw _

end

/-- Every function of the grammar gives expressions of a source. -/
theorem givesSourced (fuel : Nat) : GivesSourced fuel := by
  induction fuel with
  | zero =>
    exact ⟨.throw _, fun _ _ _ => .throw _, .throw _, .throw _, fun _ _ => .throw _, .throw _, .throw _, .throw _, .throw _⟩
  | succ fuel ih =>
    exact ⟨gives_expression ih, fun bound _ h => gives_operators ih h bound, gives_unary ih,
      ih.primary.bind ih.postfixes, fun _ h => gives_postfixes ih h, gives_indexList ih, gives_arguments ih,
      gives_argumentList ih, gives_primary ih⟩

theorem gives_typeExpression (fuel : Nat) : Gives (typeExpression fuel) Sourced := (givesSourced fuel).postfixed

/-- An expression may be left out. -/
theorem Gives.optional {p : Parser Expr} {f : Expr → Parser β} {Q : β → Prop} (present : Bool)
    (hp : Gives p Sourced) (hf : ∀ e, e.MaybeSourced → Gives (f e) Q) :
    Gives (if present = true then p >>= f else Pure.pure .absent >>= f) Q :=
  .ite (fun _ => hp.bind fun e he => hf e he.maybe) fun _ => hf _ .absent

end Parser

namespace Text

variable {b : UInt8}

theorem cut_ne_nil (b : UInt8) (t : Text) : cut b t ≠ [] := by
  cases t with
  | nil => exact List.cons_ne_nil _ _
  | cons c t =>
    rw [cut]
    split
    · exact List.cons_ne_nil _ _
    · split <;> exact List.cons_ne_nil _ _

theorem cut_append (s t : Text) : cut b (s ++ b :: t) = cut b s ++ cut b t := by
  induction s with
  | nil =>
    rw [List.nil_append, cut.eq_def b (b :: t)]
    simp only [if_true]
    rfl
  | cons c s ih =>
    rw [List.cons_append, cut, cut, ih]
    by_cases hc : c = b
    · rw [if_pos hc, if_pos hc, List.cons_append]
    · rw [if_neg hc, if_neg hc]
      obtain ⟨piece, pieces, hpieces⟩ := List.exists_cons_of_ne_nil (cut_ne_nil b s)
      rw [hpieces]
      rfl

theorem cut_of_not_mem {t : Text} (h : b ∉ t) : cut b t = [t] := by
  induction t with
  | nil => rfl
  | cons c t ih =>
    rw [List.mem_cons, not_or] at h
    rw [cut, if_neg (Ne.symm h.1), ih h.2]

end Text

namespace Lexer

theorem dot_not_mem_name {t : Text} (h : isName t) : Text.byte '.' ∉ t := by
  intro hmem
  rw [← Rune.text_ofText t] at hmem
  obtain ⟨r, hr, hx⟩ := List.mem_flatMap.mp hmem
  have hchar := (char_of_mem_bytes (Rune.mem_ofText hr) hx (by decide)).1
  have hdot := isWordChar_of_isWord (Canonical.isWord_of_isName h) r hr
  rw [hchar] at hdot
  revert hdot
  decide

end Lexer

namespace Parser

open Shading.Expr (Sourced MaybeSourced AllSourced)

variable {β : Type}

/-- Names joined by points. -/
def IsPath (t : Text) : Prop := (Text.cut (Text.byte '.') t).all Lexer.isName

theorem isPath_name {t : Text} (h : Lexer.isName t) : IsPath t := by
  rw [IsPath, Text.cut_of_not_mem (Lexer.dot_not_mem_name h), List.all_cons, h]
  rfl

theorem IsPath.name {t : Text} (h : IsPath t) (hdot : Text.byte '.' ∉ t) : Lexer.isName t := by
  rw [IsPath, Text.cut_of_not_mem hdot, List.all_cons, List.all_nil, Bool.and_true] at h
  exact h

theorem gives_dottedRest (fuel : Nat) {name : Text} (hname : IsPath name) : Gives (dottedRest name fuel) IsPath := by
  induction fuel generalizing name with
  | zero => exact .throw _
  | succ fuel ih =>
    refine ⟨fun {ts us t} hts h => ?_⟩
    have hsecond : peekSecond ts = .ok (headKind (ts.drop 1), ts) := rfl
    rw [dottedRest, bind_of_ok (check_run _ _), bind_of_ok hsecond] at h
    split at h
    · rename_i hdot
      simp only [Bool.and_eq_true, beq_iff_eq, decide_eq_true_eq] at hdot
      obtain ⟨point, vs, rfl, hpoint⟩ := headKind_ne hdot.1 (by decide)
      rw [bind_of_ok (advance_run (by rw [hpoint]; decide))] at h
      obtain ⟨part, ws, rfl, hpart⟩ := headKind_ne hdot.2 (by decide)
      rw [bind_of_ok (advance_run (by rw [hpart]; decide))] at h
      have hword : Lexer.isName part.lexeme := hts.tail.head hpart
      refine (ih ?_).run hts.tail.tail h
      have hjoined : name ++ "." ++ part.lexeme = name ++ Text.byte '.' :: part.lexeme := List.append_assoc ..
      rw [hjoined, IsPath, Text.cut_append, List.all_append, hname, isPath_name hword]
      rfl
    · exact (Gives.pure hname).run hts h

theorem gives_dottedName (fuel : Nat) : Gives (dottedName fuel) IsPath :=
  .name fun _ hname => gives_dottedRest fuel (isPath_name hname)

/-- The arguments of all attributes are expressions of a source. -/
def SourcedAttributes (as : List Attribute) : Prop := ∀ a ∈ as, AllSourced a.args

theorem SourcedAttributes.take {as : List Attribute} (h : SourcedAttributes as) (name : Text) :
    (∀ a ∈ (Attribute.take as name).1, AllSourced a.args) ∧ SourcedAttributes (Attribute.take as name).2 :=
  ⟨fun a ha => h a (List.mem_of_find?_eq_some ha), fun a ha => h a (List.mem_filter.mp ha |>.1)⟩

theorem gives_attributeArguments (fuel : Nat) (a : Attribute) (ha : a.args = []) :
    Gives (attributeArguments fuel a) fun b => AllSourced b.args := by
  have hnone : AllSourced a.args := by rw [ha]; exact .nil
  have hclose (b : Attribute) (hb : AllSourced b.args) :
      Gives (do
        let _ ← expect .rightParen
        if b.string.isNone && b.args.isEmpty then throw (.emptyArguments a.name a.span)
        return b) fun b => AllSourced b.args :=
    .expect fun _ => .ite (fun _ => .throw _) fun _ => .pure hb
  refine .accept fun opened => .ite (fun _ => .pure hnone) fun _ => .check fun isString =>
    .ite (fun _ => .advance fun tok => ?_) fun _ => ?_
  · split
    · exact hclose _ hnone
    · exact .throw _
  · exact (givesSourced fuel).argumentList.bind fun args hargs => hclose _ hargs

theorem gives_attributeGroup (fuel : Nat) {seen : List Attribute} (hseen : SourcedAttributes seen) :
    Gives (attributeGroup seen fuel) SourcedAttributes := by
  induction fuel generalizing seen with
  | zero => exact .throw _
  | succ fuel ih =>
    refine .expect fun name => .ite (fun _ => .throw _) fun _ => .ite (fun _ => .throw _) fun _ => ?_
    refine (gives_attributeArguments fuel _ rfl).bind fun a ha => .accept fun more => ?_
    have hall : SourcedAttributes (seen ++ [a]) := List.forall_mem_append.mpr ⟨hseen, List.forall_mem_singleton.mpr ha⟩
    exact .ite (fun _ => ih hall) fun _ => .expect fun _ => .pure hall

theorem gives_attributes (fuel : Nat) : Gives (attributes fuel) SourcedAttributes := by
  have hgroups : ∀ fuel seen, SourcedAttributes seen → Gives (attributeGroups seen fuel) SourcedAttributes := by
    intro fuel
    induction fuel with
    | zero => exact fun _ _ => .throw _
    | succ fuel ih =>
      refine fun seen hseen => .accept fun _ => .ite (fun _ => ?_) fun _ => .pure hseen
      exact (gives_attributeGroup fuel hseen).bind ih
  exact hgroups fuel [] (List.forall_mem_nil _)

theorem sourced_exprArg {a : Attribute} {e : Expr} (ha : AllSourced a.args) (h : a.exprArg = .ok e) : e.Sourced := by
  unfold Attribute.exprArg at h
  split at h
  · rename_i hargs
    cases h
    exact ha e (by rw [hargs]; exact List.mem_cons_self)
  · cases h

theorem gives_optionalArg {a : Option Attribute} (ha : ∀ b ∈ a, AllSourced b.args) :
    Gives (liftM (Attribute.optionalArg a)) MaybeSourced := by
  refine .lift fun e he => ?_
  cases a with
  | none =>
    cases he
    exact .absent
  | some b => exact (sourced_exprArg (ha b rfl) he).maybe

/-- An attribute as it was written, or with the value that the name alone stands for. -/
def IsRead {α : Type} (v : α) (a : Attr α) : Prop := a.GivenOr v ∧ a.expr.MaybeSourced

theorem isRead_none {α : Type} (v : α) : IsRead v {} := ⟨.inl rfl, .absent⟩

theorem isRead_known {α : Type} (v : α) : IsRead v (.known v) := ⟨.inr rfl, .absent⟩

theorem isRead_given {α : Type} (v : α) {e : Expr} (he : e.Sourced) : IsRead v { expr := e } := ⟨.inl rfl, he.maybe⟩

theorem gives_flag {a : Option Attribute} (ha : ∀ b ∈ a, AllSourced b.args) :
    Gives (liftM (Attribute.flag a)) (IsRead true) := by
  refine .lift fun x hx => ?_
  cases a with
  | none =>
    cases hx
    exact isRead_none true
  | some b =>
    simp only [Attribute.flag] at hx
    split at hx
    · cases hx
      exact isRead_known true
    · cases hb : b.exprArg with
      | error e =>
        rw [hb] at hx
        cases hx
      | ok e =>
        rw [hb] at hx
        cases hx
        exact isRead_given true (sourced_exprArg (ha b rfl) hb)

/-- The attribute of an expression that was written is an attribute of a source. -/
theorem source_given {α : Type} (name : Text) (known : List Expr) {e : Expr} (hname : Lexer.isName name)
    (he : e.MaybeSourced) : Slot.AllSource (Slot.ofAttr (α := α) name { expr := e } known) := by
  unfold Slot.ofAttr
  cases habsent : e.isAbsent with
  | true => exact List.forall_mem_nil _
  | false =>
    rw [if_neg (by decide)]
    exact List.forall_mem_singleton.mpr ⟨hname, List.forall_mem_singleton.mpr (he habsent)⟩

theorem source_isRead {α : Type} {v : α} (name : Text) {a : Attr α} {known : List Expr} (hname : Lexer.isName name)
    (ha : IsRead v a) (hknown : AllSourced known) : Slot.AllSource (Slot.ofAttr name a known) := by
  obtain ⟨hgiven | rfl, he⟩ := ha
  · obtain ⟨e, value⟩ := a
    cases hgiven
    exact source_given name _ hname he
  · exact List.forall_mem_singleton.mpr ⟨hname, hknown⟩

end Parser

/-- A statement of a function that has a text. -/
def Stmt.Sourced (s : Stmt) : Prop := s.Formed ∧ ∀ p ∈ s.parts false, p.isSource

namespace Parser

open Shading.Expr (Sourced MaybeSourced AllSourced)

variable {β : Type}

theorem gives_letStmt (fuel : Nat) : Gives (letStmt fuel) Stmt.Sourced := by
  refine .advance fun start => .name fun name hname => .accept fun typed => ?_
  refine .optional typed (gives_typeExpression fuel) fun type htype => .accept fun given => ?_
  refine .optional given (givesSourced fuel).expression fun init hinit => .ite (fun _ => .peek fun _ _ => .throw _) fun h => ?_
  simp only [Bool.and_eq_true, not_and, Bool.not_eq_true] at h
  refine .expect fun _ => .pure ⟨.letVar ?_, ?_⟩
  · cases habsent : type.isAbsent with
    | false => exact .inl rfl
    | true => exact .inr (h habsent)
  · simp only [Stmt.parts, VarDecl.parts, List.forall_mem_cons, List.forall_mem_append]
    exact ⟨rfl, hname, Part.source_optional_type htype, Part.source_optional_expr hinit, rfl, List.forall_mem_nil _⟩

theorem source_constParts {d : ConstDecl} (hname : Lexer.isName d.name) (htype : d.type.MaybeSourced)
    (hvalue : d.value.Sourced) : ∀ p ∈ d.parts, p.isSource := by
  simp only [ConstDecl.parts, List.forall_mem_cons, List.forall_mem_append]
  exact ⟨rfl, hname, Part.source_optional_type htype, rfl, Part.source_expr hvalue, rfl, List.forall_mem_nil _⟩

/-- What the parser makes of a declaration of a constant with attributes in front. -/
def IsConst (s : Stmt) : Prop := ∃ span d, s = .const span d ∧ IsRead true d.exported ∧ ∀ p ∈ d.parts, p.isSource

theorem gives_constDecl (fuel : Nat) {attrs : List Attribute} (hattrs : SourcedAttributes attrs) :
    Gives (constDecl fuel attrs) IsConst := by
  refine (gives_flag (hattrs.take _).1).bind fun exported hexported => .bind (.lift fun _ _ => trivial) fun _ _ => ?_
  refine .advance fun start => .name fun name hname => .accept fun typed => ?_
  refine .optional typed (gives_typeExpression fuel) fun type htype => .expect fun _ => ?_
  refine (givesSourced fuel).expression.bind fun value hvalue => .expect fun _ => .pure ?_
  exact ⟨_, _, rfl, hexported, source_constParts hname htype hvalue⟩

theorem gives_returnStmt (fuel : Nat) : Gives (returnStmt fuel) Stmt.Sourced := by
  refine .advance fun start => .check fun alone => ?_
  have hclose (e : Expr) (he : e.MaybeSourced) :
      Gives (expect .semicolon >>= fun _ => pure (Stmt.returnWith start.span e)) Stmt.Sourced := by
    refine .expect fun _ => .pure ⟨.returnWith, ?_⟩
    simp only [Stmt.parts, List.forall_mem_cons, List.forall_mem_append]
    refine ⟨rfl, ?_, rfl, List.forall_mem_nil _⟩
    cases habsent : e.isAbsent with
    | true => exact List.forall_mem_nil _
    | false => exact List.forall_mem_singleton.mpr (Part.source_expr (he habsent))
  exact .ite (fun _ => hclose _ .absent) fun _ => (givesSourced fuel).expression.bind fun e he => hclose e he.maybe

theorem isAssign_of_sourced {e : Expr} (h : e.Sourced) : e.isAssign = false := by
  cases e with
  | assign => cases h
  | _ => rfl

theorem named_of_assignOp {k : TokenKind} {op : AssignOp} (h : assignOp? k = some op) : op ∈ AssignOp.named := by
  cases k <;> first
    | (cases h; decide)
    | cases h

theorem gives_expressionStmt (fuel : Nat) : Gives (expressionStmt fuel) Stmt.Sourced := by
  refine .peek fun start _ => (givesSourced fuel).expression.bind fun lhs hlhs => .peekKind fun kind => ?_
  split
  · rename_i op hop
    refine .advance fun _ => (givesSourced fuel).expression.bind fun rhs hrhs => .expect fun _ => .pure ?_
    refine ⟨.assign (named_of_assignOp hop), ?_⟩
    simp only [Stmt.parts, Stmt.exprParts, List.forall_mem_cons]
    have hleft : (Part.expr Canonical.unaryLevel lhs).isSource := by
      rw [Part.isSource, hlhs]
      rfl
    exact ⟨hleft, rfl, Part.source_expr hrhs, rfl, List.forall_mem_nil _⟩
  · refine .expect fun _ => .pure ⟨.expr (isAssign_of_sourced hlhs), ?_⟩
    have hparts : Stmt.exprParts lhs = [.expr 0 lhs, .mark .semicolon] := by
      cases lhs with
      | assign => cases hlhs
      | _ => rfl
    simp only [Stmt.parts, hparts, List.forall_mem_cons]
    exact ⟨Part.source_expr hlhs, rfl, List.forall_mem_nil _⟩

theorem gives_parenExpression (fuel : Nat) : Gives (parenExpression fuel) Sourced :=
  .expect fun _ => (givesSourced fuel).expression.bind fun _ he => .expect fun _ => .pure he

theorem gives_statementAttributes (fuel : Nat) : Gives (statementAttributes fuel) (IsRead .always) := by
  refine (gives_attributes fuel).bind fun attrs hattrs => ?_
  have htaken := (hattrs.take "unroll").1
  have hself {u : Attr Unroll} (hu : IsRead .always u) : Gives (pure u) (IsRead (α := Unroll) .always) := .pure hu
  have hreject (rest : List Attribute) {u : Attr Unroll} (hu : IsRead .always u) :
      Gives (liftM (Attribute.rejectAll rest "statement") >>= fun _ => pure u) (IsRead .always) :=
    .bind (P := fun _ => True) (.lift fun _ _ => trivial) fun _ _ => hself hu
  dsimp only
  cases hunroll : (Attribute.take attrs "unroll").1 with
  | none => exact (hself (isRead_none _)).bind fun u hu => hreject _ hu
  | some a =>
    rw [hunroll] at htaken
    refine .ite (fun _ => (hself (isRead_known _)).bind ?_)
      fun _ => .bind (.lift fun e he => sourced_exprArg (htaken a rfl) he) fun e he => (hself (isRead_given _ he)).bind ?_
    all_goals
      refine fun u hu => .check fun _ => .check fun _ => .ite (fun _ => .peekKind fun _ => .throw _) fun _ => ?_
      exact (hself hu).bind fun u hu => hreject _ hu

def AllSourcedStmts (ss : List Stmt) : Prop := ∀ s ∈ ss, s.Sourced

theorem source_allParts {ss : List Stmt} (h : AllSourcedStmts ss) : ∀ p ∈ Stmt.allParts ss, p.isSource := by
  intro p hp
  rw [Stmt.allParts_eq] at hp
  obtain ⟨s, hs, hp⟩ := List.mem_flatMap.mp hp
  exact (h s hs).2 p hp

theorem sourced_block {s i : Span} {body : List Stmt} (h : AllSourcedStmts body) :
    (Stmt.scoped s (.multi i body)).Sourced := by
  refine ⟨.block fun x hx => (h x hx).1, ?_⟩
  rw [Stmt.parts, if_neg (by decide), Stmt.parts]
  exact Part.source_braces (source_allParts h)

theorem source_unroll {u : Attr Unroll} (h : IsRead .always u) : ∀ p ∈ Slot.bracketed (Slot.ofUnroll u), p.isSource := by
  have hname : (Expr.name {} (Unroll.text .always)).Sourced := Expr.sourced_name (by decide)
  exact (Slot.allSource_iff _).mpr (source_isRead _ (by decide) h (.cons hname .nil))

theorem sourced_branch {s : Span} {isConst : Bool} {arms : List (Expr × Stmt)} {other : Stmt} (hne : arms ≠ [])
    (harms : ∀ a ∈ arms, a.1.Sourced ∧ a.2.Sourced) (hother : other.isAbsent = false → other.Sourced) :
    (Stmt.branch s isConst arms other).Sourced := by
  refine ⟨.branch hne (fun a ha => (harms a ha).2.1) fun h => (hother h).1, ?_⟩
  simp only [Stmt.parts, List.forall_mem_cons, List.forall_mem_append]
  refine ⟨?_, rfl, ?_, ?_⟩
  · cases isConst with
    | true => exact List.forall_mem_singleton.mpr rfl
    | false => exact List.forall_mem_nil _
  · refine (Stmt.forall_armParts (fun _ => rfl) arms).mpr fun a ha => ?_
    exact ⟨Part.source_expr (harms a ha).1, Stmt.source_inside (harms a ha).2.2 true⟩
  · cases habsent : other.isAbsent with
    | true => exact List.forall_mem_nil _
    | false =>
      rw [if_neg (by decide)]
      exact List.forall_mem_cons.mpr ⟨rfl, Part.source_braces (Stmt.source_inside (hother habsent).2 true)⟩

theorem sourced_loop {s : Span} {c : Expr} {u : Attr Unroll} {body : Stmt} (hu : IsRead .always u) (hc : c.Sourced)
    (hbody : body.Sourced) : (Stmt.loop s c u body).Sourced := by
  refine ⟨.loop hu.1 hbody.1, ?_⟩
  simp only [Stmt.parts, List.forall_mem_cons, List.forall_mem_append]
  exact ⟨source_unroll hu, rfl, rfl, Part.source_expr hc, rfl, Part.source_braces (Stmt.source_inside hbody.2 true)⟩

theorem sourced_forEach {s : Span} {h : EachHead} {body : Stmt} (hu : IsRead .always h.unroll)
    (hname : Lexer.isName h.name) (harray : h.array.Sourced) (hbody : body.Sourced) : (Stmt.forEach s h body).Sourced := by
  refine ⟨.forEach hu.1 hbody.1, ?_⟩
  simp only [Stmt.parts, List.forall_mem_cons, List.forall_mem_append]
  exact ⟨source_unroll hu, rfl, hname, rfl, Part.source_expr harray,
    Part.source_braces (Stmt.source_inside hbody.2 true)⟩

theorem sourced_forRange {s : Span} {h : RangeHead} {body : Stmt} (hu : IsRead .always h.unroll)
    (hname : Lexer.isName h.name) (hstart : h.start.Sourced) (hstop : h.stop.Sourced) (hstep : h.step.MaybeSourced)
    (hbody : body.Sourced) : (Stmt.forRange s h body).Sourced := by
  refine ⟨.forRange hu.1 hbody.1, ?_⟩
  simp only [Stmt.parts, List.forall_mem_cons, List.forall_mem_append]
  exact ⟨source_unroll hu, rfl, hname, rfl, Part.source_expr hstart, rfl, Part.source_expr hstop,
    Part.source_optional_expr hstep, Part.source_braces (Stmt.source_inside hbody.2 true)⟩

/-- What every function of the grammar of statements gives, at a bound of the recursion. -/
structure GivesStmts (fuel : Nat) : Prop where
  block : Gives (block fuel) AllSourcedStmts
  statements : Gives (statements fuel) AllSourcedStmts
  statement : Gives (statement fuel) Stmt.Sourced
  branches : ∀ isConst start arms, (∀ a ∈ arms, a.1.Sourced ∧ a.2.Sourced) →
    Gives (branches fuel isConst start arms) Stmt.Sourced
  forStmt : ∀ unroll : Attr Unroll, IsRead .always unroll → Gives (forStmt fuel unroll) Stmt.Sourced

section

variable {fuel : Nat} (ih : GivesStmts fuel)
include ih

theorem gives_statements : Gives (statements (fuel + 1)) AllSourcedStmts := by
  refine .check fun _ => .check fun _ => .ite (fun _ => .pure (List.forall_mem_nil _)) fun _ => ?_
  exact ih.statement.bind fun s hs => ih.statements.bind fun ss hss => .pure (List.forall_mem_cons.mpr ⟨hs, hss⟩)

theorem gives_branches (isConst : Bool) (start : Span) {arms : List (Expr × Stmt)}
    (harms : ∀ a ∈ arms, a.1.Sourced ∧ a.2.Sourced) : Gives (branches (fuel + 1) isConst start arms) Stmt.Sourced := by
  refine .expect fun _ => (gives_parenExpression fuel).bind fun cond hcond => ih.statement.bind fun body hbody => ?_
  have hmore : ∀ a ∈ arms ++ [(cond, body)], a.1.Sourced ∧ a.2.Sourced :=
    List.forall_mem_append.mpr ⟨harms, List.forall_mem_singleton.mpr ⟨hcond, hbody⟩⟩
  have hne : arms ++ [(cond, body)] ≠ [] := by simp
  refine .accept fun _ => .ite (fun _ => .pure (sourced_branch hne hmore nofun)) fun _ => .check fun _ => ?_
  refine .ite (fun _ => ih.branches _ _ _ hmore) fun _ => ih.statement.bind fun other hother => .pure ?_
  exact sourced_branch hne hmore fun _ => hother

theorem gives_forStmt {unroll : Attr Unroll} (hunroll : IsRead .always unroll) :
    Gives (forStmt (fuel + 1) unroll) Stmt.Sourced := by
  refine .advance fun start => .name fun name hname => .expect fun _ => ?_
  refine (givesSourced fuel).expression.bind fun e he => .accept fun ranged => .ite (fun _ => ?_) fun _ => ?_
  · exact ih.statement.bind fun body hbody => .pure (sourced_forEach hunroll hname he hbody)
  · refine (givesSourced fuel).expression.bind fun stop hstop => .accept fun stepped => ?_
    refine .optional stepped (givesSourced fuel).expression fun step hstep => ih.statement.bind fun body hbody => ?_
    exact .pure (sourced_forRange hunroll hname he hstop hstep hbody)

theorem gives_statement : Gives (statement (fuel + 1)) Stmt.Sourced := by
  refine (gives_statementAttributes fuel).bind fun unroll hunroll => .peek fun tok _ => ?_
  have hmarks {s : Stmt} {k : TokenKind} (hformed : s.Formed) (hparts : s.parts false = [.mark k, .mark .semicolon]) :
      s.Sourced := by
    refine ⟨hformed, ?_⟩
    rw [hparts]
    exact List.forall_mem_cons.mpr ⟨rfl, List.forall_mem_singleton.mpr rfl⟩
  split
  · exact ih.block.bind fun body hbody => .pure (sourced_block hbody)
  · exact gives_letStmt fuel
  · refine .peekSecond fun second => .ite (fun _ => .advance fun _ => ?_) fun _ => ?_
    · exact ih.branches _ _ _ (List.forall_mem_nil _)
    · refine ⟨fun hts h => ?_⟩
      obtain ⟨hus, span, d, rfl, -, hparts⟩ := (gives_constDecl fuel (List.forall_mem_nil _)).run hts h
      exact ⟨hus, .const, hparts⟩
  · exact ih.branches _ _ _ (List.forall_mem_nil _)
  · refine .advance fun start => (gives_parenExpression fuel).bind fun cond hcond => ?_
    exact ih.statement.bind fun body hbody => .pure (sourced_loop hunroll hcond hbody)
  · exact ih.forStmt unroll hunroll
  · exact gives_returnStmt fuel
  · exact .advance fun _ => .expect fun _ => .pure (hmarks .breakLoop rfl)
  · exact .advance fun _ => .expect fun _ => .pure (hmarks .continueLoop rfl)
  · exact .advance fun _ => .expect fun _ => .pure (hmarks .discard rfl)
  · exact .advance fun _ => .pure ⟨.noOp, List.forall_mem_singleton.mpr rfl⟩
  · exact gives_expressionStmt fuel

end

/-- Every function of the grammar gives statements that have a text. -/
theorem givesStmts (fuel : Nat) : GivesStmts fuel := by
  induction fuel with
  | zero => exact ⟨.throw _, .throw _, .throw _, fun _ _ _ _ => .throw _, fun _ _ => .throw _⟩
  | succ fuel ih =>
    exact ⟨.expect fun _ => ih.statements.bind fun _ hbody => .expect fun _ => .pure hbody, gives_statements ih,
      gives_statement ih, fun isConst start _ h => gives_branches ih isConst start h, fun _ h => gives_forStmt ih h⟩

end Parser

/-- A declaration that has a text, also with more attributes in front. -/
def Stmt.SourcedAtTop (s : Stmt) : Prop :=
  s.Declared ∧ ∀ slots, Slot.AllSource slots → ∀ p ∈ s.declarationParts slots, p.isSource

namespace Parser

open Shading.Expr (Sourced MaybeSourced AllSourced)

variable {β : Type}

def IsImportItem (i : ImportItem) : Prop := Lexer.isName i.name ∧ (i.rename ≠ [] → Lexer.isName i.rename)

theorem gives_importItems (fuel : Nat) {item : ImportItem} (hname : Lexer.isName item.name) (hplain : item.rename = []) :
    Gives (importItems item fuel) fun items => ∀ i ∈ items, IsImportItem i := by
  induction fuel generalizing item with
  | zero => exact .throw _
  | succ fuel ih =>
    have hrest {i : ImportItem} (hi : IsImportItem i) :
        Gives (accept .comma >>= fun more => if more = true then do
            let tok ← expect .identifier
            let items ← importItems { span := tok.span, name := tok.lexeme } fuel
            return i :: items
          else return [i]) fun items => ∀ i ∈ items, IsImportItem i := by
      refine .accept fun _ => .ite (fun _ => .name fun tok htok => ?_) fun _ => .pure (List.forall_mem_singleton.mpr hi)
      exact (ih htok rfl).bind fun items hitems => .pure (List.forall_mem_cons.mpr ⟨hi, hitems⟩)
    refine .accept fun _ => .ite (fun _ => .name fun tok htok => ?_) fun _ => ?_
    · exact hrest ⟨hname, fun _ => htok⟩
    · exact hrest ⟨hname, fun h => absurd hplain h⟩

theorem source_bracketed {slots : List Slot} (h : Slot.AllSource slots) : ∀ p ∈ Slot.bracketed slots, p.isSource :=
  (Slot.allSource_iff slots).mpr h

theorem sourced_import {s : Span} {name : Text} {items : List ImportItem} (hname : IsPath name)
    (hitems : ∀ i ∈ items, IsImportItem i) : (Stmt.importFrom s name items).SourcedAtTop := by
  refine ⟨.importFrom, fun slots hslots => ?_⟩
  simp only [Stmt.declarationParts, List.forall_mem_append, List.forall_mem_cons]
  refine ⟨source_bracketed hslots, rfl, ?_⟩
  cases items with
  | nil => exact List.forall_mem_cons.mpr ⟨hname, List.forall_mem_singleton.mpr rfl⟩
  | cons i items =>
    rw [List.isEmpty_cons, if_neg (by decide), List.forall_mem_append]
    refine ⟨(Part.forall_separate (fun _ => rfl) _).mpr (List.forall_mem_map.mpr fun j hj => ?_), ?_⟩
    · obtain ⟨hj, hrename⟩ := hitems j hj
      refine List.forall_mem_cons.mpr ⟨hj, ?_⟩
      split
      · exact List.forall_mem_nil _
      · rename_i hempty
        refine List.forall_mem_cons.mpr ⟨rfl, List.forall_mem_singleton.mpr (hrename ?_)⟩
        simpa using hempty
    · simp only [List.forall_mem_cons]
      exact ⟨rfl, hname, rfl, List.forall_mem_nil _⟩

theorem gives_importDecl (fuel : Nat) (attrs : List Attribute) : Gives (importDecl fuel attrs) Stmt.SourcedAtTop := by
  refine .bind (P := fun _ => True) (.lift fun _ _ => trivial) fun _ _ => .advance fun start => .peek fun place _ => ?_
  refine (gives_dottedName fuel).bind fun first hfirst => .accept fun _ => .ite (fun _ => ?_) fun _ => ?_
  · exact .pure (sourced_import hfirst (List.forall_mem_nil _))
  · refine .ite (fun _ => .throw _) fun hdot => ?_
    have hname : Lexer.isName first := hfirst.name (by simpa using hdot)
    refine (gives_importItems fuel hname rfl).bind fun items hitems => .expect fun _ => ?_
    exact (gives_dottedName fuel).bind fun name hpath => .expect fun _ => .pure (sourced_import hpath hitems)

theorem gives_optionDecl (fuel : Nat) (attrs : List Attribute) : Gives (optionDecl fuel attrs) Stmt.SourcedAtTop := by
  refine .bind (P := fun _ => True) (.lift fun _ _ => trivial) fun _ _ => .advance fun start => .name fun name hname => ?_
  refine .expect fun _ => (gives_typeExpression fuel).bind fun type htype => .accept fun given => ?_
  refine .optional given (givesSourced fuel).expression fun default hdefault => .expect fun _ => .pure ?_
  refine ⟨.option, fun slots hslots => ?_⟩
  simp only [Stmt.declarationParts, List.forall_mem_append, List.forall_mem_cons]
  exact ⟨source_bracketed hslots, rfl, hname, rfl, htype, Part.source_optional_expr hdefault, rfl, List.forall_mem_nil _⟩

theorem source_exported {a : Attr Bool} (h : IsRead true a) : Slot.AllSource (Slot.ofAttr "export" a []) :=
  source_isRead _ (by decide) h .nil

theorem sourced_const {s : Stmt} (h : IsConst s) : s.SourcedAtTop := by
  obtain ⟨span, d, rfl, hexported, hparts⟩ := h
  refine ⟨.const hexported.1, fun slots hslots => ?_⟩
  simp only [Stmt.declarationParts, List.forall_mem_append]
  exact ⟨source_bracketed (hslots.append (source_exported hexported)), hparts⟩

theorem gives_aliasDecl (fuel : Nat) {attrs : List Attribute} (hattrs : SourcedAttributes attrs) :
    Gives (aliasDecl fuel attrs) Stmt.SourcedAtTop := by
  refine (gives_flag (hattrs.take _).1).bind fun exported hexported => ?_
  refine .bind (P := fun _ => True) (.lift fun _ _ => trivial) fun _ _ => .advance fun start => .name fun name hname => ?_
  refine .expect fun _ => (gives_typeExpression fuel).bind fun target htarget => .expect fun _ => .pure ?_
  refine ⟨.alias hexported.1, fun slots hslots => ?_⟩
  simp only [Stmt.declarationParts, List.forall_mem_append, List.forall_mem_cons]
  exact ⟨source_bracketed (hslots.append (source_exported hexported)), rfl, hname, rfl, htarget, rfl, List.forall_mem_nil _⟩

def IsStructMember (m : StructMember) : Prop := m.Formed ∧ ∀ p ∈ m.parts, p.isSource

theorem gives_structMember (fuel : Nat) : Gives (structMember fuel) IsStructMember := by
  refine (gives_attributes fuel).bind fun attrs hattrs => ?_
  refine (gives_optionalArg (hattrs.take _).1).bind fun builtin hbuiltin => ?_
  refine (gives_optionalArg ((hattrs.take _).2.take _).1).bind fun location hlocation => ?_
  refine (gives_optionalArg (((hattrs.take _).2.take _).2.take _).1).bind fun cond hcond => ?_
  refine .bind (P := fun _ => True) (.lift fun _ _ => trivial) fun _ _ => .name fun name hname => .expect fun _ => ?_
  refine (gives_typeExpression fuel).bind fun type htype => .pure ⟨⟨rfl, rfl⟩, ?_⟩
  simp only [StructMember.parts, List.forall_mem_append, List.forall_mem_cons]
  have hcondition : Slot.AllSource (Slot.ofExpr "cond" cond) := source_given (α := Unit) "cond" [] (by decide) hcond
  refine ⟨source_bracketed ((hcondition.append ?_).append ?_), hname, rfl, htype, List.forall_mem_nil _⟩
  · exact source_given _ _ (by decide) hbuiltin
  · exact source_given _ _ (by decide) hlocation

theorem gives_structMembers (fuel : Nat) : Gives (structMembers fuel) fun ms => ∀ m ∈ ms, IsStructMember m := by
  induction fuel with
  | zero => exact .throw _
  | succ fuel ih =>
    refine .check fun _ => .check fun _ => .ite (fun _ => .pure (List.forall_mem_nil _)) fun _ => ?_
    refine (gives_structMember fuel).bind fun m hm => .accept fun _ => .ite (fun _ => ih.bind fun ms hms => .pure ?_)
      fun _ => .pure ?_
    · exact List.forall_mem_cons.mpr ⟨hm, hms⟩
    · exact List.forall_mem_singleton.mpr hm

theorem gives_structDecl (fuel : Nat) {attrs : List Attribute} (hattrs : SourcedAttributes attrs) :
    Gives (structDecl fuel attrs) Stmt.SourcedAtTop := by
  refine (gives_flag (hattrs.take _).1).bind fun exported hexported => ?_
  refine (gives_optionalArg ((hattrs.take _).2.take _).1).bind fun layout hlayout => ?_
  refine .bind (P := fun _ => True) (.lift fun _ _ => trivial) fun _ _ => .advance fun start => .name fun name hname => ?_
  refine .expect fun _ => (gives_structMembers fuel).bind fun members hmembers => .expect fun _ => ?_
  refine .ite (fun _ => .throw _) fun hne => .pure ⟨.struct hexported.1 rfl (by simpa using hne) ?_, ?_⟩
  · exact fun m hm => (hmembers m hm).1
  · intro slots hslots
    simp only [Stmt.declarationParts, List.forall_mem_append, List.forall_mem_cons]
    have hslots' := (hslots.append (source_exported hexported)).append
      (source_given (α := Layout) "layout" [] (by decide) hlayout)
    refine ⟨source_bracketed hslots', rfl, hname, Part.source_braces ?_⟩
    exact (Part.forall_separate (fun _ => rfl) _).mpr (List.forall_mem_map.mpr fun m hm => (hmembers m hm).2)

def IsExternal (v : External) : Prop := v.Formed ∧ ∀ p ∈ v.parts, p.isSource

theorem gives_externalVar (fuel : Nat) : Gives (externalVar fuel) IsExternal := by
  refine (gives_attributes fuel).bind fun attrs hattrs => ?_
  refine (gives_optionalArg (hattrs.take _).1).bind fun set hset => ?_
  refine (gives_optionalArg ((hattrs.take _).2.take _).1).bind fun binding hbinding => ?_
  refine .bind (P := fun _ => True) (.lift fun _ _ => trivial) fun _ _ => .name fun name hname => .expect fun _ => ?_
  refine (gives_typeExpression fuel).bind fun type htype => .pure ⟨⟨rfl, rfl⟩, ?_⟩
  simp only [External.parts, List.forall_mem_append, List.forall_mem_cons]
  have hslots := (source_given (α := UInt32) "set" [] (by decide) hset).append
    (source_given (α := UInt32) "binding" [] (by decide) hbinding)
  exact ⟨source_bracketed hslots, hname, rfl, htype, List.forall_mem_nil _⟩

theorem gives_externalVars (fuel : Nat) : Gives (externalVars fuel) fun vs => ∀ v ∈ vs, IsExternal v := by
  induction fuel with
  | zero => exact .throw _
  | succ fuel ih =>
    refine .check fun _ => .check fun _ => .ite (fun _ => .pure (List.forall_mem_nil _)) fun _ => ?_
    refine (gives_externalVar fuel).bind fun v hv => .accept fun _ => .ite (fun _ => ih.bind fun vs hvs => .pure ?_)
      fun _ => .pure ?_
    · exact List.forall_mem_cons.mpr ⟨hv, hvs⟩
    · exact List.forall_mem_singleton.mpr hv

theorem gives_externalDecl (fuel : Nat) {attrs : List Attribute} (hattrs : SourcedAttributes attrs) :
    Gives (externalDecl fuel attrs) Stmt.SourcedAtTop := by
  refine (gives_optionalArg (hattrs.take _).1).bind fun set hset => ?_
  refine .bind (P := fun _ => True) (.lift fun _ _ => trivial) fun _ _ => .advance fun start => .expect fun _ => ?_
  refine (gives_externalVars fuel).bind fun vars hvars => .expect fun _ => .pure ⟨.external rfl ?_, ?_⟩
  · exact fun v hv => (hvars v hv).1
  · intro slots hslots
    simp only [Stmt.declarationParts, List.forall_mem_append, List.forall_mem_cons]
    have hslots' := hslots.append (source_given (α := UInt32) "set" [] (by decide) hset)
    refine ⟨source_bracketed hslots', rfl, Part.source_braces ?_⟩
    exact (Part.forall_separate (fun _ => rfl) _).mpr (List.forall_mem_map.mpr fun v hv => (hvars v hv).2)

theorem gives_parameters (fuel : Nat) :
    Gives (parameters fuel) fun ps => ∀ p ∈ ps, Lexer.isName p.name ∧ p.type.Sourced := by
  induction fuel with
  | zero => exact .throw _
  | succ fuel ih =>
    refine .check fun _ => .check fun _ => .ite (fun _ => .pure (List.forall_mem_nil _)) fun _ => .name fun name hname => ?_
    refine .expect fun _ => (gives_typeExpression fuel).bind fun type htype => .accept fun _ => .ite (fun _ => ?_) fun _ => ?_
    · exact ih.bind fun ps hps => .pure (List.forall_mem_cons.mpr ⟨⟨hname, htype⟩, hps⟩)
    · exact .pure (List.forall_mem_singleton.mpr ⟨hname, htype⟩)

/-- Workgroup sizes as the parser makes them. -/
def IsWorkgroup (e : Expr) : Prop :=
  Attr.Gathered { expr := e } ∧ Slot.AllSource (Slot.ofWorkgroup { expr := e })

theorem isWorkgroup_absent : IsWorkgroup .absent := ⟨⟨rfl, .inl rfl⟩, List.forall_mem_nil _⟩

theorem isWorkgroup_sizes {a : Attribute} {e : Expr} (ha : AllSourced a.args) (h : workgroupExpr a = .ok e) :
    IsWorkgroup e := by
  unfold workgroupExpr at h
  split at h
  · cases h
  · rename_i hcount
    cases h
    simp only [Bool.or_eq_true, List.isEmpty_iff, decide_eq_true_eq, not_or, Nat.not_lt] at hcount
    have hones : AllSourced (List.replicate (3 - a.args.length) (Expr.literal (untyped a.span) (.u32 1))) := by
      intro x hx
      rw [(List.mem_replicate.mp hx).2]
      exact Expr.sourced_literal rfl
    have hname : Lexer.isName "workgroup" := by decide
    refine ⟨⟨rfl, .inr ⟨_, _, _, rfl, ?_⟩⟩, List.forall_mem_singleton.mpr ⟨hname, ?_⟩⟩
    · rw [List.length_append, List.length_replicate]
      omega
    · exact List.forall_mem_append.mpr ⟨ha, hones⟩

/-- The sizes of a workgroup may be left out. -/
theorem Gives.workgroup {a : Option Attribute} {f : Expr → Parser β} {Q : β → Prop} (ha : ∀ b ∈ a, AllSourced b.args)
    (hf : ∀ e : Expr, IsWorkgroup e → Gives (f e) Q) :
    Gives (match a with
      | some a => liftM (workgroupExpr a) >>= f
      | none => Pure.pure Expr.absent >>= f) Q := by
  cases a with
  | none => exact hf _ isWorkgroup_absent
  | some b => exact .bind (.lift fun e he => isWorkgroup_sizes (ha b rfl) he) hf

theorem gives_functionDecl (fuel : Nat) {attrs : List Attribute} (hattrs : SourcedAttributes attrs) :
    Gives (functionDecl fuel attrs) Stmt.SourcedAtTop := by
  have hentry := hattrs.take "entry"
  have hearly := hentry.2.take "early_fragment_tests"
  have hdepth := hearly.2.take "depth_write"
  have hgroup := hdepth.2.take "workgroup"
  have hexport := hgroup.2.take "export"
  refine (gives_optionalArg hentry.1).bind fun stage hstage => ?_
  refine (gives_flag hearly.1).bind fun earlyTests hearlyTests => ?_
  refine (gives_optionalArg hdepth.1).bind fun depthWrite hdepthWrite => ?_
  refine .workgroup hgroup.1 fun workgroup hworkgroup => ?_
  refine (gives_flag hexport.1).bind fun exported hexported => ?_
  refine .bind (P := fun _ => True) (.lift fun _ _ => trivial) fun _ _ => .advance fun start => .name fun name hname => ?_
  refine .expect fun _ => (gives_parameters fuel).bind fun params hparams => .expect fun _ => .accept fun arrow => ?_
  refine .optional arrow (gives_typeExpression fuel) fun result hresult => ?_
  refine (givesStmts fuel).block.bind fun body hbody => .pure ⟨.function ?_ fun x hx => (hbody x hx).1, ?_⟩
  · exact ⟨rfl, hearlyTests.1, rfl, hworkgroup.1, hexported.1⟩
  · intro slots hslots
    simp only [Stmt.declarationParts, List.forall_mem_append, List.forall_mem_cons]
    have hhead := ((((source_given (α := Stage) "entry" [] (by decide) hstage).append
      hworkgroup.2).append (source_isRead "early_fragment_tests" (by decide) hearlyTests .nil)).append
      (source_given (α := DepthWrite) "depth_write" [] (by decide) hdepthWrite)).append
      (source_exported hexported)
    refine ⟨source_bracketed (hslots.append hhead), rfl, hname, rfl, ?_, rfl, Part.source_optional_type hresult,
      Part.source_braces (source_allParts hbody)⟩
    refine (Part.forall_separate (fun _ => rfl) _).mpr (List.forall_mem_map.mpr fun p hp => ?_)
    simp only [FnParam.parts, List.forall_mem_cons]
    exact ⟨(hparams p hp).1, rfl, (hparams p hp).2, List.forall_mem_nil _⟩

/-- A declaration of a module, under its condition if it has one. -/
def IsDeclaration (s : Stmt) : Prop := s.AtTop ∧ ∀ p ∈ s.declarationParts [], p.isSource

theorem gives_declaration (fuel : Nat) : Gives (declaration fuel) IsDeclaration := by
  refine (gives_attributes fuel).bind fun attrs hattrs => ?_
  have hcond := hattrs.take "cond"
  refine (gives_optionalArg hcond.1).bind fun cond hcondition => .peek fun tok _ => ?_
  have hclose (s : Stmt) (hs : s.SourcedAtTop) :
      Gives (pure (if cond.isPresent then .conditional s.span cond s else s)) IsDeclaration := by
    refine .pure ?_
    split
    · rename_i hpresent
      have hname : Lexer.isName "cond" := by decide
      refine ⟨.inr ⟨_, _, _, rfl, hs.1⟩, hs.2 _ (List.forall_mem_singleton.mpr ⟨hname, ?_⟩)⟩
      exact List.forall_mem_singleton.mpr (hcondition (by simpa [Expr.isPresent] using hpresent))
    · exact ⟨.inl hs.1, hs.2 [] (List.forall_mem_nil _)⟩
  dsimp only
  split
  · exact (gives_importDecl fuel _).bind hclose
  · exact (gives_optionDecl fuel _).bind hclose
  · exact (gives_constDecl fuel hcond.2).bind fun s hs => hclose s (sourced_const hs)
  · exact (gives_aliasDecl fuel hcond.2).bind hclose
  · exact (gives_structDecl fuel hcond.2).bind hclose
  · exact (gives_externalDecl fuel hcond.2).bind hclose
  · exact (gives_functionDecl fuel hcond.2).bind hclose
  · exact .throw _

theorem gives_declarations (fuel : Nat) : Gives (declarations fuel) fun ds => ∀ d ∈ ds, IsDeclaration d := by
  induction fuel with
  | zero => exact .throw _
  | succ fuel ih =>
    refine .check fun _ => .ite (fun _ => .pure (List.forall_mem_nil _)) fun _ => ?_
    exact (gives_declaration fuel).bind fun d hd => ih.bind fun ds hds => .pure (List.forall_mem_cons.mpr ⟨hd, hds⟩)

/-- A language version that is read can be written. -/
theorem languageVersion_lt {t : Text} {v : UInt32} (h : languageVersion? t = some v) : v.toNat < 100 * UInt16.size := by
  unfold languageVersion? at h
  simp only [Option.bind_eq_bind, Option.bind_eq_some_iff] at h
  obtain ⟨a, -, b, -, u, hguard, hv⟩ := h
  have hbounds := (Option.guard_eq_some' u).mp hguard
  simp only [Bool.and_eq_true, decide_eq_true_eq, UInt16.size] at hbounds
  cases hv
  have hle : (a * 100 + b).toUInt32.toNat ≤ a * 100 + b := Nat.mod_le _ _
  rw [UInt16.size]
  omega

/-- What the parser makes of a module's head. -/
def IsHead (m : Metadata) : Prop := m.version.toNat < 100 * UInt16.size ∧ (m.name ≠ [] → IsPath m.name)

theorem isHead_headAttribute {m m' : Metadata} {a : Attribute} (hm : IsHead m) (h : headAttribute m a = .ok m') :
    IsHead m' := by
  have hstring {f : Text → Metadata} (hf : ∀ s, (f s).version = m.version ∧ (f s).name = m.name)
      (h : (do return f (← a.stringArg)) = Except.ok m') : IsHead m' := by
    cases hs : a.stringArg with
    | error e =>
      rw [hs] at h
      cases h
    | ok s =>
      rw [hs] at h
      cases h
      rw [IsHead, (hf s).1, (hf s).2]
      exact hm
  unfold headAttribute at h
  split at h
  · cases hs : a.stringArg with
    | error e =>
      rw [hs] at h
      cases h
    | ok s =>
      rw [hs] at h
      dsimp only [bind, Except.bind] at h
      cases hv : languageVersion? s with
      | none =>
        rw [hv] at h
        cases h
      | some v =>
        rw [hv] at h
        cases h
        exact ⟨languageVersion_lt hv, hm.2⟩
  · split at h
    · exact hstring (f := fun s => { m with author := s }) (fun s => ⟨rfl, rfl⟩) h
    · split at h
      · exact hstring (f := fun s => { m with description := s }) (fun s => ⟨rfl, rfl⟩) h
      · split at h
        · exact hstring (f := fun s => { m with license := s }) (fun s => ⟨rfl, rfl⟩) h
        · cases h

theorem isHead_foldlM {as : List Attribute} {m m' : Metadata} (hm : IsHead m)
    (h : as.foldlM (m := Except ParseError) headAttribute m = .ok m') : IsHead m' := by
  induction as generalizing m with
  | nil =>
    cases h
    exact hm
  | cons a as ih =>
    rw [List.foldlM_cons] at h
    cases ha : headAttribute m a with
    | error e =>
      rw [ha] at h
      cases h
    | ok m₁ =>
      rw [ha] at h
      exact ih (isHead_headAttribute hm ha) h

theorem gives_moduleHead (fuel : Nat) : Gives (moduleHead fuel) IsHead := by
  refine (gives_attributes fuel).bind fun attrs _ => .expect fun _ => .check fun named => ?_
  have hversion : (100 : UInt32).toNat < 100 * UInt16.size := by decide
  have hclose (name : Text) (hname : name ≠ [] → IsPath name) :
      Gives (expect .semicolon >>= fun _ =>
        liftM (attrs.foldlM (m := Except ParseError) headAttribute { name })) IsHead :=
    .expect fun _ => .lift fun m hm => isHead_foldlM ⟨hversion, hname⟩ hm
  exact .ite (fun _ => (gives_dottedName fuel).bind fun name hname => hclose name fun _ => hname)
    fun _ => hclose [] fun h => absurd rfl h

theorem source_head {m : Metadata} (h : IsHead m) : ∀ p ∈ m.parts, p.isSource := by
  have hstrings : ∀ s ∈ m.strings, Lexer.isName s.1 := by
    have hversion : Lexer.isName "nzsl_version" := by decide
    refine List.forall_mem_cons.mpr ⟨hversion, fun s hs => ?_⟩
    have hnames : ∀ s ∈ [(("author" : Text), m.author), ("desc", m.description), ("license", m.license)],
        Lexer.isName s.1 := by
      simp only [List.forall_mem_cons]
      exact ⟨by decide, by decide, by decide, List.forall_mem_nil _⟩
    exact hnames s (List.mem_filter.mp hs).1
  simp only [Metadata.parts, List.forall_mem_cons, List.forall_mem_append]
  refine ⟨rfl, ?_, rfl, rfl, ?_, rfl, List.forall_mem_nil _⟩
  · refine (Part.forall_separate (fun _ => rfl) _).mpr (List.forall_mem_map.mpr fun s hs => ?_)
    simp only [List.forall_mem_cons]
    exact ⟨hstrings s hs, rfl, rfl, rfl, List.forall_mem_nil _⟩
  · split
    · exact List.forall_mem_nil _
    · rename_i hname
      exact List.forall_mem_singleton.mpr (h.2 (by simpa using hname))

theorem gives_moduleOf (fuel : Nat) : Gives (moduleOf fuel) fun m => m.Formed ∧ ∀ p ∈ m.parts, p.isSource := by
  refine (gives_moduleHead fuel).bind fun metadata hmetadata => .peek fun place _ => ?_
  refine (gives_declarations fuel).bind fun body hbody => .pure ⟨⟨⟨_, rfl, hmetadata.1⟩, ⟨_, rfl, ?_⟩⟩, ?_⟩
  · exact fun s hs => (hbody s hs).1
  · refine List.forall_mem_append.mpr ⟨source_head (m := { metadata with imports := _ }) hmetadata, fun p hp => ?_⟩
    obtain ⟨s, hs, hp⟩ := List.mem_flatMap.mp hp
    exact (hbody s hs).2 p hp

end Parser

/-- A module that is parsed is of the form that can be written, and all its parts have a text. -/
theorem Module.formed_parse {source : Text} {m : Module} (h : parse source = .ok m) :
    m.Formed ∧ ∀ p ∈ m.parts, p.isSource := by
  unfold parse at h
  cases hts : tokenize [] source with
  | error e =>
    rw [hts] at h
    cases h
  | ok ts =>
    rw [hts] at h
    change ofTokens ts = .ok m at h
    rw [ofTokens, StateT.run'] at h
    cases hrun : Parser.moduleOf (Parser.fuelFor ts) ts with
    | error e =>
      rw [hrun] at h
      cases h
    | ok r =>
      rw [hrun] at h
      cases h
      exact ((Parser.gives_moduleOf _).run (tokenize_named hts) hrun).2

end Shading
