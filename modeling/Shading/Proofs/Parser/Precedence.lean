import Shading.Parser.Expression
import Shading.Proofs.Parser.Expression
import Shading.Proofs.Parser.Stream

/-! The tree that the parser builds from operands with binary operators between them. What is read with a bound on the
recursion is read with every greater bound. -/
namespace Shading.Parser

variable {α β : Type}

/-- What one parser reads, another reads just as well. -/
structure Extends (p q : Parser α) : Prop where
  run : ∀ {ts us a}, p ts = .ok (a, us) → q ts = .ok (a, us)

namespace Extends

variable {p q r : Parser α} {f g : α → Parser β}

theorem refl (p : Parser α) : Extends p p := ⟨id⟩

theorem trans (hpq : Extends p q) (hqr : Extends q r) : Extends p r := ⟨fun h => hqr.run (hpq.run h)⟩

theorem throw (e : ParseError) : Extends (throwThe ParseError e) q := ⟨fun h => by cases h⟩

theorem bind (hp : Extends p q) (hf : ∀ a, Extends (f a) (g a)) : Extends (p >>= f) (q >>= g) := by
  refine ⟨fun h => ?_⟩
  obtain ⟨a, vs, ha, hb⟩ := bind_ok h
  rw [bind_of_ok (hp.run ha)]
  exact (hf a).run hb

/-- The same step before two parsers. -/
theorem step (hf : ∀ a, Extends (f a) (g a)) : Extends (p >>= f) (p >>= g) := (refl p).bind hf

theorem ite {c : Prop} [Decidable c] {p' q' : Parser α} (hp : Extends p q) (hp' : Extends p' q') :
    Extends (if c then p else p') (if c then q else q') := by
  split
  · exact hp
  · exact hp'

end Extends

/-- All that is read with a bound is read with the next bound. -/
structure Grows (fuel : Nat) : Prop where
  expression : Extends (expression fuel) (expression (fuel + 1))
  operators : ∀ bound lhs, Extends (operators fuel bound lhs) (operators (fuel + 1) bound lhs)
  unary : Extends (unary fuel) (unary (fuel + 1))
  postfixed : Extends (postfixed fuel) (postfixed (fuel + 1))
  postfixes : ∀ e, Extends (postfixes fuel e) (postfixes (fuel + 1) e)
  indexList : Extends (indexList fuel) (indexList (fuel + 1))
  arguments : Extends (arguments fuel) (arguments (fuel + 1))
  argumentList : Extends (argumentList fuel) (argumentList (fuel + 1))
  primary : Extends (primary fuel) (primary (fuel + 1))

section

variable {fuel : Nat} (ih : Grows fuel)
include ih

theorem expression_grows : Extends (expression (fuel + 1)) (expression (fuel + 2)) := by
  refine ih.unary.bind fun lhs => (ih.operators 0 lhs).bind fun cond => ?_
  refine .step fun more => .ite (.refl _) (.step fun _ => ?_)
  exact ih.expression.bind fun yes => .step fun _ => ih.expression.bind fun no => .refl _

theorem operators_grows (bound : Nat) (lhs : Expr) :
    Extends (operators (fuel + 1) bound lhs) (operators (fuel + 2) bound lhs) := by
  refine .step fun kind => ?_
  cases hop : binaryOp? kind with
  | none => exact .refl _
  | some x =>
    obtain ⟨level, op⟩ := x
    refine .ite (.refl _) (.step fun _ => ?_)
    refine ih.unary.bind fun operand => .step fun next => ?_
    have hrest (rhs : Expr) := ih.operators bound (.binary (untyped lhs.span) op lhs rhs)
    split
    · exact .ite ((ih.operators _ operand).bind fun rhs => hrest rhs) (hrest operand)
    · exact hrest operand

theorem unary_grows : Extends (unary (fuel + 1)) (unary (fuel + 2)) := by
  refine .step fun kind => ?_
  cases hop : unaryOp? kind with
  | none => exact ih.postfixed
  | some op => exact .step fun tok => ih.unary.bind fun operand => .refl _

theorem postfixes_grows (e : Expr) : Extends (postfixes (fuel + 1) e) (postfixes (fuel + 2) e) := by
  refine .step fun call => .ite ?_ (.step fun index => .ite ?_ (.step fun dot => .ite ?_ (.refl _)))
  · exact ih.arguments.bind fun args => ih.postfixes _
  · exact ih.indexList.bind fun indices => .step fun _ => ih.postfixes _
  · refine .step fun name => .step fun method => .ite ?_ (ih.postfixes _)
    exact ih.arguments.bind fun args => ih.postfixes _

theorem indexList_grows : Extends (indexList (fuel + 1)) (indexList (fuel + 2)) := by
  refine ih.expression.bind fun e => .step fun more => .ite ?_ (.refl _)
  exact ih.indexList.bind fun es => .refl _

theorem argumentList_grows : Extends (argumentList (fuel + 1)) (argumentList (fuel + 2)) := by
  refine .step fun _ => .step fun _ => .ite (.refl _) ?_
  refine ih.expression.bind fun e => .step fun more => .ite ?_ (.refl _)
  exact ih.argumentList.bind fun es => .refl _

theorem primary_grows : Extends (primary (fuel + 1)) (primary (fuel + 2)) := by
  refine .step fun tok => ?_
  split
  case h_5 => exact .step fun _ => .step fun _ => .ite (.step fun _ => ih.postfixed.bind fun arg => .refl _) (.refl _)
  case h_6 => exact .step fun _ => ih.expression.bind fun e => .refl _
  all_goals exact .refl _

end

theorem grows (fuel : Nat) : Grows fuel := by
  induction fuel with
  | zero =>
    exact ⟨.throw _, fun _ _ => .throw _, .throw _, .throw _, fun _ => .throw _, .throw _, .throw _, .throw _, .throw _⟩
  | succ fuel ih =>
    exact ⟨expression_grows ih, operators_grows ih, unary_grows ih, ih.primary.bind ih.postfixes, postfixes_grows ih,
      indexList_grows ih, .step fun _ => ih.argumentList.bind fun _ => .refl _, argumentList_grows ih, primary_grows ih⟩

theorem unary_of_le {small large : Nat} (h : small ≤ large) : Extends (unary small) (unary large) := by
  induction h with
  | refl => exact .refl _
  | step _ ih => exact ih.trans (grows _).unary

/-- The binary operators by how tightly they bind; those that bind least come first. -/
def precedence : List (List BinaryOp) :=
  [[.or], [.and], [.bitOr], [.bitXor], [.bitAnd], [.eq, .ne], [.lt, .le, .gt, .ge], [.shiftLeft, .shiftRight],
   [.add, .sub], [.mul, .div, .mod]]

/-- How tightly an operator binds, from one to ten. -/
def level (op : BinaryOp) : Nat := precedence.findIdx (fun ops => ops.elem op) + 1

theorem eq_level {k : TokenKind} {n : Nat} {op : BinaryOp} (h : binaryOp? k = some (n, op)) :
    n = level op := by
  cases k <;> cases h <;> rfl

theorem one_le_level (op : BinaryOp) : 1 ≤ level op := Nat.succ_le_succ (Nat.zero_le _)

/-- What a chain of operands and operators consists of. -/
inductive Item
  | operand (e : Expr)
  | operator (op : BinaryOp)

/-- Operators over operands. An operand in parentheses may have operators of its own, which do not count here. -/
inductive Tree
  | operand (e : Expr)
  | node (l : Tree) (op : BinaryOp) (r : Tree)

namespace Tree

/-- The tree as it is read from left to right. -/
def inorder : Tree → List Item
  | operand e => [.operand e]
  | node l op r => l.inorder ++ .operator op :: r.inorder

/-- The expression; an operation has the place of its left side. -/
def expr : Tree → Expr
  | operand e => e
  | node l op r => .binary (untyped l.expr.span) op l.expr r.expr

/-- The operator at the root. -/
def root? : Tree → Option BinaryOp
  | operand _ => none
  | node _ op _ => some op

/-- Every operator binds at most as tightly as the one at the root of its left side, and less tightly than the one at
the root of its right side. -/
def Grouped : Tree → Prop
  | operand _ => True
  | node l op r =>
    l.Grouped ∧ r.Grouped ∧ (∀ o ∈ l.root?, level op ≤ level o) ∧ ∀ o ∈ r.root?, level op < level o

section

variable {t u l r : Tree} {op : BinaryOp} {n : Nat}

/-- No operator of a tree binds less tightly than the one at its root. -/
theorem Grouped.le_level (ht : t.Grouped) (hroot : ∀ o ∈ t.root?, n ≤ level o) (hop : .operator op ∈ t.inorder) :
    n ≤ level op := by
  induction t generalizing n with
  | operand e => cases List.mem_singleton.mp hop
  | node l own r hl hr =>
    obtain ⟨hgl, hgr, hleft, hright⟩ := ht
    have hown : n ≤ level own := hroot own rfl
    rw [inorder, List.mem_append, List.mem_cons] at hop
    obtain hop | hop | hop := hop
    · exact hl hgl (fun o ho => hown.trans (hleft o ho)) hop
    · cases hop
      exact hown
    · exact hr hgr (fun o ho => hown.trans (hright o ho).le) hop

theorem Grouped.le_of_mem_left (h : (node l op r).Grouped) {o : BinaryOp} (ho : .operator o ∈ l.inorder) :
    level op ≤ level o := h.1.le_level h.2.2.1 ho

theorem Grouped.lt_of_mem_right (h : (node l op r).Grouped) {o : BinaryOp} (ho : .operator o ∈ r.inorder) :
    level op < level o := h.2.1.le_level (n := level op + 1) h.2.2.2 ho

theorem operand_of_inorder {e : Expr} (h : t.inorder = [.operand e]) : t = operand e := by
  cases t with
  | operand e' => cases h; rfl
  | node l op r =>
    have hop : Item.operator op ∈ (node l op r).inorder := List.mem_append_right _ (List.mem_cons_self ..)
    rw [h] at hop
    cases List.mem_singleton.mp hop

/-- Of two trees that read alike, the root of one does not come before the root of the other. -/
theorem Grouped.root_not_before {l' r' : Tree} {op' : BinaryOp} {between : List Item} (ht : (node l op r).Grouped)
    (hu : (node l' op' r').Grouped) (hleft : l'.inorder = l.inorder ++ .operator op :: between)
    (hright : r.inorder = between ++ .operator op' :: r'.inorder) : False := by
  have hlt : level op < level op' := by
    apply ht.lt_of_mem_right
    rw [hright]
    exact List.mem_append_right _ (List.mem_cons_self ..)
  have hle : level op' ≤ level op := by
    apply hu.le_of_mem_left
    rw [hleft]
    exact List.mem_append_right _ (List.mem_cons_self ..)
  omega

/-- A tree is known from how it reads. -/
theorem Grouped.eq_of_inorder (ht : t.Grouped) (hu : u.Grouped) (h : t.inorder = u.inorder) : t = u := by
  induction t generalizing u with
  | operand e => exact (operand_of_inorder h.symm).symm
  | node l op r hl hr =>
    cases u with
    | operand e => exact operand_of_inorder h
    | node l' op' r' =>
      obtain ⟨between, hleft, hrest⟩ | ⟨between, hleft, hrest⟩ := List.append_eq_append_iff.mp h
      all_goals rcases between with _ | ⟨i, between⟩
      case inl.nil =>
        obtain ⟨hop, hright⟩ := List.cons.inj hrest
        rw [hl ht.1 hu.1 (by rw [hleft, List.append_nil]), hr ht.2.1 hu.2.1 hright, Item.operator.inj hop]
      case inr.nil =>
        obtain ⟨hop, hright⟩ := List.cons.inj hrest
        rw [hl ht.1 hu.1 (by rw [hleft, List.append_nil]), hr ht.2.1 hu.2.1 hright.symm, Item.operator.inj hop]
      case inl.cons =>
        obtain ⟨rfl, hright⟩ := List.cons.inj hrest
        exact (ht.root_not_before hu hleft hright).elim
      case inr.cons =>
        obtain ⟨rfl, hright⟩ := List.cons.inj hrest
        exact (hu.root_not_before ht hleft hright).elim

end

end Tree

/-- Operators with an operand behind each, which is read with a bound on the recursion. What follows is no operator. -/
inductive Alternates (depth : Nat) (rest : List Token) : List Token → List (BinaryOp × Expr) → Prop
  | done (h : binaryOp? (headKind rest) = none) : Alternates depth rest rest []
  | step {t : Token} {ts us : List Token} {n : Nat} {op : BinaryOp} {e : Expr} {steps : List (BinaryOp × Expr)}
      (hop : binaryOp? t.kind = some (n, op)) (he : unary depth ts = .ok (e, us)) (h : Alternates depth rest us steps) :
      Alternates depth rest (t :: ts) ((op, e) :: steps)

/-- The chain as it is read from left to right. -/
def items (steps : List (BinaryOp × Expr)) : List Item := steps.flatMap fun s => [.operator s.1, .operand s.2]

/-- What is made of a chain behind a tree, when only operators are taken that bind tighter than a bound: a tree with a
part of the chain, and the rest of the chain. -/
structure Climbs (depth : Nat) (rest : List Token) (bound : Nat) (lhs : Tree) (steps : List (BinaryOp × Expr))
    (t : Tree) (left : List (BinaryOp × Expr)) (us : List Token) : Prop where
  grouped : t.Grouped
  root : ∀ o ∈ t.root?, bound < level o
  alternates : Alternates depth rest us left
  next : ∀ s ∈ left.head?, level s.1 ≤ bound
  shorter : left.length ≤ steps.length
  reading : t.inorder ++ items left = lhs.inorder ++ items steps

section

variable {depth fuel : Nat} {rest ts : List Token} {steps : List (BinaryOp × Expr)}

/-- By induction on the bound of the recursion. The operator that comes next never binds tighter than the one at the
root of what has been read, so that the tree stays grouped when it becomes a left side. -/
theorem operators_climbs (bound : Nat) (lhs : Tree) (h : Alternates depth rest ts steps)
    (hfuel : depth + steps.length < fuel) (hlhs : lhs.Grouped) (hroot : ∀ o ∈ lhs.root?, bound < level o)
    (hnext : ∀ s ∈ steps.head?, ∀ o ∈ lhs.root?, level s.1 ≤ level o) :
    ∃ t left us, operators fuel bound lhs.expr ts = .ok (t.expr, us) ∧
      Climbs depth rest bound lhs steps t left us := by
  induction fuel generalizing bound ts steps lhs with
  | zero => omega
  | succ fuel ih =>
    cases h with
    | done hnone =>
      refine ⟨lhs, [], rest, ?_, hlhs, hroot, .done hnone, nofun, le_rfl, rfl⟩
      exact operators_done (by omega) fun own op hop => by rw [hnone] at hop; cases hop
    | @step t ts us n op e steps hop he halt =>
      obtain rfl := eq_level hop
      by_cases hown : bound < level op
      · rw [List.length_cons] at hfuel
        obtain ⟨r, left, vs, hrun, hr⟩ := ih (level op) (.operand e) halt (by omega) trivial nofun nofun
        have hgrouped : (Tree.node lhs op r).Grouped :=
          ⟨hlhs, hr.grouped, fun o ho => hnext (op, e) rfl o ho, hr.root⟩
        obtain ⟨t', left', ws, hrun', ht⟩ := ih bound (.node lhs op r) hr.alternates
          (by have := hr.shorter; omega) hgrouped (fun o ho => by cases ho; exact hown)
          (fun s hs o ho => by cases ho; exact hr.next s hs)
        refine ⟨t', left', ws, ?_, ht.grouped, ht.root, ht.alternates, ht.next, ?_, ?_⟩
        · rw [operators_step (by omega) hop hown, bind_assoc, bind_of_ok ((unary_of_le (by omega)).run he)]
          exact (bind_of_ok hrun).trans hrun'
        · exact ht.shorter.trans (hr.shorter.trans (Nat.le_succ _))
        · rw [ht.reading, Tree.inorder, List.append_assoc, List.cons_append, hr.reading]
          rfl
      · refine ⟨lhs, (op, e) :: steps, t :: ts, ?_, hlhs, hroot, .step hop he halt, ?_, le_rfl, rfl⟩
        · refine operators_done (by omega) fun own op' hop' => ?_
          rw [headKind_cons, hop] at hop'
          cases hop'
          omega
        · rintro s hs
          cases hs
          exact Nat.not_lt.mp hown

/-- A chain of operands and operators is read as the one tree that reads like it and in which every operator has what
binds tighter than it, with operators that bind equally tightly grouped to the left; nothing else is passed. -/
theorem operators_tree {first : Expr} (h : Alternates depth rest ts steps) (hfuel : depth + steps.length < fuel) :
    ∃ t : Tree, t.Grouped ∧ t.inorder = .operand first :: items steps ∧
      (∀ u : Tree, u.Grouped → u.inorder = .operand first :: items steps → u = t) ∧
      operators fuel 0 first ts = .ok (t.expr, rest) := by
  obtain ⟨t, left, us, hrun, ht⟩ := operators_climbs 0 (.operand first) h hfuel trivial nofun nofun
  obtain rfl : left = [] := by
    cases left with
    | nil => rfl
    | cons s left => exact absurd (ht.next s rfl) (Nat.not_le.mpr (one_le_level s.1))
  cases ht.alternates
  have hreading : t.inorder = .operand first :: items steps := by
    rw [← List.append_nil t.inorder]
    exact ht.reading
  exact ⟨t, ht.grouped, hreading, fun u hu hu' => hu.eq_of_inorder ht.grouped (hu'.trans hreading.symm), hrun⟩

end

theorem operators_tree_product :
    ∃ b c : Expr, Alternates 3 [] [⟨.plus, [], {}⟩, ⟨.identifier, "b", {}⟩, ⟨.star, [], {}⟩, ⟨.identifier, "c", {}⟩]
        [(.add, b), (.mul, c)] ∧ 3 + 2 < 6 ∧
      ∃ t : Tree, t.Grouped ∧ t.inorder = .operand (.name {} "a") :: items [(.add, b), (.mul, c)] ∧
        (∀ u : Tree, u.Grouped → u.inorder = .operand (.name {} "a") :: items [(.add, b), (.mul, c)] → u = t) ∧
        operators 6 0 (.name {} "a")
          [⟨.plus, [], {}⟩, ⟨.identifier, "b", {}⟩, ⟨.star, [], {}⟩, ⟨.identifier, "c", {}⟩] = .ok (t.expr, []) := by
  have h : Alternates 3 [] [⟨.plus, [], {}⟩, ⟨.identifier, "b", {}⟩, ⟨.star, [], {}⟩, ⟨.identifier, "c", {}⟩]
      [(.add, .name (untyped {}) "b"), (.mul, .name (untyped {}) "c")] :=
    .step rfl rfl (.step rfl rfl (.done rfl))
  exact ⟨_, _, h, by decide, operators_tree h (by decide)⟩

end Shading.Parser
