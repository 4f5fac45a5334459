import Shading.Proofs.Canonical.Lexemes
import Shading.Proofs.Decimal.Reading
import Shading.Proofs.Parser.Stream

/-! The lexemes of an expression are parsed into the expression. -/
namespace Shading

namespace Expr

@[simp] theorem isIndex_unplaced (e : Expr) : e.unplaced.isIndex = e.isIndex := by
  cases e <;> simp only [unplaced, isIndex]

@[simp] theorem isMember_unplaced (e : Expr) : e.unplaced.isMember = e.isMember := by
  cases e <;> simp only [unplaced, isMember]

end Expr

namespace Parser

open Canonical (lexemes separatedLexemes bracketLexemes memberLexemes postfixLevel unaryLevel)

/-- Does a call, an index or a member go on with a token of the kind? -/
def continues (k : TokenKind) : Bool := [.leftParen, .leftBracket, .dot].elem k

/-- Where an expression in a context of a level may end: nothing goes on with its last operand, and an
operator that follows binds no tighter than the context. -/
structure Ends (level : Nat) (e : Expr) (rest : List Token) : Prop where
  operand : continues (headKind rest) = false
  operator : ∀ own op, binaryOp? (headKind rest) = some (own, op) → own ≤ level
  generic : e.endsGeneric level → headKind rest ≠ .less

/-- An operand with what follows it goes on with what follows the expression's lexemes. -/
def BaseReparses (e : Expr) : Prop :=
  ∀ ⦃ts : List Token⦄ (rest : List Token) ⦃need fuel : Nat⦄, Spelled ts (lexemes postfixLevel e) →
    (e.isMember → headKind rest ≠ .leftParen) → (e.endsGeneric postfixLevel → headKind rest ≠ .less) →
    need + 8 * ts.length ≤ fuel →
    ∃ e' fuel', e'.unplaced = e.unplaced ∧ need ≤ fuel' ∧
      (primary fuel >>= postfixes fuel) (ts ++ rest) = postfixes fuel' e' rest

def UnaryReparses (e : Expr) : Prop :=
  ∀ ⦃ts rest : List Token⦄ ⦃fuel : Nat⦄, Spelled ts (lexemes unaryLevel e) →
    Ends unaryLevel e rest → 8 * ts.length + 3 ≤ fuel →
    ∃ e', e'.unplaced = e.unplaced ∧ unary fuel (ts ++ rest) = .ok (e', rest)

/-- Operators above a bound go on with what follows the lexemes of an operand of a level. -/
def ChainReparses (level : Nat) (e : Expr) : Prop :=
  ∀ ⦃bound need fuel : Nat⦄ ⦃ts rest : List Token⦄, bound < level →
    Spelled ts (lexemes level e) → Ends level e rest → need + 8 * ts.length + 4 ≤ fuel →
    ∃ e' fuel', e'.unplaced = e.unplaced ∧ need ≤ fuel' ∧
      (unary fuel >>= operators fuel bound) (ts ++ rest) = operators fuel' bound e' rest

def ExpressionReparses (e : Expr) : Prop :=
  ∀ ⦃ts rest : List Token⦄ ⦃fuel : Nat⦄, Spelled ts (lexemes 0 e) → Ends 0 e rest →
    headKind rest ≠ .question → 8 * ts.length + 6 ≤ fuel →
    ∃ e', e'.unplaced = e.unplaced ∧ expression fuel (ts ++ rest) = .ok (e', rest)

/-- Parsing the lexemes of an expression gives the expression, up to places, at every level of the
grammar. The number that bounds the recursion goes down with the tokens that are passed. -/
structure Reparses (e : Expr) : Prop where
  base : BaseReparses e
  unary : UnaryReparses e
  chain : ∀ level ≤ unaryLevel, ChainReparses level e
  expression : ExpressionReparses e

section

variable {e : Expr} {ts rest : List Token} {fuel bound : Nat}

/-- Nothing is parsed any more if no call, index or member follows. -/
theorem postfixes_done (hf : 1 ≤ fuel) (h : continues (headKind rest) = false) :
    postfixes fuel e rest = .ok (e, rest) := by
  obtain ⟨fuel, rfl⟩ : ∃ k, fuel = k + 1 := ⟨fuel - 1, by omega⟩
  simp only [continues, List.elem_eq_mem, List.mem_cons, List.not_mem_nil, or_false,
    decide_eq_false_iff_not, not_or] at h
  rw [postfixes, bind_of_ok (check_run _ _), beq_eq_false_iff_ne.mpr h.1]
  simp only [Bool.false_eq_true, if_false]
  rw [bind_of_ok (accept_of_ne h.2.1)]
  simp only [Bool.false_eq_true, if_false]
  rw [bind_of_ok (accept_of_ne h.2.2)]
  rfl

/-- No operator is taken that binds no tighter than the bound. -/
theorem operators_done (hf : 1 ≤ fuel)
    (h : ∀ own op, binaryOp? (headKind rest) = some (own, op) → own ≤ bound) :
    operators fuel bound e rest = .ok (e, rest) := by
  obtain ⟨fuel, rfl⟩ : ∃ k, fuel = k + 1 := ⟨fuel - 1, by omega⟩
  rw [operators, bind_of_ok (peekKind_run _)]
  cases hop : binaryOp? (headKind rest) with
  | none => rfl
  | some p =>
    simp only [if_pos (h p.1 p.2 hop)]
    rfl

/-- An operator takes an operand with what binds tighter than it, and goes on. -/
theorem operators_step {t : Token} {own : Nat} {op : BinaryOp} (hf : 1 ≤ fuel)
    (hop : binaryOp? t.kind = some (own, op)) (hown : bound < own) (ts : List Token) :
    operators (fuel + 1) bound e (t :: ts) =
      ((unary fuel >>= operators fuel own) >>= fun r =>
        operators fuel bound (.binary (untyped e.span) op e r)) ts := by
  have hkind : t.kind ≠ .endOfFile := by
    intro h
    rw [h] at hop
    cases hop
  rw [operators, bind_of_ok (peekKind_run _), headKind_cons, hop]
  simp only [if_neg (Nat.not_le.mpr hown)]
  rw [bind_of_ok (advance_run hkind), bind_assoc]
  cases hu : unary fuel ts with
  | error err => rw [bind_of_error hu, bind_of_error hu]
  | ok r =>
    obtain ⟨operand, us⟩ := r
    rw [bind_of_ok hu, bind_of_ok hu, bind_of_ok (peekKind_run _)]
    cases hnext : binaryOp? (headKind us) with
    | none =>
      have hdone : operators fuel own operand us = .ok (operand, us) :=
        operators_done hf fun own' op' h => by rw [hnext] at h; cases h
      rw [bind_of_ok hdone]
      rfl
    | some p =>
      simp only
      by_cases hlt : own < p.1
      · rw [if_pos hlt]
      · have hdone : operators fuel own operand us = .ok (operand, us) :=
          operators_done hf fun own' op' h => by rw [hnext] at h; cases h; omega
        rw [if_neg hlt, bind_of_ok hdone]
        rfl

end

/-- A token that starts an operand is no sign. -/
theorem unaryOp_of_startsOperand {k : TokenKind} (h : Canonical.startsOperand k) : unaryOp? k = none := by
  cases k <;> first
    | rfl
    | cases h

/-- An expression may end in front of a token that is no part of an expression. -/
theorem Ends.of_kind {e : Expr} {level : Nat} {rest : List Token} (hc : continues (headKind rest) = false)
    (ho : binaryOp? (headKind rest) = none) : Ends level e rest := by
  refine ⟨hc, fun own op h => ?_, fun _ h => ?_⟩
  · rw [ho] at h
    cases h
  · rw [h] at ho
    cases ho

theorem primary_parens {e : Expr} {ts : List Token} {fuel : Nat} (he : ExpressionReparses e)
    (rest : List Token) (hts : Spelled ts (Canonical.wrapped true (lexemes 0 e))) (hf : 8 * ts.length ≤ fuel) :
    ∃ e', e'.unplaced = e.unplaced ∧ primary fuel (ts ++ rest) = .ok (e', rest) := by
  have hlen := hts.length_eq
  rw [Canonical.wrapped, if_pos rfl] at hts
  obtain ⟨opening, us, rfl, hopen, hus⟩ := hts.lexeme
  obtain ⟨inner, closing, rfl, hinner, hclosing⟩ := hus.append
  obtain ⟨close, vs, rfl, hkind, hvs⟩ := hclosing.lexeme
  obtain rfl := hvs.nil
  obtain ⟨fuel, rfl⟩ : ∃ k, fuel = k + 1 := ⟨fuel - 1, by simp at hf; omega⟩
  have hhead : headKind ([close] ++ rest) = .rightParen := hkind
  have hends : Ends 0 e ([close] ++ rest) := .of_kind (by rw [hhead]; rfl) (by rw [hhead]; rfl)
  obtain ⟨e', he', hrun⟩ : ∃ e', e'.unplaced = e.unplaced ∧
      expression fuel (inner ++ ([close] ++ rest)) = .ok (e', [close] ++ rest) :=
    he hinner hends (by rw [hhead]; decide) (by simp at hf; omega)
  refine ⟨e', he', ?_⟩
  rw [List.cons_append, primary, bind_of_ok (peek_run _ _)]
  simp only [hopen]
  rw [bind_of_ok (advance_run (by rw [hopen]; decide)), List.append_assoc, bind_of_ok hrun,
    List.singleton_append, bind_of_ok (expect_of_eq hkind (by decide))]
  rfl

/-- What ends with an expression may end where that expression does. -/
theorem Ends.mono {e e' : Expr} {level level' : Nat} {rest : List Token} (h : Ends level e rest)
    (hle : level ≤ level') (hgeneric : e'.endsGeneric level' → e.endsGeneric level) :
    Ends level' e' rest :=
  ⟨h.operand, fun own op hop => Nat.le_trans (h.operator own op hop) hle,
    fun hg => h.generic (hgeneric hg)⟩

section

variable {e : Expr}

theorem BaseReparses.of_parens (he : ExpressionReparses e)
    (hlex : lexemes postfixLevel e = Canonical.wrapped true (lexemes 0 e)) : BaseReparses e := by
  intro ts rest need fuel hts _ _ hf
  rw [hlex] at hts
  obtain ⟨e', he', hrun⟩ := primary_parens he rest hts (by omega : 8 * ts.length ≤ fuel)
  exact ⟨e', fuel, he', by omega, bind_of_ok hrun⟩

theorem UnaryReparses.of_base (hb : BaseReparses e) (hsource : e.isSource)
    (hlex : lexemes unaryLevel e = lexemes postfixLevel e)
    (hgeneric : e.endsGeneric postfixLevel → e.endsGeneric unaryLevel) : UnaryReparses e := by
  intro ts rest fuel hts hends hf
  rw [hlex] at hts
  obtain ⟨fuel, rfl⟩ : ∃ k, fuel = k + 2 := ⟨fuel - 2, by omega⟩
  have hop := hends.operand
  obtain ⟨e', fuel', he', hneed, hrun⟩ := hb rest hts
    (fun _ h => by rw [h] at hop; cases hop) (fun hg => hends.generic (hgeneric hg))
    (by omega : 1 + 8 * ts.length ≤ fuel)
  obtain ⟨k, ks, hk, hstart⟩ := Canonical.lexemes_startsOperand e hsource
  have hhead : unaryOp? (headKind (ts ++ rest)) = none := by
    rw [hk] at hts
    obtain ⟨t, us, rfl, hkind, -⟩ := hts.cons
    rw [List.cons_append, headKind_cons, hkind]
    exact unaryOp_of_startsOperand hstart
  refine ⟨e', he', ?_⟩
  rw [Parser.unary, bind_of_ok (peekKind_run _), hhead]
  change (primary fuel >>= postfixes fuel) (ts ++ rest) = _
  rw [hrun, postfixes_done hneed hop]

theorem ChainReparses.of_unary {level : Nat} (hu : UnaryReparses e) (hle : level ≤ unaryLevel)
    (hlex : lexemes level e = lexemes unaryLevel e)
    (hgeneric : e.endsGeneric unaryLevel → e.endsGeneric level) : ChainReparses level e := by
  intro bound need fuel ts rest _ hts hends hf
  rw [hlex] at hts
  obtain ⟨e', he', hrun⟩ := hu hts (hends.mono hle hgeneric) (by omega : 8 * ts.length + 3 ≤ fuel)
  exact ⟨e', fuel, he', by omega, bind_of_ok hrun⟩

/-- A condition or an expression as a whole, up to the question mark. -/
theorem ChainReparses.operators {level : Nat} (hc : ChainReparses level e) (hpos : 0 < level)
    {ts rest : List Token} {fuel : Nat} (hts : Spelled ts (lexemes level e)) (hends : Ends level e rest)
    (hop : binaryOp? (headKind rest) = none) (hf : 8 * ts.length + 5 ≤ fuel) :
    ∃ e', e'.unplaced = e.unplaced ∧
      (Parser.unary fuel >>= Parser.operators fuel 0) (ts ++ rest) = .ok (e', rest) := by
  obtain ⟨e', fuel', he', hneed, hrun⟩ := hc hpos hts hends (by omega : 1 + 8 * ts.length + 4 ≤ fuel)
  refine ⟨e', he', ?_⟩
  rw [hrun, operators_done hneed fun own op h => by rw [hop] at h; cases h]

theorem one_le_of_binaryOp {k : TokenKind} {own : Nat} {op : BinaryOp}
    (h : binaryOp? k = some (own, op)) : 1 ≤ own := by
  cases k <;> first
    | (cases h; decide)
    | cases h

theorem Ends.binaryOp_eq_none {rest : List Token} (h : Ends 0 e rest) :
    binaryOp? (headKind rest) = none := by
  cases hop : binaryOp? (headKind rest) with
  | none => rfl
  | some p =>
    have hle := h.operator p.1 p.2 hop
    have hge := one_le_of_binaryOp hop
    omega

/-- An expression as a whole, where it is written as in a context of operators. -/
theorem ChainReparses.expression {level : Nat} (hc : ChainReparses level e) (hpos : 0 < level) {ts rest : List Token}
    {fuel : Nat} (hts : Spelled ts (lexemes level e)) (hends : Ends level e rest)
    (hop : binaryOp? (headKind rest) = none) (hquestion : headKind rest ≠ .question) (hf : 8 * ts.length + 6 ≤ fuel) :
    ∃ e', e'.unplaced = e.unplaced ∧ Parser.expression fuel (ts ++ rest) = .ok (e', rest) := by
  obtain ⟨fuel, rfl⟩ : ∃ k, fuel = k + 1 := ⟨fuel - 1, by omega⟩
  obtain ⟨e', he', hrun⟩ := hc.operators hpos hts hends hop (by omega : 8 * ts.length + 5 ≤ fuel)
  refine ⟨e', he', ?_⟩
  rw [Parser.expression, ← bind_assoc, bind_of_ok hrun, bind_of_ok (check_run _ _),
    beq_eq_false_iff_ne.mpr hquestion]
  rfl

theorem ExpressionReparses.of_chain (hc : ChainReparses 1 e) (hlex : lexemes 0 e = lexemes 1 e)
    (hgeneric : e.endsGeneric 1 → e.endsGeneric 0) : ExpressionReparses e := by
  intro ts rest fuel hts hends hquestion hf
  rw [hlex] at hts
  exact hc.expression (by decide) hts (hends.mono (by decide) hgeneric) hends.binaryOp_eq_none hquestion hf

/-- An expression that is written alike at all levels. -/
theorem Reparses.of_base (hb : BaseReparses e) (hsource : e.isSource)
    (hlex : ∀ level, lexemes level e = lexemes postfixLevel e)
    (hgeneric : ∀ level, e.endsGeneric level = e.endsGeneric postfixLevel) : Reparses e := by
  have hu : UnaryReparses e :=
    UnaryReparses.of_base hb hsource (hlex _) fun h => by rwa [hgeneric unaryLevel]
  have hc : ∀ level ≤ unaryLevel, ChainReparses level e := fun level hle =>
    ChainReparses.of_unary hu hle (by rw [hlex, hlex unaryLevel])
      fun h => by rwa [hgeneric, ← hgeneric unaryLevel]
  exact ⟨hb, hu, hc, ExpressionReparses.of_chain (hc 1 (by decide)) (by rw [hlex, hlex 1])
    fun h => by rwa [hgeneric, ← hgeneric 1]⟩

end

/-- The information of an expression without a type, places apart. -/
theorem unplaced_untyped {i : ExprInfo} (h : i.type.isUnknown) (s : Span) :
    (untyped s).unplaced = i.unplaced := by
  obtain ⟨span, type⟩ := i
  cases type <;> first
    | rfl
    | cases h

section

variable {i : ExprInfo}

theorem reparses_name {n : Text} (h : (Expr.name i n).isSource) : Reparses (.name i n) := by
  refine .of_base ?_ h (fun level => by rw [lexemes, lexemes]) (fun level => rfl)
  intro ts rest need fuel hts _ hgeneric hf
  simp only [Expr.isSource, Bool.and_eq_true] at h
  rw [lexemes] at hts
  obtain ⟨t, us, rfl, hkind, hlexeme, hus⟩ := hts.cons
  obtain rfl := hus.nil
  simp only at hkind hlexeme
  obtain ⟨fuel, rfl⟩ : ∃ k, fuel = k + 1 := ⟨fuel - 1, by simp at hf; omega⟩
  refine ⟨.name (untyped t.span) t.lexeme, fuel + 1, ?_, by simp at hf; omega, ?_⟩
  · rw [Expr.unplaced, Expr.unplaced, unplaced_untyped h.1, hlexeme]
  · have hplain : ((headKind rest == .less) && genericNames.elem t.lexeme) = false := by
      cases hg : genericNames.elem t.lexeme with
      | false => rw [Bool.and_false]
      | true =>
        rw [hlexeme] at hg
        rw [beq_eq_false_iff_ne.mpr (hgeneric hg), Bool.false_and]
    refine bind_of_ok ?_
    rw [List.singleton_append, primary, bind_of_ok (peek_run _ _)]
    simp only [hkind]
    rw [bind_of_ok (advance_run (by rw [hkind]; decide)), bind_of_ok (check_run _ _)]
    simp only [hplain, Bool.false_eq_true, if_false]
    rfl

theorem advance_literal {v : Value} {t : Token} (h : t.kind = v.kind) (ts : List Token) :
    advance (t :: ts) = .ok (t, ts) := by
  refine advance_run ?_
  rw [h]
  cases v with
  | bool b => cases b <;> decide
  | _ => intro heq; cases heq

theorem primary_literal {v : Value} (hv : v.isLiteral) (hx : ∀ x, v = .f32 x → x.ReadsBack) {t : Token}
    (hkind : t.kind = v.kind) (hlexeme : t.lexeme = v.text) (fuel : Nat) (rest : List Token) :
    primary (fuel + 1) (t :: rest) = .ok (.literal (untyped t.span) v, rest) := by
  rw [primary, bind_of_ok (peek_run _ _)]
  cases v with
  | bool b =>
    cases b with
    | true =>
      simp only [hkind, Value.kind]
      rw [bind_of_ok (advance_literal hkind _)]
      rfl
    | false =>
      simp only [hkind, Value.kind]
      rw [bind_of_ok (advance_literal hkind _)]
      rfl
  | i32 n =>
    simp only [hkind, Value.kind]
    rw [bind_of_ok (advance_literal hkind _), hlexeme, Literal.int_i32 (of_decide_eq_true hv)]
    rfl
  | u32 n =>
    simp only [hkind, Value.kind]
    rw [bind_of_ok (advance_literal hkind _), hlexeme, Literal.int_u32]
    rfl
  | f32 x =>
    simp only [hkind, Value.kind]
    rw [bind_of_ok (advance_literal hkind _), hlexeme, Literal.float_text hv (hx x rfl)]
    rfl
  | _ => cases hv

theorem reparses_literal {v : Value} (h : (Expr.literal i v).isSource) (hx : ∀ x, v = .f32 x → x.ReadsBack) :
    Reparses (.literal i v) := by
  refine .of_base ?_ h (fun level => by rw [lexemes, lexemes]) (fun level => rfl)
  intro ts rest need fuel hts _ _ hf
  simp only [Expr.isSource, Bool.and_eq_true] at h
  rw [lexemes] at hts
  obtain ⟨t, us, rfl, hkind, hlexeme, hus⟩ := hts.cons
  obtain rfl := hus.nil
  obtain ⟨fuel, rfl⟩ : ∃ k, fuel = k + 1 := ⟨fuel - 1, by simp at hf; omega⟩
  refine ⟨.literal (untyped t.span) v, fuel + 1, ?_, by simp at hf; omega, ?_⟩
  · rw [Expr.unplaced, Expr.unplaced, unplaced_untyped h.1]
  · exact bind_of_ok (primary_literal h.2 hx hkind hlexeme fuel rest)

end

section

variable {es : List Expr} {ts rest : List Token} {fuel : Nat}

theorem startsExpr_ne {k : TokenKind} (h : Canonical.startsExpr k) : k ≠ .rightParen ∧ k ≠ .endOfFile := by
  constructor <;> (rintro rfl; cases h)

/-- Arguments up to the parenthesis that closes them. -/
theorem argumentList_reparses (hes : ∀ e ∈ es, e.isSource ∧ Reparses e)
    (hts : Spelled ts (separatedLexemes es)) (hrest : headKind rest = .rightParen)
    (hf : 8 * ts.length + 7 ≤ fuel) :
    ∃ es', Expr.unplacedList es' = Expr.unplacedList es ∧
      argumentList fuel (ts ++ rest) = .ok (es', rest) := by
  induction es generalizing ts fuel with
  | nil =>
    rw [separatedLexemes] at hts
    obtain rfl := hts.nil
    obtain ⟨fuel, rfl⟩ : ∃ k, fuel = k + 1 := ⟨fuel - 1, by omega⟩
    refine ⟨[], rfl, ?_⟩
    rw [List.nil_append, argumentList, bind_of_ok (check_run _ _), bind_of_ok (check_run _ _), hrest]
    rfl
  | cons e es ih =>
    obtain ⟨fuel, rfl⟩ : ∃ k, fuel = k + 1 := ⟨fuel - 1, by omega⟩
    obtain ⟨hsource, he⟩ := hes e (by simp)
    have hstart : ∀ {us vs : List Token}, Spelled us (lexemes 0 e) →
        (headKind (us ++ vs) == .rightParen || headKind (us ++ vs) == .endOfFile) = false := by
      intro us vs hus
      obtain ⟨k, ks, hk, hs⟩ := Canonical.lexemes_start e hsource 0
      rw [hk] at hus
      obtain ⟨t, us, rfl, hkind, -⟩ := hus.cons
      rw [List.cons_append, headKind_cons, hkind]
      simpa using startsExpr_ne hs
    cases es with
    | nil =>
      rw [separatedLexemes] at hts
      obtain ⟨e', he', hrun⟩ := he.expression hts (.of_kind (by rw [hrest]; rfl) (by rw [hrest]; rfl))
        (by rw [hrest]; decide) (by omega : 8 * ts.length + 6 ≤ fuel)
      refine ⟨[e'], by simp only [Expr.unplacedList, he'], ?_⟩
      rw [argumentList, bind_of_ok (check_run _ _), bind_of_ok (check_run _ _)]
      simp only [hstart hts, Bool.false_eq_true, if_false]
      rw [bind_of_ok hrun, bind_of_ok (accept_of_ne (by rw [hrest]; decide))]
      rfl
    | cons e₂ es =>
      rw [separatedLexemes] at hts
      obtain ⟨us, vs, rfl, hus, hvs⟩ := hts.append
      obtain ⟨comma, ws, rfl, hcomma, hws⟩ := hvs.lexeme
      simp only [List.length_append, List.length_cons] at hf
      obtain ⟨es', hes', hrun'⟩ := ih (fun x hx => hes x (by simp [hx])) hws
        (by omega : 8 * ws.length + 7 ≤ fuel)
      have hhead : headKind (comma :: ws ++ rest) = .comma := hcomma
      obtain ⟨e', he', hrun⟩ := he.expression hus
        (.of_kind (by rw [hhead]; rfl) (by rw [hhead]; rfl)) (by rw [hhead]; decide)
        (by omega : 8 * us.length + 6 ≤ fuel)
      refine ⟨e' :: es', by simp only [Expr.unplacedList, he', hes'], ?_⟩
      rw [List.append_assoc, argumentList, bind_of_ok (check_run _ _), bind_of_ok (check_run _ _)]
      simp only [hstart hus, Bool.false_eq_true, if_false]
      rw [bind_of_ok hrun, List.cons_append, bind_of_ok (accept_of_eq hcomma (by decide))]
      simp only [if_true]
      rw [bind_of_ok hrun']
      rfl

theorem arguments_reparses (rest : List Token) (hes : ∀ e ∈ es, e.isSource ∧ Reparses e)
    (hts : Spelled ts (TokenKind.lexeme .leftParen ::
      (separatedLexemes es ++ [TokenKind.lexeme .rightParen])))
    (hf : 8 * ts.length ≤ fuel + 4) :
    ∃ es', Expr.unplacedList es' = Expr.unplacedList es ∧
      arguments fuel (ts ++ rest) = .ok (es', rest) := by
  obtain ⟨opening, us, rfl, hopen, hus⟩ := hts.lexeme
  obtain ⟨inner, closing, rfl, hinner, hclosing⟩ := hus.append
  obtain ⟨close, vs, rfl, hclose, hvs⟩ := hclosing.lexeme
  obtain rfl := hvs.nil
  simp only [List.length_append, List.length_cons] at hf
  obtain ⟨fuel, rfl⟩ : ∃ k, fuel = k + 1 := ⟨fuel - 1, by omega⟩
  obtain ⟨es', hes', hrun⟩ := argumentList_reparses hes hinner
    (show headKind ([close] ++ rest) = .rightParen from hclose) (by omega : 8 * inner.length + 7 ≤ fuel)
  refine ⟨es', hes', ?_⟩
  rw [List.cons_append, arguments, bind_of_ok (expect_of_eq hopen (by decide)), List.append_assoc,
    bind_of_ok hrun, List.singleton_append, bind_of_ok (expect_of_eq hclose (by decide))]
  rfl

/-- Indices up to the bracket that closes them. -/
theorem indexList_reparses (hne : es ≠ []) (hes : ∀ e ∈ es, e.isSource ∧ Reparses e)
    (hts : Spelled ts (separatedLexemes es)) (hrest : headKind rest = .rightBracket)
    (hf : 8 * ts.length + 7 ≤ fuel) :
    ∃ es', Expr.unplacedList es' = Expr.unplacedList es ∧
      indexList fuel (ts ++ rest) = .ok (es', rest) := by
  induction es generalizing ts fuel with
  | nil => exact absurd rfl hne
  | cons e es ih =>
    obtain ⟨fuel, rfl⟩ : ∃ k, fuel = k + 1 := ⟨fuel - 1, by omega⟩
    obtain ⟨-, he⟩ := hes e (by simp)
    cases es with
    | nil =>
      rw [separatedLexemes] at hts
      obtain ⟨e', he', hrun⟩ := he.expression hts (.of_kind (by rw [hrest]; rfl) (by rw [hrest]; rfl))
        (by rw [hrest]; decide) (by omega : 8 * ts.length + 6 ≤ fuel)
      refine ⟨[e'], by simp only [Expr.unplacedList, he'], ?_⟩
      rw [indexList, bind_of_ok hrun, bind_of_ok (accept_of_ne (by rw [hrest]; decide))]
      rfl
    | cons e₂ es =>
      rw [separatedLexemes] at hts
      obtain ⟨us, vs, rfl, hus, hvs⟩ := hts.append
      obtain ⟨comma, ws, rfl, hcomma, hws⟩ := hvs.lexeme
      simp only [List.length_append, List.length_cons] at hf
      obtain ⟨es', hes', hrun'⟩ := ih (by simp) (fun x hx => hes x (by simp [hx])) hws
        (by omega : 8 * ws.length + 7 ≤ fuel)
      have hhead : headKind (comma :: ws ++ rest) = .comma := hcomma
      obtain ⟨e', he', hrun⟩ := he.expression hus
        (.of_kind (by rw [hhead]; rfl) (by rw [hhead]; rfl)) (by rw [hhead]; decide)
        (by omega : 8 * us.length + 6 ≤ fuel)
      refine ⟨e' :: es', by simp only [Expr.unplacedList, he', hes'], ?_⟩
      rw [List.append_assoc, indexList, bind_of_ok hrun, List.cons_append,
        bind_of_ok (accept_of_eq hcomma (by decide))]
      simp only [if_true]
      rw [bind_of_ok hrun']
      rfl

end

end Parser

end Shading
