import Shading.Proofs.Canonical.Declaration
import Shading.Proofs.Canonical.Expression

/-! Parsers that read what has been written part by part. What each of them does is said for all tokens that may
follow its parts, so that the parsers of expressions, types and attributes combine to those of statements. -/
namespace Shading

namespace Expr

/-- An expression that was read from the tokens of another one. -/
def Reread (e' e : Expr) : Prop := e'.unplaced = e.methods.unplaced

def RereadAll (es' es : List Expr) : Prop := unplacedList es' = unplacedList (methodsList es)

theorem Reread.expr {e' e : Expr} (h : Reread e' e) (n : Canonical.Names) (level : Nat) :
    Canonical.expr n level e' = Canonical.expr n level e := by
  rw [← Canonical.expr_unplaced, h, Canonical.expr_unplaced, Canonical.expr_methods]

theorem RereadAll.exprs {es' es : List Expr} (h : RereadAll es' es) (n : Canonical.Names) :
    Canonical.exprs n es' = Canonical.exprs n es := by
  rw [← Canonical.exprs_unplaced, h, Canonical.exprs_unplaced, Canonical.exprs_methods]

theorem isAbsent_unplaced (e : Expr) : e.unplaced.isAbsent = e.isAbsent := by
  cases e <;> simp only [unplaced, isAbsent]

theorem isAbsent_methods (e : Expr) : e.methods.isAbsent = e.isAbsent := by
  cases e with
  | call => exact called_eq_false (fun _ _ _ => rfl) (fun _ _ _ _ => rfl) _ _ _
  | _ => rfl

theorem Reread.isAbsent {e' e : Expr} (h : Reread e' e) : e'.isAbsent = e.isAbsent := by
  rw [← isAbsent_unplaced, h, isAbsent_unplaced, isAbsent_methods]

theorem reread_absent {e : Expr} (h : e.isAbsent) : Reread .absent e := by
  cases e <;> first
    | rfl
    | cases h

theorem length_unplacedList (es : List Expr) : (unplacedList es).length = es.length := by
  rw [unplacedList_eq_map, List.length_map]

theorem length_methodsList (es : List Expr) : (methodsList es).length = es.length := by
  induction es with
  | nil => rfl
  | cons e es ih => rw [methodsList, List.length_cons, ih, List.length_cons]

theorem RereadAll.length {es' es : List Expr} (h : RereadAll es' es) : es'.length = es.length := by
  rw [← length_unplacedList, h, length_unplacedList, length_methodsList]

theorem isOperand_methods (e : Expr) : e.methods.isOperand = e.isOperand := by
  cases e with
  | call i t as =>
    obtain ⟨j, b, ns, n, -, h⟩ | ⟨-, h⟩ := called_cases i t.methods (methodsList as) <;> rw [methods, h] <;> rfl
  | _ => rfl

end Expr

open Shading.Expr (Reread RereadAll)

/-- An operand is written alike at all levels. -/
theorem Canonical.lexemes_operand {e : Expr} (h : e.isOperand) (level : Nat) :
    lexemes level e = lexemes postfixLevel e := by
  cases e with
  | binary | unary | assign | ternary => cases h
  | _ => simp only [lexemes]

namespace Part

/-- A part that is read from its tokens as what it is. -/
structure Rereadable (p : Part) : Prop where
  source : p.isSource
  clear : p.isClear
  plain : p.isPlain
  floats : ∀ x ∈ p.floats, x.ReadsBack

theorem rereadable_mark (k : TokenKind) : (mark k).Rereadable := ⟨rfl, rfl, rfl, List.forall_mem_nil _⟩

def size (ps : List Part) : Nat := (spell ps).length

@[simp] theorem size_nil : size [] = 0 := rfl

@[simp] theorem size_cons (p : Part) (ps : List Part) : size (p :: ps) = p.lexemes.length + size ps :=
  List.length_append

@[simp] theorem size_append (ps qs : List Part) : size (ps ++ qs) = size ps + size qs := by
  rw [size, spell_append, List.length_append]
  rfl

@[simp] theorem length_mark (k : TokenKind) : (mark k).lexemes.length = 1 := rfl

@[simp] theorem length_name (n : Text) : (name n).lexemes.length = 1 := rfl

@[simp] theorem size_braces (ps : List Part) : size (braces ps) = size ps + 2 := by
  simp only [braces, size_cons, size_append, size_nil, length_mark]
  omega

/-- The kind of the token in front where parts stand in front of a token of a kind. -/
def front (ps : List Part) (k : TokenKind) : TokenKind :=
  match spell ps with
  | [] => k
  | l :: _ => l.1

@[simp] theorem front_nil (k : TokenKind) : front [] k = k := rfl

@[simp] theorem front_mark (k' k : TokenKind) (ps : List Part) : front (mark k' :: ps) k = k' := rfl

@[simp] theorem front_name (n : Text) (ps : List Part) (k : TokenKind) : front (name n :: ps) k = .identifier := rfl

@[simp] theorem front_append (ps qs : List Part) (k : TokenKind) : front (ps ++ qs) k = front ps (front qs k) := by
  unfold front
  rw [spell_append]
  cases spell ps with
  | nil => rfl
  | cons => rfl

theorem size_pos_of_front {ps : List Part} {k : TokenKind} (h : front ps k ≠ k) : 1 ≤ size ps := by
  unfold front at h
  unfold size
  cases hspell : spell ps with
  | nil =>
    rw [hspell] at h
    exact absurd rfl h
  | cons => simp

end Part

namespace Parser

variable {α β : Type}

/-- Where the tokens of parts stand in front of tokens that may follow, a parser reads the parts, and what it makes
of them has a property. -/
structure Reads (p : Parser α) (ps : List Part) (follow : TokenKind → Prop) (Q : α → Prop) : Prop where
  run : ∀ {ts rest}, Spelled ts (Part.spell ps) → follow (headKind rest) → ∃ a, p (ts ++ rest) = .ok (a, rest) ∧ Q a

theorem headKind_spelled {ts : List Token} {ps : List Part} (h : Spelled ts (Part.spell ps)) (rest : List Token) :
    headKind (ts ++ rest) = Part.front ps (headKind rest) := by
  unfold Part.front
  cases hspell : Part.spell ps with
  | nil =>
    rw [hspell] at h
    rw [h.nil]
    rfl
  | cons l ls =>
    rw [hspell] at h
    obtain ⟨t, us, rfl, hkind, -⟩ := h.cons
    exact hkind

namespace Reads

variable {p q : Parser α} {f : α → Parser β} {ps : List Part} {follow mid : TokenKind → Prop} {P : α → Prop}
  {Q : β → Prop}

theorem bind {r : List Part} (hp : Reads p ps mid P) (hmid : ∀ k, follow k → mid (Part.front r k))
    (hf : ∀ a, P a → Reads (f a) r follow Q) : Reads (p >>= f) (ps ++ r) follow Q := by
  refine ⟨fun {ts rest} hts hrest => ?_⟩
  rw [Part.spell_append] at hts
  obtain ⟨us, vs, rfl, hus, hvs⟩ := hts.append
  have hfollow : mid (headKind (vs ++ rest)) := by
    rw [headKind_spelled hvs]
    exact hmid _ hrest
  obtain ⟨a, ha, hP⟩ := hp.run hus hfollow
  obtain ⟨b, hb, hQ⟩ := (hf a hP).run hvs hrest
  exact ⟨b, by rw [List.append_assoc, bind_of_ok ha, hb], hQ⟩

theorem pure {a : α} (h : P a) : Reads (Pure.pure a) [] follow P :=
  ⟨fun hts _ => ⟨a, by rw [Spelled.nil hts]; rfl, h⟩⟩

theorem given {a : α} (hf : Reads (f a) ps follow Q) : Reads (Pure.pure a >>= f) ps follow Q := by
  rwa [pure_bind]

theorem lift {x : Except ParseError α} {a : α} (hx : x = .ok a) (hf : Reads (f a) ps follow Q) :
    Reads (liftM x >>= f) ps follow Q := by
  refine ⟨fun hts hrest => ?_⟩
  obtain ⟨b, hb, hQ⟩ := hf.run hts hrest
  refine ⟨b, ?_, hQ⟩
  rw [hx]
  exact hb

theorem lifted {x : Except ParseError α} {a : α} (hx : x = .ok a) (h : P a) : Reads (liftM x) [] follow P := by
  have hlift : Reads (liftM x >>= Pure.pure) [] follow P := .lift hx (.pure h)
  rwa [bind_pure] at hlift

theorem pos {c : Prop} [Decidable c] (hc : c) (hp : Reads p ps follow P) : Reads (if c then p else q) ps follow P := by
  rw [if_pos hc]
  exact hp

theorem neg {c : Prop} [Decidable c] (hc : ¬ c) (hq : Reads q ps follow P) : Reads (if c then p else q) ps follow P := by
  rw [if_neg hc]
  exact hq

theorem mono {P' : α → Prop} (hp : Reads p ps follow P) (h : ∀ a, P a → P' a) : Reads p ps follow P' := by
  refine ⟨fun hts hrest => ?_⟩
  obtain ⟨a, ha, hP⟩ := hp.run hts hrest
  exact ⟨a, ha, h a hP⟩

theorem follows (hp : Reads p ps mid P) (h : ∀ k, follow k → mid k) : Reads p ps follow P :=
  ⟨fun hts hrest => hp.run hts (h _ hrest)⟩

/-- The last step of a parser. -/
theorem last (hp : Reads p ps mid P) (hmid : ∀ k, follow k → mid k) (hf : ∀ a, P a → Reads (f a) [] follow Q) :
    Reads (p >>= f) ps follow Q := by
  have h := hp.bind (r := []) hmid hf
  rwa [List.append_nil] at h

section

variable {k : TokenKind}

theorem advance {f : Token → Parser β} (hk : k ≠ .endOfFile) (hf : ∀ t, Reads (f t) ps follow Q) :
    Reads (Parser.advance >>= f) (.mark k :: ps) follow Q := by
  refine ⟨fun {ts rest} hts hrest => ?_⟩
  obtain ⟨t, us, rfl, hkind, hus⟩ := hts.lexeme
  obtain ⟨b, hb, hQ⟩ := (hf t).run hus hrest
  exact ⟨b, by rw [List.cons_append, bind_of_ok (advance_run (by rw [hkind]; exact hk)), hb], hQ⟩

theorem quoted {f : Token → Parser β} {t : Text} (hf : ∀ tok, tok.lexeme = Literal.quote t → Reads (f tok) ps follow Q) :
    Reads (Parser.advance >>= f) (.string t :: ps) follow Q := by
  refine ⟨fun {ts rest} hts hrest => ?_⟩
  obtain ⟨tok, us, rfl, hkind, hlexeme, hus⟩ := hts.cons
  obtain ⟨b, hb, hQ⟩ := (hf tok hlexeme).run hus hrest
  have hend : tok.kind ≠ .endOfFile := by
    rw [hkind]
    exact nofun
  exact ⟨b, by rw [List.cons_append, bind_of_ok (advance_run hend), hb], hQ⟩

theorem expect {f : Token → Parser β} (hk : k ≠ .endOfFile) (hf : ∀ t, Reads (f t) ps follow Q) :
    Reads (Parser.expect k >>= f) (.mark k :: ps) follow Q := by
  refine ⟨fun {ts rest} hts hrest => ?_⟩
  obtain ⟨t, us, rfl, hkind, hus⟩ := hts.lexeme
  obtain ⟨b, hb, hQ⟩ := (hf t).run hus hrest
  exact ⟨b, by rw [List.cons_append, bind_of_ok (expect_of_eq hkind hk), hb], hQ⟩

theorem name {f : Token → Parser β} {n : Text} (hf : ∀ t, t.lexeme = n → Reads (f t) ps follow Q) :
    Reads (Parser.expect .identifier >>= f) (.name n :: ps) follow Q := by
  refine ⟨fun {ts rest} hts hrest => ?_⟩
  obtain ⟨t, us, rfl, hkind, hlexeme, hus⟩ := hts.cons
  obtain ⟨b, hb, hQ⟩ := (hf t hlexeme).run hus hrest
  exact ⟨b, by rw [List.cons_append, bind_of_ok (expect_of_eq (k := .identifier) hkind (by decide)), hb], hQ⟩

theorem accept {f : Bool → Parser β} (hk : k ≠ .endOfFile) (hf : Reads (f true) ps follow Q) :
    Reads (Parser.accept k >>= f) (.mark k :: ps) follow Q := by
  refine ⟨fun {ts rest} hts hrest => ?_⟩
  obtain ⟨t, us, rfl, hkind, hus⟩ := hts.lexeme
  obtain ⟨b, hb, hQ⟩ := hf.run hus hrest
  exact ⟨b, by rw [List.cons_append, bind_of_ok (accept_of_eq hkind hk), hb], hQ⟩

theorem skip {f : Bool → Parser β} (hk : ∀ k', follow k' → Part.front ps k' ≠ k) (hf : Reads (f false) ps follow Q) :
    Reads (Parser.accept k >>= f) ps follow Q := by
  refine ⟨fun {ts rest} hts hrest => ?_⟩
  obtain ⟨b, hb, hQ⟩ := hf.run hts hrest
  have hne : headKind (ts ++ rest) ≠ k := by
    rw [headKind_spelled hts]
    exact hk _ hrest
  exact ⟨b, by rw [bind_of_ok (accept_of_ne hne), hb], hQ⟩

theorem sees {f : Bool → Parser β} (hk : ∀ k', follow k' → Part.front ps k' = k) (hf : Reads (f true) ps follow Q) :
    Reads (Parser.check k >>= f) ps follow Q := by
  refine ⟨fun {ts rest} hts hrest => ?_⟩
  obtain ⟨b, hb, hQ⟩ := hf.run hts hrest
  exact ⟨b, by rw [bind_of_ok (check_run _ _), headKind_spelled hts, hk _ hrest, beq_self_eq_true, hb], hQ⟩

theorem misses {f : Bool → Parser β} (hk : ∀ k', follow k' → Part.front ps k' ≠ k) (hf : Reads (f false) ps follow Q) :
    Reads (Parser.check k >>= f) ps follow Q := by
  refine ⟨fun {ts rest} hts hrest => ?_⟩
  obtain ⟨b, hb, hQ⟩ := hf.run hts hrest
  exact ⟨b, by rw [bind_of_ok (check_run _ _), headKind_spelled hts, beq_eq_false_iff_ne.mpr (hk _ hrest), hb], hQ⟩

theorem peek {f : Token → Parser β} (hk : ∀ k', follow k' → Part.front ps k' = k)
    (hf : ∀ t, t.kind = k → Reads (f t) ps follow Q) : Reads (Parser.peek >>= f) ps follow Q := by
  refine ⟨fun {ts rest} hts hrest => ?_⟩
  have hkind : (headToken (ts ++ rest)).kind = k := (headKind_spelled hts rest).trans (hk _ hrest)
  obtain ⟨b, hb, hQ⟩ := (hf _ hkind).run hts hrest
  exact ⟨b, by rw [bind_of_ok (show Parser.peek (ts ++ rest) = .ok (headToken (ts ++ rest), ts ++ rest) from rfl), hb], hQ⟩

/-- A token that is looked at for its place. -/
theorem place {f : Token → Parser β} (hf : ∀ t, Reads (f t) ps follow Q) : Reads (Parser.peek >>= f) ps follow Q := by
  refine ⟨fun {ts rest} hts hrest => ?_⟩
  obtain ⟨b, hb, hQ⟩ := (hf (headToken (ts ++ rest))).run hts hrest
  exact ⟨b, by rw [bind_of_ok (show Parser.peek (ts ++ rest) = .ok (headToken (ts ++ rest), ts ++ rest) from rfl), hb], hQ⟩

theorem peekKind {f : TokenKind → Parser β} (hk : ∀ k', follow k' → Part.front ps k' = k)
    (hf : Reads (f k) ps follow Q) : Reads (Parser.peekKind >>= f) ps follow Q := by
  refine ⟨fun {ts rest} hts hrest => ?_⟩
  obtain ⟨b, hb, hQ⟩ := hf.run hts hrest
  exact ⟨b, by rw [bind_of_ok (peekKind_run _), headKind_spelled hts, hk _ hrest, hb], hQ⟩

/-- The second token is looked at. -/
theorem peekSecond {f : TokenKind → Parser β} (k' : TokenKind) (hk : ∀ k'', follow k'' → Part.front ps k'' = k')
    (hf : Reads (f k') (.mark k :: ps) follow Q) : Reads (Parser.peekSecond >>= f) (.mark k :: ps) follow Q := by
  refine ⟨fun {ts rest} hts hrest => ?_⟩
  obtain ⟨b, hb, hQ⟩ := hf.run hts hrest
  obtain ⟨t, us, rfl, -, hus⟩ := Spelled.lexeme hts
  have hsecond : Parser.peekSecond (t :: us ++ rest) = .ok (headKind (us ++ rest), t :: us ++ rest) := rfl
  refine ⟨b, ?_, hQ⟩
  rw [bind_of_ok hsecond, headKind_spelled hus, hk _ hrest, hb]

end

end Reads

/-- Does nothing go on with an expression or a type in front of a token of the kind? -/
def closes (k : TokenKind) : Bool := !continues k && (binaryOp? k).isNone && k != .question

/-- Tokens that close an expression or a type. -/
def Closes (k : TokenKind) : Prop := closes k

theorem Closes.ends {e : Expr} {rest : List Token} (level : Nat) (h : Closes (headKind rest)) :
    Ends level e rest ∧ binaryOp? (headKind rest) = none ∧ headKind rest ≠ .question := by
  simp only [Closes, closes, Bool.and_eq_true, Bool.not_eq_true', Option.isNone_iff_eq_none, bne_iff_ne] at h
  exact ⟨.of_kind h.1.1 h.1.2, h.1.2, h.2⟩

theorem reads_expression {level : Nat} {e : Expr} {fuel : Nat} (h : (Part.expr level e).Rereadable)
    (hf : 8 * (Part.expr level e).lexemes.length + 6 ≤ fuel) :
    Reads (expression fuel) [.expr level e] Closes (Reread · e) := by
  obtain ⟨hsource, hclear, -, hfloats⟩ := h
  simp only [Part.isSource, Bool.and_eq_true, decide_eq_true_eq] at hsource
  have hparses : Reparses e.methods :=
    reparses e.methods hsource.2 ((Expr.isClear_methods e).trans hclear) (by rw [Expr.floats_methods]; exact hfloats)
  refine ⟨fun {ts rest} hts hrest => ?_⟩
  rw [Part.spell_cons, Part.spell_nil, List.append_nil, Part.lexemes] at hts
  obtain ⟨hends, hop, hquestion⟩ := hrest.ends (e := e.methods) level
  have hbound : 8 * ts.length + 6 ≤ fuel := by
    rw [hts.length_eq]
    exact hf
  cases Nat.eq_zero_or_pos level with
  | inl hzero =>
    subst hzero
    obtain ⟨e', he', hrun⟩ := hparses.expression hts hends hquestion hbound
    exact ⟨e', hrun, he'⟩
  | inr hpos =>
    obtain ⟨e', he', hrun⟩ := (hparses.chain level hsource.1).expression hpos hts hends hop hquestion hbound
    exact ⟨e', hrun, he'⟩

theorem reads_type {e : Expr} {fuel : Nat} (h : (Part.type e).Rereadable)
    (hf : 8 * (Part.type e).lexemes.length + 2 ≤ fuel) : Reads (typeExpression fuel) [.type e] Closes (Reread · e) := by
  obtain ⟨hsource, hclear, hplain, hfloats⟩ := h
  have hparses : Reparses e.methods :=
    reparses e.methods hsource ((Expr.isClear_methods e).trans hclear) (by rw [Expr.floats_methods]; exact hfloats)
  have hoperand : e.methods.isOperand := (Expr.isOperand_methods e).trans hplain
  refine ⟨fun {ts rest} hts hrest => ?_⟩
  rw [Part.spell_cons, Part.spell_nil, List.append_nil, Part.lexemes, Canonical.lexemes_operand hoperand] at hts
  obtain ⟨hends, -⟩ := hrest.ends (e := e.methods) Canonical.postfixLevel
  have hlen : ts.length = (Part.type e).lexemes.length := by
    rw [hts.length_eq, Part.lexemes, Canonical.lexemes_operand hoperand 0]
  obtain ⟨fuel, rfl⟩ : ∃ k, fuel = k + 1 := ⟨fuel - 1, by omega⟩
  have hcalls : e.methods.isMember → headKind rest ≠ .leftParen := by
    intro _ heq
    have hoperand := hends.operand
    rw [heq] at hoperand
    cases hoperand
  obtain ⟨e', fuel', he', hneed, hrun⟩ := hparses.base rest hts hcalls hends.generic
    (by omega : 1 + 8 * ts.length ≤ fuel)
  refine ⟨e', ?_, he'⟩
  rw [typeExpression, postfixed]
  exact hrun.trans (postfixes_done hneed hends.operand)

/-- An expression or a type after a mark, if there is one. -/
theorem Reads.optional {p : Parser Expr} {f : Expr → Parser β} {part : Expr → Part} {e : Expr} {k : TokenKind}
    {qs : List Part} {follow : TokenKind → Prop} {Q : β → Prop} (hk : k ≠ .endOfFile)
    (hp : e.isAbsent = false → Reads p [part e] Closes (Reread · e)) (hnext : ∀ k', follow k' → Part.front qs k' ≠ k)
    (hcloses : ∀ k', follow k' → Closes (Part.front qs k'))
    (hf : ∀ e', Reread e' e → Reads (f e') qs follow Q) :
    Reads (Parser.accept k >>= fun b => if b = true then p >>= f else Pure.pure .absent >>= f)
      (Part.optional k part e ++ qs) follow Q := by
  unfold Part.optional
  cases habsent : e.isAbsent with
  | true => exact .skip hnext (.neg (by decide) (hf _ (Expr.reread_absent habsent)))
  | false => exact .accept hk (.pos rfl ((hp habsent).bind hcloses hf))

/-- The first token of an expression. -/
theorem front_expr {level : Nat} {e : Expr} (h : (Part.expr level e).isSource) :
    ∃ k, Canonical.startsExpr k ∧ ∀ ps k', Part.front (.expr level e :: ps) k' = k := by
  simp only [Part.isSource, Bool.and_eq_true] at h
  obtain ⟨l, ls, hl, hstart⟩ := Canonical.lexemes_start e.methods h.2 level
  refine ⟨l.1, hstart, fun ps k' => ?_⟩
  rw [Part.front, Part.spell_cons, Part.lexemes, hl]
  rfl

theorem front_expr_ne {level : Nat} {e : Expr} (h : (Part.expr level e).isSource) {k : TokenKind}
    (hk : Canonical.startsExpr k = false) (ps : List Part) (k' : TokenKind) : Part.front (.expr level e :: ps) k' ≠ k := by
  obtain ⟨l, hstart, hfront⟩ := front_expr h
  rw [hfront]
  rintro rfl
  rw [hk] at hstart
  cases hstart

theorem rereadable_list {es : List Expr} (h : ∀ e ∈ es, (Part.expr 0 e).Rereadable) :
    ∀ e ∈ Expr.methodsList es, e.isSource ∧ Reparses e := by
  induction es with
  | nil => exact List.forall_mem_nil _
  | cons e es ih =>
    rw [List.forall_mem_cons] at h
    obtain ⟨⟨hsource, hclear, -, hfloats⟩, hes⟩ := h
    simp only [Part.isSource, Bool.and_eq_true] at hsource
    refine List.forall_mem_cons.mpr ⟨⟨hsource.2, ?_⟩, ih hes⟩
    exact reparses e.methods hsource.2 ((Expr.isClear_methods e).trans hclear) (by rw [Expr.floats_methods]; exact hfloats)

theorem reads_argumentList {es : List Expr} {fuel : Nat} (h : ∀ e ∈ es, (Part.expr 0 e).Rereadable)
    (hf : 8 * Part.size (Part.separate (es.map fun e => [.expr 0 e])) + 7 ≤ fuel) :
    Reads (argumentList fuel) (Part.separate (es.map fun e => [.expr 0 e])) (· = .rightParen) (RereadAll · es) := by
  refine ⟨fun {ts rest} hts hrest => ?_⟩
  have hbound : 8 * ts.length + 7 ≤ fuel := by
    rw [hts.length_eq]
    exact hf
  rw [Canonical.spell_separate] at hts
  obtain ⟨es', hes', hrun⟩ := argumentList_reparses (rereadable_list h) hts hrest hbound
  exact ⟨es', hrun, hes'⟩

/-- The attribute was read from the tokens of another one as it was written. -/
structure Attribute.Matches (a : Attribute) (s : Slot) : Prop where
  name : a.name = s.name
  string : a.string = none
  args : RereadAll a.args s.args

/-- What follows an attribute. -/
def EndsAttribute (k : TokenKind) : Prop := k = .comma ∨ k = .rightBracket

/-- The parts of an attribute behind its name. -/
def argumentParts (es : List Expr) : List Part :=
  if es.isEmpty then [] else .mark .leftParen :: (Part.separate (es.map fun e => [.expr 0 e]) ++ [.mark .rightParen])

theorem reads_attributeArguments {s : Slot} {span : Span} {fuel : Nat} (h : ∀ e ∈ s.args, (Part.expr 0 e).Rereadable)
    (hf : 8 * Part.size (argumentParts s.args) ≤ fuel) :
    Reads (attributeArguments fuel { name := s.name, span }) (argumentParts s.args) EndsAttribute (·.Matches s) := by
  obtain ⟨name, args⟩ := s
  cases args with
  | nil =>
    have hne : ∀ k, EndsAttribute k → Part.front [] k ≠ .leftParen := by
      rintro k (rfl | rfl) <;> decide
    exact .skip hne (.pos rfl (.pure ⟨rfl, rfl, rfl⟩))
  | cons e es =>
    simp only [argumentParts, List.isEmpty_cons, Bool.false_eq_true, if_false, Part.size_cons, Part.size_append,
      Part.length_mark, Part.size_nil] at hf ⊢
    have hfront : ∀ k, EndsAttribute k →
        Part.front (Part.separate ((e :: es).map fun e => [.expr 0 e]) ++ [.mark .rightParen]) k ≠ .stringLiteral := by
      intro k _
      have hsep : ∃ ps, Part.separate ((e :: es).map fun e => [Part.expr 0 e]) = .expr 0 e :: ps := by
        cases es with
        | nil => exact ⟨[], rfl⟩
        | cons e' es => exact ⟨_, rfl⟩
      obtain ⟨ps, hps⟩ := hsep
      rw [hps]
      exact front_expr_ne (h e List.mem_cons_self).source rfl _ k
    refine .accept (by decide) (.neg (by decide) (.misses hfront (.neg (by decide) ?_)))
    have hargs : ∀ e' ∈ e :: es, (Part.expr 0 e').Rereadable := h
    have hlist := reads_argumentList hargs (by omega : _ ≤ fuel)
    refine hlist.bind (fun _ _ => rfl) fun es' hes' => ?_
    have hne : es' ≠ [] := by
      rintro rfl
      have hlen := hes'.length
      cases hlen
    refine .expect (by decide) fun _ => .neg ?_ (.pure ⟨rfl, rfl, hes'⟩)
    simp [hne]

section

variable {ι : Type} {name : ι → Text} {tail : ι → List Part} {M : Attribute → ι → Prop}

/-- The names of attributes are known, and no two are the same. -/
structure DistinctNames (names : List Text) : Prop where
  nodup : names.Nodup
  known : ∀ n ∈ names, attributeNames.elem n

theorem DistinctNames.of_cons {n : Text} {names : List Text} (h : DistinctNames (n :: names)) :
    attributeNames.elem n ∧ n ∉ names ∧ DistinctNames names := by
  obtain ⟨hnodup, hknown⟩ := h
  rw [List.nodup_cons] at hnodup
  rw [List.forall_mem_cons] at hknown
  exact ⟨hknown.1, hnodup.1, hnodup.2, hknown.2⟩

/-- An attribute in brackets, and what is done with those behind it. -/
theorem reads_attributeGroup_step {i : ι} {seen : List Attribute} {fuel : Nat} {r : List Part}
    {follow : TokenKind → Prop} {Q : List Attribute → Prop} (hknown : attributeNames.elem (name i))
    (hseen : ∀ a ∈ seen, a.name ≠ name i)
    (hread : ∀ span, Reads (attributeArguments fuel { name := name i, span }) (tail i) EndsAttribute (M · i))
    (hends : ∀ k, follow k → EndsAttribute (Part.front r k))
    (hmore : ∀ a, M a i → Reads (do
      if ← accept .comma then attributeGroup (seen ++ [a]) fuel
      else
        let _ ← expect .rightBracket
        return seen ++ [a]) r follow Q) :
    Reads (attributeGroup seen (fuel + 1)) (.name (name i) :: (tail i ++ r)) follow Q := by
  refine .name fun t ht => ?_
  have hnew : ¬ seen.any (·.name == name i) := by simpa using hseen
  rw [ht]
  exact .neg (by rw [hknown]; decide) (.neg hnew ((hread t.span).bind hends hmore))

/-- The attributes of one pair of brackets, of which each is read behind its name. -/
theorem reads_attributeGroup {items : List ι} {seen : List Attribute} {fuel : Nat} (hne : items ≠ [])
    (hnames : DistinctNames (items.map name)) (hseen : ∀ a ∈ seen, a.name ∉ items.map name)
    (hname : ∀ a i, M a i → a.name = name i)
    (hread : ∀ i ∈ items, ∀ fuel span, 8 * Part.size (tail i) ≤ fuel →
      Reads (attributeArguments fuel { name := name i, span }) (tail i) EndsAttribute (M · i))
    (hf : 8 * Part.size (Part.separate (items.map fun i => .name (name i) :: tail i)) ≤ fuel) :
    Reads (attributeGroup seen fuel) (Part.separate (items.map fun i => .name (name i) :: tail i) ++ [.mark .rightBracket])
      (fun _ => True) fun as => ∃ more, as = seen ++ more ∧ List.Forall₂ M more items := by
  induction items generalizing seen fuel with
  | nil => exact absurd rfl hne
  | cons i items ih =>
    obtain ⟨hknown, hfresh, hrest⟩ := hnames.of_cons
    obtain ⟨hi, hitems⟩ := List.forall_mem_cons.mp hread
    simp only [List.map_cons, List.mem_cons, not_or] at hseen
    cases items with
    | nil =>
      simp only [List.map_cons, List.map_nil, Part.separate, Part.size_cons, Part.length_name] at hf
      obtain ⟨fuel, rfl⟩ : ∃ k, fuel = k + 1 := ⟨fuel - 1, by omega⟩
      refine reads_attributeGroup_step (r := [.mark .rightBracket]) hknown (fun a ha => (hseen a ha).1)
        (fun span => hi fuel span (by omega)) (fun _ _ => .inr rfl) fun a ha => ?_
      exact .skip (by simp) (.expect (by decide) fun _ => .pure ⟨[a], rfl, .cons ha .nil⟩)
    | cons j items =>
      have hparts : Part.separate ((i :: j :: items).map fun i => .name (name i) :: tail i) ++ [.mark .rightBracket] =
          .name (name i) :: (tail i ++ .mark .comma ::
            (Part.separate ((j :: items).map fun i => .name (name i) :: tail i) ++ [.mark .rightBracket])) := by
        simp [Part.separate]
      have hsize : 8 * Part.size (tail i) + 1 ≤ fuel ∧
          8 * Part.size (Part.separate ((j :: items).map fun i => .name (name i) :: tail i)) + 1 ≤ fuel := by
        simp only [List.map_cons, Part.separate, List.cons_append, Part.size_cons, Part.size_append, Part.length_name,
          Part.length_mark] at hf ⊢
        omega
      obtain ⟨fuel, rfl⟩ : ∃ k, fuel = k + 1 := ⟨fuel - 1, by omega⟩
      rw [hparts]
      refine reads_attributeGroup_step hknown (fun a ha => (hseen a ha).1)
        (fun span => hi fuel span (by omega)) (fun _ _ => .inl rfl) fun a ha => .accept (by decide) (.pos rfl ?_)
      have hnow : ∀ b ∈ seen ++ [a], b.name ∉ (j :: items).map name := by
        refine List.forall_mem_append.mpr ⟨fun b hb => (hseen b hb).2, List.forall_mem_singleton.mpr ?_⟩
        rw [hname a i ha]
        exact hfresh
      refine (ih (List.cons_ne_nil _ _) hrest hnow hitems (by omega)).mono ?_
      rintro as ⟨more, rfl, hmore⟩
      exact ⟨a :: more, List.append_assoc .., .cons ha hmore⟩

/-- No attributes. -/
theorem reads_attributes_none {fuel : Nat} (hf : 1 ≤ fuel) : Reads (attributes fuel) [] (· ≠ .leftBracket) (· = []) := by
  obtain ⟨fuel, rfl⟩ : ∃ k, fuel = k + 1 := ⟨fuel - 1, by omega⟩
  exact .skip (fun _ hk => hk) (.pure rfl)

theorem reads_attributes {items : List ι} {fuel : Nat} (hne : items ≠ []) (hnames : DistinctNames (items.map name))
    (hname : ∀ a i, M a i → a.name = name i)
    (hread : ∀ i ∈ items, ∀ fuel span, 8 * Part.size (tail i) ≤ fuel →
      Reads (attributeArguments fuel { name := name i, span }) (tail i) EndsAttribute (M · i))
    (hf : 8 * Part.size (Part.separate (items.map fun i => .name (name i) :: tail i)) + 2 ≤ fuel) :
    Reads (attributes fuel)
      (.mark .leftBracket :: (Part.separate (items.map fun i => .name (name i) :: tail i) ++ [.mark .rightBracket]))
      (· ≠ .leftBracket) (List.Forall₂ M · items) := by
  obtain ⟨fuel, rfl⟩ : ∃ k, fuel = k + 2 := ⟨fuel - 2, by omega⟩
  refine .accept (by decide) (.pos rfl ?_)
  have hgroup := reads_attributeGroup hne hnames (List.forall_mem_nil _) hname hread
    (by omega : _ ≤ fuel + 1)
  refine hgroup.last (fun _ _ => trivial) fun as has => ?_
  obtain ⟨more, rfl, hmore⟩ := has
  exact .skip (fun _ hk => hk) (.neg (by decide) (.pure hmore))

end

/-- Each attribute was read from the tokens of one that was written. -/
def Matching (as : List Attribute) (slots : List Slot) : Prop := List.Forall₂ Attribute.Matches as slots

theorem reads_bracketed {slots : List Slot} {fuel : Nat} (h : ∀ p ∈ Slot.bracketed slots, p.Rereadable)
    (hnames : DistinctNames (slots.map Slot.name)) (hf : 8 * Part.size (Slot.bracketed slots) + 1 ≤ fuel) :
    Reads (attributes fuel) (Slot.bracketed slots) (· ≠ .leftBracket) (Matching · slots) := by
  rw [Slot.forall_bracketed Part.rereadable_mark] at h
  cases slots with
  | nil =>
    refine (reads_attributes_none (by omega)).mono ?_
    rintro as rfl
    exact .nil
  | cons s slots =>
    have hparts : Slot.parts = fun s => .name s.name :: argumentParts s.args := rfl
    rw [Slot.bracketed, List.isEmpty_cons, if_neg (by decide), hparts] at hf ⊢
    simp only [Part.size_cons, Part.size_append, Part.length_mark] at hf
    exact reads_attributes (List.cons_ne_nil _ _) hnames (fun a i ha => ha.name)
      (fun s hs fuel span hfuel => reads_attributeArguments (h s hs).2 hfuel) (by omega)

/-- What was taken is an attribute that was written, or nothing. -/
def Taken (a : Option Attribute) (s : Option Slot) : Prop := Option.Rel Attribute.Matches a s

theorem Matching.take {as : List Attribute} {slots : List Slot} (h : Matching as slots) (name : Text) :
    Taken (Attribute.take as name).1 (slots.find? (·.name == name)) ∧
      Matching (Attribute.take as name).2 (slots.filter (·.name != name)) := by
  unfold Attribute.take
  induction h with
  | nil => exact ⟨.none, .nil⟩
  | @cons a s as slots has _ ih =>
    simp only [List.find?_cons, List.filter_cons, bne, has.name] at ih ⊢
    cases s.name == name with
    | true => exact ⟨.some has, ih.2⟩
    | false => exact ⟨ih.1, .cons has ih.2⟩

/-- The attribute that was taken, and the others. -/
theorem Matching.split {as : List Attribute} {slots : List Slot} (h : Matching as slots) (name : Text) :
    ∃ o others, Attribute.take as name = (o, others) ∧ Taken o (slots.find? (·.name == name)) ∧
      Matching others (slots.filter (·.name != name)) := ⟨_, _, rfl, h.take name⟩

theorem Matching.rejectAll {as : List Attribute} (h : Matching as []) (what : Text) :
    Attribute.rejectAll as what = .ok () := by
  cases h
  rfl

end Parser

namespace Attr

variable {α : Type}

/-- An attribute that was read from the tokens of another one. -/
structure Reread (a' a : Attr α) : Prop where
  expr : Expr.Reread a'.expr a.expr
  value : a'.value = a.value

end Attr

namespace Canonical

variable {α : Type}

theorem attr_eq (n : Names) (name : Text) (a : Attr α) (spell : α → Text) :
    attr n name a spell =
      if a.expr.isAbsent then .ok (a.value.elim [] fun v => [name ++ "(" ++ spell v ++ ")"])
      else do return [name ++ "(" ++ (← expr n 0 a.expr) ++ ")"] := by
  obtain ⟨e, value⟩ := a
  cases e <;> cases value <;> rfl

theorem attr_reread {a' a : Attr α} (h : a'.Reread a) (n : Names) (name : Text) (spell : α → Text) :
    attr n name a' spell = attr n name a spell := by
  rw [attr_eq, attr_eq, h.expr.isAbsent, h.expr.expr, h.value]

theorem flag_reread {a' a : Attr Bool} (h : a'.Reread a) (n : Names) (name : Text) : flag n name a' = flag n name a := by
  have hflag (a : Attr Bool) : flag n name a =
      if a.expr.isAbsent && a.value == some true then .ok [name] else attr n name a Text.ofBool := by
    obtain ⟨e, value⟩ := a
    cases e <;> rcases value with _ | _ | _ <;> rfl
  rw [hflag, hflag, attr_reread h, h.expr.isAbsent, h.value]

end Canonical

namespace Parser

section

variable {α : Type} {name : Text} {o : Option Attribute}

/-- An attribute that stands as it was written, or one that is not there. -/
theorem taken_given {a : Attr α} {known : List Expr} (ha : a.Given) (h : Taken o (Slot.ofAttr name a known).head?) :
    (o = none ∧ a.expr.isAbsent) ∨ ∃ b e, o = some b ∧ b.string = none ∧ b.args = [e] ∧ Reread e a.expr := by
  obtain ⟨e, value⟩ := a
  cases ha
  unfold Slot.ofAttr at h
  cases habsent : e.isAbsent with
  | true =>
    simp only [habsent, if_true] at h
    cases h
    exact .inl ⟨rfl, rfl⟩
  | false =>
    simp only [habsent] at h
    cases h with
    | @some b _ h =>
      obtain ⟨-, hstring, hargs⟩ := h
      obtain ⟨e', he'⟩ := List.length_eq_one_iff.mp hargs.length
      rw [he'] at hargs
      exact .inr ⟨b, e', rfl, hstring, he', (List.cons.inj hargs).1⟩

theorem optionalArg_reread {a : Attr α} {known : List Expr} (ha : a.Given)
    (h : Taken o (Slot.ofAttr name a known).head?) :
    ∃ e, Attribute.optionalArg o = .ok e ∧ Attr.Reread { expr := e } a := by
  obtain ⟨rfl, habsent⟩ | ⟨b, e, rfl, hstring, hargs, he⟩ := taken_given ha h
  · exact ⟨.absent, rfl, Expr.reread_absent habsent, ha.symm⟩
  · exact ⟨e, by rw [Attribute.optionalArg, Attribute.exprArg, hstring, hargs], he, ha.symm⟩

theorem flag_reread {a : Attr Bool} (ha : a.GivenOr true) (h : Taken o (Slot.ofAttr name a []).head?) :
    ∃ x, Attribute.flag o = .ok x ∧ x.Reread a := by
  obtain hgiven | rfl := ha
  · obtain ⟨rfl, habsent⟩ | ⟨b, e, rfl, hstring, hargs, he⟩ := taken_given hgiven h
    · exact ⟨{}, rfl, Expr.reread_absent habsent, hgiven.symm⟩
    · refine ⟨{ expr := e }, ?_, he, hgiven.symm⟩
      simp only [Attribute.flag, Attribute.exprArg, hstring, hargs]
      rfl
  · cases h with
    | @some b _ h =>
      have hargs : b.args = [] := List.length_eq_zero_iff.mp h.args.length
      exact ⟨.known true, by rw [Attribute.flag, h.string, hargs]; rfl, rfl, rfl⟩

/-- The sizes of a workgroup are gathered in a vector again. -/
theorem reads_workgroup {β : Type} {a : Attr (UInt32 × UInt32 × UInt32)} {f : Expr → Parser β} {ps : List Part}
    {follow : TokenKind → Prop} {Q : β → Prop} (ha : a.Gathered) (h : Taken o (Slot.ofWorkgroup a).head?)
    (hf : ∀ e, (∀ n, Canonical.workgroup n { expr := e } = Canonical.workgroup n a) → Reads (f e) ps follow Q) :
    Reads (match o with
      | some b => liftM (workgroupExpr b) >>= f
      | none => pure .absent >>= f) ps follow Q := by
  obtain ⟨e, value⟩ := a
  obtain ⟨hvalue, rfl | ⟨i, t, args, rfl, hcount⟩⟩ := ha
  · cases hvalue
    cases h
    exact .given (hf _ fun n => rfl)
  · cases hvalue
    cases h with
    | @some b _ h =>
      have hlen : b.args.length = 3 := h.args.length.trans hcount
      have hempty : b.args.isEmpty = false := by
        rw [List.isEmpty_eq_false_iff]
        rintro hnil
        rw [hnil] at hlen
        cases hlen
      refine .lift (a := .call (untyped b.span) (.index (untyped b.span) (.name (untyped b.span) "vec3")
        [.name (untyped b.span) "u32"]) b.args) ?_ (hf _ fun n => ?_)
      · simp only [workgroupExpr, hlen, hempty, Nat.sub_self, List.replicate_zero, List.append_nil]
        rfl
      · simp only [Canonical.workgroup, h.args.exprs]

end

end Parser

namespace Slot

/-- There is one attribute of the name, or none. -/
def AtMost (name : Text) (slots : List Slot) : Prop := slots = [] ∨ ∃ args, slots = [⟨name, args⟩]

namespace AtMost

variable {name : Text} {slots : List Slot}

theorem find? (h : AtMost name slots) (n : Text) :
    slots.find? (·.name == n) = if name = n then slots.head? else none := by
  obtain rfl | ⟨args, rfl⟩ := h
  · split <;> rfl
  · rw [List.find?_singleton]
    simp only [beq_iff_eq, List.head?_cons]

theorem filter (h : AtMost name slots) (n : Text) :
    slots.filter (·.name != n) = if name = n then [] else slots := by
  obtain rfl | ⟨args, rfl⟩ := h
  · split <;> rfl
  · by_cases hn : name = n <;> simp [hn]

theorem names (h : AtMost name slots) : (slots.map Slot.name).Sublist [name] := by
  obtain rfl | ⟨args, rfl⟩ := h
  · exact List.nil_sublist _
  · exact List.Sublist.refl _

end AtMost

section

variable {α : Type} (name : Text) (a : Attr α) (known : List Expr) (n : Text)

theorem atMost_ofAttr : AtMost name (ofAttr name a known) := by
  unfold ofAttr
  split
  · split
    · exact .inr ⟨known, rfl⟩
    · exact .inl rfl
  · exact .inr ⟨[a.expr], rfl⟩

theorem find?_ofAttr :
    (ofAttr name a known).find? (·.name == n) = if name = n then (ofAttr name a known).head? else none :=
  (atMost_ofAttr name a known).find? n

theorem filter_ofAttr :
    (ofAttr name a known).filter (·.name != n) = if name = n then [] else ofAttr name a known :=
  (atMost_ofAttr name a known).filter n

/-- An expression for an attribute is an attribute whose value is not known. -/
theorem ofExpr_eq (e : Expr) : ofExpr name e = ofAttr (α := Unit) name { expr := e } [] := rfl

end

section

variable (a : Attr (UInt32 × UInt32 × UInt32)) (n : Text)

theorem atMost_ofWorkgroup : AtMost "workgroup" (ofWorkgroup a) := by
  unfold ofWorkgroup
  split
  · exact .inr ⟨_, rfl⟩
  · exact .inl rfl

theorem find?_ofWorkgroup :
    (ofWorkgroup a).find? (·.name == n) = if "workgroup" = n then (ofWorkgroup a).head? else none :=
  (atMost_ofWorkgroup a).find? n

theorem filter_ofWorkgroup :
    (ofWorkgroup a).filter (·.name != n) = if "workgroup" = n then [] else ofWorkgroup a :=
  (atMost_ofWorkgroup a).filter n

end

end Slot

namespace Parser

theorem DistinctNames.sublist {names names' : List Text} (h : DistinctNames names) (hs : names'.Sublist names) :
    DistinctNames names' := ⟨h.nodup.sublist hs, fun n hn => h.known n (hs.subset hn)⟩

/-- The attribute of a loop stands with an argument, also where its name alone was written. -/
theorem taken_unroll {u : Attr Unroll} {o : Option Attribute} (hu : u.GivenOr .always)
    (h : Taken o (Slot.ofUnroll u).head?) :
    (o = none ∧ ∀ n, Canonical.attr n "unroll" {} Unroll.text = Canonical.attr n "unroll" u Unroll.text) ∨
      ∃ b e, o = some b ∧ b.string = none ∧ b.args = [e] ∧
        ∀ n, Canonical.attr n "unroll" { expr := e } Unroll.text = Canonical.attr n "unroll" u Unroll.text := by
  obtain hgiven | rfl := hu
  · obtain ⟨rfl, habsent⟩ | ⟨b, e, rfl, hstring, hargs, he⟩ := taken_given hgiven h
    · exact .inl ⟨rfl, fun n => Canonical.attr_reread ⟨Expr.reread_absent habsent, hgiven.symm⟩ n _ _⟩
    · exact .inr ⟨b, e, rfl, hstring, hargs, fun n => Canonical.attr_reread ⟨he, hgiven.symm⟩ n _ _⟩
  · cases h with
    | @some b _ h =>
      obtain ⟨-, hstring, hargs⟩ := h
      obtain ⟨e, he⟩ := List.length_eq_one_iff.mp hargs.length
      rw [he] at hargs
      have hreread : Reread e (.name {} (Unroll.text .always)) := (List.cons.inj hargs).1
      refine .inr ⟨b, e, rfl, hstring, he, fun n => ?_⟩
      rw [Canonical.attr_eq, hreread.isAbsent, hreread.expr]
      rfl

/-- The attribute of a loop, which is written like the one that it was read from. -/
theorem reads_unroll {u : Attr Unroll} {fuel : Nat} {k : TokenKind} (hk : k = .kwFor ∨ k = .kwWhile)
    (hu : u.GivenOr .always) (h : ∀ p ∈ Slot.bracketed (Slot.ofUnroll u), p.Rereadable)
    (hf : 8 * Part.size (Slot.bracketed (Slot.ofUnroll u)) + 1 ≤ fuel) :
    Reads (statementAttributes fuel) (Slot.bracketed (Slot.ofUnroll u)) (· = k)
      fun u' => ∀ n, Canonical.attr n "unroll" u' Unroll.text = Canonical.attr n "unroll" u Unroll.text := by
  have hname := Slot.atMost_ofAttr "unroll" u [.name {} (Unroll.text .always)]
  have hnames : DistinctNames ["unroll"] := ⟨by decide, by decide⟩
  refine (reads_bracketed h (hnames.sublist hname.names) hf).last ?_ fun as has => ?_
  · rintro k rfl
    rcases hk with rfl | rfl <;> decide
  obtain ⟨o, others, htake, htaken, hothers⟩ := has.split "unroll"
  rw [Slot.ofUnroll, hname.find?, if_pos rfl] at htaken
  rw [Slot.ofUnroll, hname.filter, if_pos rfl] at hothers
  rw [htake]
  have hreject := hothers.rejectAll "statement"
  obtain ⟨rfl, hnone⟩ | ⟨b, e, rfl, hstring, hargs, hsome⟩ := taken_unroll hu htaken
  · exact .given (.lift hreject (.pure hnone))
  · have hargument : b.exprArg = .ok e := by rw [Attribute.exprArg, hstring, hargs]
    have hmore : ¬ b.args.isEmpty := by simp [hargs]
    refine .neg hmore (.lift hargument (.given ?_))
    rcases hk with rfl | rfl
    · refine .sees (fun _ hk => hk) (.misses (fun _ hk => by rw [Part.front_nil, hk]; decide) ?_)
      exact .neg (by decide) (.given (.lift hreject (.pure hsome)))
    · refine .misses (fun _ hk => by rw [Part.front_nil, hk]; decide) (.sees (fun _ hk => hk) ?_)
      exact .neg (by decide) (.given (.lift hreject (.pure hsome)))

end Parser

end Shading
