import Shading.Parser
import Shading.Proofs.Expr.Source
import Shading.Proofs.Parser.Operand

/-! Operators are parsed from the lexemes of their operands, and so is every expression: parsing inverts printing. -/
namespace Shading.Parser

open Canonical (lexemes separatedLexemes postfixLevel unaryLevel level? wrapped isUnary)

section

variable {e : Expr}

/-- An operand in parentheses. -/
theorem unary_parens (he : ExpressionReparses e) {ts rest : List Token} {fuel : Nat}
    (hts : Spelled ts (wrapped true (lexemes 0 e))) (hrest : continues (headKind rest) = false)
    (hf : 8 * ts.length + 3 ≤ fuel) :
    ∃ e', e'.unplaced = e.unplaced ∧ unary fuel (ts ++ rest) = .ok (e', rest) := by
  obtain ⟨fuel, rfl⟩ : ∃ k, fuel = k + 2 := ⟨fuel - 2, by omega⟩
  obtain ⟨e', he', hrun⟩ := primary_parens he rest hts (by omega : 8 * ts.length ≤ fuel)
  have hhead : unaryOp? (headKind (ts ++ rest)) = none := by
    obtain ⟨opening, us, rfl, hopen, -⟩ := Spelled.lexeme hts
    rw [List.cons_append, headKind_cons, hopen]
    rfl
  refine ⟨e', he', ?_⟩
  rw [unary, bind_of_ok (peekKind_run _), hhead]
  change (primary fuel >>= postfixes fuel) (ts ++ rest) = _
  rw [bind_of_ok hrun, postfixes_done (by omega) hrest]

theorem ChainReparses.of_parens {level : Nat} (he : ExpressionReparses e)
    (hlex : lexemes level e = wrapped true (lexemes 0 e)) : ChainReparses level e := by
  intro bound need fuel ts rest _ hts hends hf
  rw [hlex] at hts
  obtain ⟨e', he', hrun⟩ := unary_parens he hts hends.operand (by omega : 8 * ts.length + 3 ≤ fuel)
  exact ⟨e', fuel, he', by omega, bind_of_ok hrun⟩

theorem UnaryReparses.of_parens (he : ExpressionReparses e)
    (hlex : lexemes unaryLevel e = wrapped true (lexemes 0 e)) : UnaryReparses e := by
  intro ts rest fuel hts hends hf
  rw [hlex] at hts
  exact unary_parens he hts hends.operand hf

end

section

variable {i : ExprInfo}

theorem unary_reparses {op : UnaryOp} {e : Expr} (h : (Expr.unary i op e).isSource) (he : Reparses e) :
    UnaryReparses (.unary i op e) := by
  intro ts rest fuel hts hends hf
  simp only [Expr.isSource, Bool.and_eq_true] at h
  obtain ⟨⟨hi, hop⟩, -⟩ := h
  obtain ⟨hkind, -, -⟩ := Canonical.unaryOp_kind hop
  rw [lexemes, wrapped, if_neg (by decide)] at hts
  obtain ⟨sign, us, rfl, hsign, hus⟩ := hts.lexeme
  rw [List.length_cons] at hf
  obtain ⟨fuel, rfl⟩ : ∃ k, fuel = k + 1 := ⟨fuel - 1, by omega⟩
  obtain ⟨e', he', hrun⟩ : ∃ e', e'.unplaced = e.unplaced ∧ Parser.unary fuel (us ++ rest) = .ok (e', rest) := by
    cases hu : isUnary e with
    | true =>
      have hlex : lexemes unaryLevel e = lexemes 0 e := by
        cases e with
        | unary => rw [lexemes, lexemes]; rfl
        | _ => cases hu
      rw [hu, hlex] at hus
      exact unary_parens he.expression hus hends.operand (by omega)
    | false =>
      rw [hu, wrapped, if_neg (by decide)] at hus
      refine he.unary hus (hends.mono (Nat.le_refl _) fun hg => ?_) (by omega)
      simpa only [Expr.endsGeneric, hu, Bool.not_false, Bool.and_true, Nat.le_refl, decide_true,
        Bool.true_and] using hg
  refine ⟨.unary (untyped sign.span) op e', ?_, ?_⟩
  · rw [Expr.unplaced, Expr.unplaced, unplaced_untyped hi, he']
  · have hne : sign.kind ≠ .endOfFile := by
      intro heq
      rw [← hsign, heq] at hkind
      cases hkind
    rw [List.cons_append, Parser.unary, bind_of_ok (peekKind_run _), headKind_cons, hsign, hkind]
    simp only
    rw [bind_of_ok (advance_run hne), bind_of_ok hrun]
    rfl

theorem reparses_unary {op : UnaryOp} {e : Expr} (h : (Expr.unary i op e).isSource) (he : Reparses e) :
    Reparses (.unary i op e) := by
  have hlex : ∀ level ≤ unaryLevel, lexemes level (.unary i op e) = lexemes unaryLevel (.unary i op e) := by
    intro level hle
    rw [lexemes, lexemes, decide_eq_false (Nat.not_lt.mpr hle)]
    rfl
  have hgeneric : ∀ level ≤ unaryLevel,
      Expr.endsGeneric level (.unary i op e) = Expr.endsGeneric unaryLevel (.unary i op e) := by
    intro level hle
    rw [Expr.endsGeneric, Expr.endsGeneric, decide_eq_true hle, decide_eq_true (Nat.le_refl _)]
  have hu := unary_reparses h he
  have hc : ∀ level ≤ unaryLevel, ChainReparses level (.unary i op e) := fun level hle =>
    ChainReparses.of_unary hu hle (hlex level hle) fun hg => by rwa [hgeneric level hle]
  have hexpr : ExpressionReparses (.unary i op e) :=
    ExpressionReparses.of_chain (hc 1 (by decide)) (by rw [hlex 0 (by decide), hlex 1 (by decide)])
      fun hg => by rwa [hgeneric 0 (by decide), ← hgeneric 1 (by decide)]
  refine ⟨BaseReparses.of_parens hexpr ?_, hu, hc, hexpr⟩
  rw [lexemes, lexemes]
  rfl

/-- Operators of a level and what binds tighter, where the operator itself needs no parentheses. -/
theorem chain_binary {op : BinaryOp} {l r : Expr} {own level : Nat} (h : (Expr.binary i op l r).isSource)
    (hclear : (Expr.binary i op l r).isClear) (hl : Reparses l) (hr : Reparses r)
    (hown : level? op = some own) (hle : level ≤ own) : ChainReparses level (.binary i op l r) := by
  intro bound need fuel ts rest hbound hts hends hf
  simp only [Expr.isSource, Bool.and_eq_true] at h
  obtain ⟨⟨⟨hi, -⟩, -⟩, -⟩ := h
  simp only [Expr.isClear, Bool.and_eq_true, Bool.not_eq_true', Bool.and_eq_false_iff,
    beq_eq_false_iff_ne] at hclear
  obtain ⟨hkind, -, -, -, hten⟩ := Canonical.binaryOp_kind hown
  rw [lexemes, hown, Option.getD_some, wrapped, if_neg (by simpa using hle)] at hts
  obtain ⟨ls, us, rfl, hls, hus⟩ := hts.append
  obtain ⟨sign, rs, rfl, hsign, hrs⟩ := hus.lexeme
  simp only [List.length_append, List.length_cons] at hf
  have hhead : headKind (sign :: rs ++ rest) = op.kind := hsign
  have hleft : Ends own l (sign :: rs ++ rest) := by
    refine ⟨?_, fun own' op' hop => ?_, fun hg hless => ?_⟩
    · rw [hhead]
      cases op <;> rfl
    · rw [hhead, hkind] at hop
      cases hop
      exact Nat.le_refl _
    · rw [hhead] at hless
      rw [hless] at hkind
      cases hkind
      exact hclear.2.elim (fun h => h rfl) fun h => by rw [hg] at h; cases h
  obtain ⟨l', fuel₁, hl', hneed, hrun⟩ := hl.chain own (by simp only [unaryLevel]; omega)
    (by omega : bound < own) hls hleft
    (by omega : (need + 8 * (rs.length + 1)) + 8 * ls.length + 4 ≤ fuel)
  obtain ⟨fuel₁, rfl⟩ : ∃ k, fuel₁ = k + 1 := ⟨fuel₁ - 1, by omega⟩
  have hright : Ends (own + 1) r rest := hends.mono (by omega) fun hg => by
    simp only [Expr.endsGeneric, hown, hg, Bool.and_true, decide_eq_true_eq]
    exact hle
  obtain ⟨r', fuel₂, hr', hneed₂, hrun₂⟩ := hr.chain (own + 1) (by simp only [unaryLevel]; omega)
    (Nat.lt_succ_self own) hrs hright (by omega : 1 + 8 * rs.length + 4 ≤ fuel₁)
  have hdone : operators fuel₂ own r' rest = .ok (r', rest) :=
    operators_done hneed₂ fun own' op' hop => Nat.le_trans (hends.operator own' op' hop) hle
  refine ⟨.binary (untyped l'.span) op l' r', fuel₁, ?_, by omega, ?_⟩
  · rw [Expr.unplaced, Expr.unplaced, unplaced_untyped hi, hl', hr']
  · rw [List.append_assoc, hrun, List.cons_append,
      operators_step (by omega) (hsign ▸ hkind) (by omega : bound < own), bind_of_ok (hrun₂.trans hdone)]

theorem reparses_binary {op : BinaryOp} {l r : Expr} (h : (Expr.binary i op l r).isSource)
    (hclear : (Expr.binary i op l r).isClear) (hl : Reparses l) (hr : Reparses r) :
    Reparses (.binary i op l r) := by
  obtain ⟨own, hown⟩ : ∃ own, level? op = some own := by
    have hop := h
    simp only [Expr.isSource, Bool.and_eq_true] at hop
    exact Option.isSome_iff_exists.mp hop.1.1.2
  obtain ⟨-, -, -, hone, hten⟩ := Canonical.binaryOp_kind hown
  have hopen : ∀ level ≤ own, lexemes level (.binary i op l r) = lexemes 0 (.binary i op l r) := by
    intro level hle
    rw [lexemes, lexemes, hown, Option.getD_some, decide_eq_false (Nat.not_lt.mpr hle)]
    rfl
  have hclosed : ∀ level, own < level →
      lexemes level (.binary i op l r) = wrapped true (lexemes 0 (.binary i op l r)) := by
    intro level hlt
    rw [lexemes, lexemes, hown, Option.getD_some, decide_eq_true hlt, decide_eq_false (Nat.not_lt_zero _)]
    rfl
  have hexpr : ExpressionReparses (.binary i op l r) := by
    refine ExpressionReparses.of_chain (chain_binary h hclear hl hr hown hone) (hopen 1 hone).symm fun hg => ?_
    simp only [Expr.endsGeneric, hown, Bool.and_eq_true, decide_eq_true_eq, Nat.zero_le, true_and] at hg ⊢
    exact hg.2
  refine ⟨BaseReparses.of_parens hexpr (hclosed _ (by simp only [postfixLevel]; omega)),
    UnaryReparses.of_parens hexpr (hclosed _ (by simp only [unaryLevel]; omega)),
    fun level _ => ?_, hexpr⟩
  cases Nat.lt_or_ge own level with
  | inl hlt => exact ChainReparses.of_parens hexpr (hclosed level hlt)
  | inr hle => exact chain_binary h hclear hl hr hown hle

theorem expression_ternary {c t f : Expr} (h : (Expr.ternary i c t f).isSource) (hc : Reparses c)
    (ht : Reparses t) (hf : Reparses f) : ExpressionReparses (.ternary i c t f) := by
  intro ts rest fuel hts hends hquestion hfuel
  simp only [Expr.isSource, Bool.and_eq_true] at h
  rw [lexemes, wrapped, if_neg (by decide)] at hts
  obtain ⟨cs, us, rfl, hcs, hus⟩ := hts.append
  obtain ⟨question, vs, rfl, hq, hvs⟩ := hus.lexeme
  obtain ⟨ys, ws, rfl, hys, hws⟩ := hvs.append
  obtain ⟨colon, ns, rfl, hcolon, hns⟩ := hws.lexeme
  simp only [List.length_append, List.length_cons] at hfuel
  obtain ⟨fuel, rfl⟩ : ∃ k, fuel = k + 1 := ⟨fuel - 1, by omega⟩
  have hhead : headKind (question :: (ys ++ colon :: ns) ++ rest) = .question := hq
  have hhead₂ : headKind (colon :: ns ++ rest) = .colon := hcolon
  obtain ⟨c', hc', hcond⟩ := (hc.chain 1 (by decide)).operators (by decide) hcs
    (.of_kind (by rw [hhead]; rfl) (by rw [hhead]; rfl)) (by rw [hhead]; rfl)
    (by omega : 8 * cs.length + 5 ≤ fuel)
  obtain ⟨t', ht', hyes⟩ := ht.expression hys (.of_kind (by rw [hhead₂]; rfl) (by rw [hhead₂]; rfl))
    (by rw [hhead₂]; decide) (by omega : 8 * ys.length + 6 ≤ fuel)
  obtain ⟨f', hf', hno⟩ := hf.expression hns
    (hends.mono (Nat.le_refl _) fun hg => by simpa only [Expr.endsGeneric, decide_true, Bool.true_and] using hg)
    hquestion (by omega : 8 * ns.length + 6 ≤ fuel)
  refine ⟨.ternary (untyped c'.span) c' t' f', ?_, ?_⟩
  · rw [Expr.unplaced, Expr.unplaced, unplaced_untyped h.1.1.1, hc', ht', hf']
  · rw [List.append_assoc, Parser.expression, ← bind_assoc, bind_of_ok hcond, bind_of_ok (check_run _ _),
      hhead]
    simp only [beq_self_eq_true, Bool.not_true, Bool.false_eq_true, if_false]
    rw [List.cons_append, bind_of_ok (advance_run (by rw [hq]; decide)), List.append_assoc, bind_of_ok hyes,
      List.cons_append, bind_of_ok (expect_of_eq hcolon (by decide)), bind_of_ok hno]
    rfl

theorem reparses_ternary {c t f : Expr} (h : (Expr.ternary i c t f).isSource) (hc : Reparses c)
    (ht : Reparses t) (hf : Reparses f) : Reparses (.ternary i c t f) := by
  have hexpr := expression_ternary h hc ht hf
  have hclosed : ∀ level, 0 < level →
      lexemes level (.ternary i c t f) = wrapped true (lexemes 0 (.ternary i c t f)) := by
    intro level hlt
    rw [lexemes, lexemes, decide_eq_true hlt]
    rfl
  refine ⟨BaseReparses.of_parens hexpr (hclosed _ (by decide)),
    UnaryReparses.of_parens hexpr (hclosed _ (by decide)), fun level _ => ?_, hexpr⟩
  cases Nat.eq_zero_or_pos level with
  | inr hlt => exact ChainReparses.of_parens hexpr (hclosed level hlt)
  | inl hzero =>
    subst hzero
    intro bound _ _ _ _ hbound
    exact absurd hbound (Nat.not_lt_zero _)

end

mutual

/-- Every expression of a source in which no less-than sign follows a generic name is parsed from its
lexemes, if its floats are read back. -/
theorem reparses (e : Expr) (hs : e.isSource) (hc : e.isClear)
    (hx : ∀ x ∈ e.floats, x.ReadsBack) : Reparses e := by
  have h := hs
  cases e <;> simp only [Expr.isSource, Bool.and_eq_true, Bool.false_eq_true] at h
  case name => exact reparses_name hs
  case literal i v =>
    refine reparses_literal hs ?_
    rintro x rfl
    exact hx x (by simp only [Expr.floats, List.mem_singleton])
  case binary i op l r =>
    have hclear := hc
    simp only [Expr.isClear, Bool.and_eq_true] at hclear
    simp only [Expr.floats, List.forall_mem_append] at hx
    exact reparses_binary hs hc (reparses l h.1.2 hclear.1.1 hx.1) (reparses r h.2 hclear.1.2 hx.2)
  case unary i op e =>
    exact reparses_unary hs (reparses e h.2 hc hx)
  case ternary i c t f =>
    simp only [Expr.isClear, Bool.and_eq_true] at hc
    simp only [Expr.floats, List.forall_mem_append] at hx
    exact reparses_ternary hs (reparses c h.1.1.2 hc.1.1 hx.1) (reparses t h.1.2 hc.1.2 hx.2.1)
      (reparses f h.2 hc.2 hx.2.2)
  case index i b is =>
    simp only [Expr.isClear, Bool.and_eq_true] at hc
    simp only [Expr.floats, List.forall_mem_append] at hx
    exact reparses_index hs (reparses b h.1.1.1.2 hc.1 hx.1) (reparses_all is h.2 hc.2 hx.2)
  case member i b ns =>
    exact reparses_member hs (reparses b h.1.1.1.2 hc hx)
  case call i b as =>
    simp only [Expr.isClear, Bool.and_eq_true] at hc
    simp only [Expr.floats, List.forall_mem_append] at hx
    exact reparses_call hs (reparses b h.1.1.2 hc.1 hx.1) (reparses_all as h.2 hc.2 hx.2)
  case method i b n as =>
    simp only [Expr.isClear, Bool.and_eq_true] at hc
    simp only [Expr.floats, List.forall_mem_append] at hx
    exact reparses_method hs (reparses b h.1.1.2 hc.1 hx.1) (reparses_all as h.2 hc.2 hx.2)

theorem reparses_all (es : List Expr) (hs : Expr.areSource es) (hc : Expr.areClear es)
    (hx : ∀ x ∈ Expr.floatsList es, x.ReadsBack) : ∀ e ∈ es, e.isSource ∧ Reparses e := by
  cases es with
  | nil => simp
  | cons e es =>
    simp only [Expr.areSource, Expr.areClear, Bool.and_eq_true] at hs hc
    simp only [Expr.floatsList, List.forall_mem_append] at hx
    exact List.forall_mem_cons.mpr
      ⟨⟨hs.1, reparses e hs.1 hc.1 hx.1⟩, reparses_all es hs.2 hc.2 hx.2⟩

end

end Shading.Parser

-- The texts of expressions. A generic name on its own is the one thing that is read differently in front of a
-- less-than sign.
namespace Shading

namespace Expr

mutual

/-- Is every generic name the base of an index or the target of a call? -/
def appliesGenerics : Expr → Bool
  | .name _ n => !isGeneric n
  | .binary _ _ l r => appliesGenerics l && appliesGenerics r
  | .unary _ _ e => appliesGenerics e
  | .ternary _ c t f => appliesGenerics c && appliesGenerics t && appliesGenerics f
  | .index _ b is => (Canonical.isName b || appliesGenerics b) && allApplyGenerics is
  | .member _ b _ => appliesGenerics b
  | .call _ t as => (Canonical.isName t || appliesGenerics t) && allApplyGenerics as
  | .method _ o _ as => appliesGenerics o && allApplyGenerics as
  | _ => true

def allApplyGenerics : List Expr → Bool
  | [] => true
  | e :: es => appliesGenerics e && allApplyGenerics es

end

theorem endsGeneric_of_appliesGenerics {e : Expr} (h : e.appliesGenerics) (level : Nat) :
    e.endsGeneric level = false := by
  fun_induction endsGeneric level e with
  | case1 level i n => simpa only [appliesGenerics, Bool.not_eq_true'] using h
  | case2 level i op l r own hown ih =>
    simp only [appliesGenerics, Bool.and_eq_true] at h
    rw [ih h.2, Bool.and_false]
  | case3 => rfl
  | case4 level i op e ih =>
    simp only [appliesGenerics] at h
    rw [ih h, Bool.and_false]
  | case5 level i c t f ih =>
    simp only [appliesGenerics, Bool.and_eq_true] at h
    rw [ih h.2, Bool.and_false]
  | case6 => rfl

theorem isClear_of_isName {e : Expr} (h : Canonical.isName e) : e.isClear := by
  cases e <;> first
    | rfl
    | cases h

mutual

theorem isClear_of_appliesGenerics (e : Expr) (h : e.appliesGenerics) : e.isClear := by
  cases e <;> try rfl
  all_goals simp only [appliesGenerics, Bool.and_eq_true, Bool.or_eq_true] at h
  all_goals simp only [isClear, Bool.and_eq_true]
  case binary op l r =>
    rw [endsGeneric_of_appliesGenerics h.1, Bool.and_false]
    exact ⟨⟨isClear_of_appliesGenerics l h.1, isClear_of_appliesGenerics r h.2⟩, rfl⟩
  case unary e => exact isClear_of_appliesGenerics e h
  case ternary c t f =>
    exact ⟨⟨isClear_of_appliesGenerics c h.1.1, isClear_of_appliesGenerics t h.1.2⟩,
      isClear_of_appliesGenerics f h.2⟩
  case index b is =>
    exact ⟨h.1.elim isClear_of_isName (isClear_of_appliesGenerics b), areClear_of_allApplyGenerics is h.2⟩
  case member b ns => exact isClear_of_appliesGenerics b h
  case call b as =>
    exact ⟨h.1.elim isClear_of_isName (isClear_of_appliesGenerics b), areClear_of_allApplyGenerics as h.2⟩
  case method b n as => exact ⟨isClear_of_appliesGenerics b h.1, areClear_of_allApplyGenerics as h.2⟩

theorem areClear_of_allApplyGenerics (es : List Expr) (h : allApplyGenerics es) : areClear es := by
  cases es with
  | nil => rfl
  | cons e es =>
    simp only [allApplyGenerics, areClear, Bool.and_eq_true] at h ⊢
    exact ⟨isClear_of_appliesGenerics e h.1, areClear_of_allApplyGenerics es h.2⟩

end

end Expr

namespace Canonical

/-- Parsing the canonical text of an expression up to its end gives the expression, places apart. -/
theorem expression_text (n : Names) (file : Text) (e : Expr) (hsource : e.isSource)
    (hgenerics : e.appliesGenerics) (hfloats : ∀ x ∈ e.floats, x.ReadsBack) :
    ∃ t ts e' last, expr n 0 e = .ok t ∧ tokenize file t = .ok ts ∧
      Parser.expression (Parser.fuelFor ts) ts = .ok (e', [last]) ∧ last.kind = .endOfFile ∧
      e'.unplaced = e.unplaced := by
  obtain ⟨t, ht, hyields, -⟩ := expr_yields e hsource 0
  obtain ⟨ts, hts, hspelled⟩ := hyields.spells file ⟨1, 1, 0⟩
  obtain ⟨us, vs, rfl, hus, hvs⟩ := Spelled.append hspelled
  obtain ⟨last, ws, rfl, hlast, -, hws⟩ := hvs.cons
  obtain rfl := hws.nil
  have hhead : Parser.headKind [last] = .endOfFile := hlast
  have hfuel : 8 * us.length + 6 ≤ Parser.fuelFor (us ++ [last]) := by
    rw [Parser.fuelFor, List.length_append]
    omega
  have hparses := Parser.reparses e hsource (Expr.isClear_of_appliesGenerics e hgenerics) hfloats
  obtain ⟨e', he', hrun⟩ := hparses.expression hus
    (.of_kind (by rw [hhead]; rfl) (by rw [hhead]; rfl)) (by rw [hhead]; decide) hfuel
  exact ⟨t, us ++ [last], e', last, ht n, hts, hrun, hlast, he'⟩

/-- The condition, the operands and the member of `-(a - b) * vec3[f32](0.5, 2u).xy.dot(c) < 1 ? d[0] : true`
stand at different levels, and the generic name is applied. -/
def sampleExpression : Expr :=
  let i : ExprInfo := {}
  let vector : Expr := .call i (.index i (.name i "vec3") [.name i "f32"])
    [.literal i (.f32 ⟨0x3F000000⟩), .literal i (.u32 2)]
  let product : Expr := .binary i .mul (.unary i .minus (.binary i .sub (.name i "a") (.name i "b")))
    (.method i (.member i vector [⟨"xy", {}⟩]) "dot" [.name i "c"])
  .ternary i (.binary i .lt product (.literal i (.i32 1)))
    (.index i (.name i "d") [.literal i (.i32 0)]) (.literal i (.bool true))

theorem expression_text_sample :
    sampleExpression.isSource ∧ sampleExpression.appliesGenerics ∧
      (∀ x ∈ sampleExpression.floats, x.ReadsBack) ∧
      ∃ t ts e' last, expr {} 0 sampleExpression = .ok t ∧ tokenize [] t = .ok ts ∧
        Parser.expression (Parser.fuelFor ts) ts = .ok (e', [last]) ∧ last.kind = .endOfFile ∧
        e'.unplaced = sampleExpression.unplaced := by
  have hsource : sampleExpression.isSource := by decide
  have hgenerics : sampleExpression.appliesGenerics := by decide
  have hfloats : ∀ x ∈ sampleExpression.floats, x.ReadsBack := by decide
  exact ⟨hsource, hgenerics, hfloats, expression_text {} [] sampleExpression hsource hgenerics hfloats⟩

end Canonical

end Shading
