import Shading.Proofs.Parser.Reading

/-! Statements are parsed from the tokens of their parts, and are written as before. -/
namespace Shading

open Shading.Expr (Reread RereadAll)

namespace Part

/-- What holds of the token of a mark and of what follows holds of the front of an optional part. -/
theorem front_optional {P : TokenKind → Prop} {k k' : TokenKind} {part : Expr → Part} {e : Expr} {ps : List Part} (hk : P k)
    (hps : P (front ps k')) : P (front (optional k part e ++ ps) k') := by
  unfold optional
  cases e.isAbsent with
  | true => exact hps
  | false => exact hk

theorem size_optional {k : TokenKind} {part : Expr → Part} {e : Expr} (h : e.isAbsent = false) :
    size (optional k part e) = (part e).lexemes.length + 1 := by
  rw [optional, h, if_neg (by decide), size_cons, size_cons, size_nil, length_mark]
  omega

end Part

namespace Parser

variable {β : Type}

section

variable {fuel : Nat} {follow : TokenKind → Prop} {Q : β → Prop} {ps : List Part}

/-- A type after a mark, if there is one. -/
theorem Reads.optionalType {f : Expr → Parser β} {e : Expr} {k : TokenKind} (hk : k ≠ .endOfFile)
    (h : e.isAbsent = false → (Part.type e).Rereadable) (hfuel : 8 * Part.size (Part.optional k .type e) ≤ fuel)
    (hnext : ∀ k', follow k' → Part.front ps k' ≠ k ∧ Closes (Part.front ps k'))
    (hf : ∀ e', Reread e' e → Reads (f e') ps follow Q) :
    Reads (Parser.accept k >>= fun b => if b = true then typeExpression fuel >>= f else Pure.pure Expr.absent >>= f)
      (Part.optional k .type e ++ ps) follow Q := by
  refine .optional hk (fun habsent => reads_type (h habsent) ?_) (fun k' hk' => (hnext k' hk').1)
    (fun k' hk' => (hnext k' hk').2) hf
  rw [Part.size_optional habsent] at hfuel
  omega

/-- An expression after a mark, if there is one. -/
theorem Reads.optionalExpr {f : Expr → Parser β} {e : Expr} {k : TokenKind} (hk : k ≠ .endOfFile)
    (h : e.isAbsent = false → (Part.expr 0 e).Rereadable) (hfuel : 8 * Part.size (Part.optional k (.expr 0) e) ≤ fuel)
    (hnext : ∀ k', follow k' → Part.front ps k' ≠ k ∧ Closes (Part.front ps k'))
    (hf : ∀ e', Reread e' e → Reads (f e') ps follow Q) :
    Reads (Parser.accept k >>= fun b => if b = true then expression fuel >>= f else Pure.pure Expr.absent >>= f)
      (Part.optional k (.expr 0) e ++ ps) follow Q := by
  refine .optional hk (fun habsent => reads_expression (h habsent) ?_) (fun k' hk' => (hnext k' hk').1)
    (fun k' hk' => (hnext k' hk').2) hf
  rw [Part.size_optional habsent] at hfuel
  omega

end

/-- A statement that is written like another one. -/
def Restates (s' s : Stmt) : Prop := ∀ n b, Canonical.lines n b s' = Canonical.lines n b s

theorem optional_reread {e' e : Expr} (h : Reread e' e) (n : Canonical.Names) (mark : Text) :
    Canonical.optional n mark e' = Canonical.optional n mark e := by
  rw [Canonical.optional, Canonical.optional, h.isAbsent, h.expr]

theorem reads_let {s : Span} {d : VarDecl} {fuel : Nat} (hd : d.type.isAbsent = false ∨ d.init.isAbsent = false)
    (h : ∀ p ∈ d.parts, p.Rereadable) (hf : 8 * Part.size d.parts ≤ fuel) :
    Reads (letStmt fuel) d.parts (fun _ => True) (Restates · (.letVar s d)) := by
  simp only [VarDecl.parts, List.forall_mem_cons, List.forall_mem_append, Part.forall_optional Part.rereadable_mark] at h
  obtain ⟨-, -, htype, hinit, -⟩ := h
  simp only [VarDecl.parts, Part.size_cons, Part.size_append, Part.size_nil, Part.length_mark, Part.length_name] at hf
  refine .advance (by decide) fun start => .name fun name hname => ?_
  refine .optionalType (by decide) htype (by omega) (fun _ _ => ?_) fun type ht => ?_
  · exact Part.front_optional (P := fun k => k ≠ .colon ∧ Closes k) ⟨by decide, rfl⟩ ⟨nofun, rfl⟩
  refine .optionalExpr (by decide) hinit (by omega) (fun _ _ => ⟨nofun, rfl⟩) fun init hi => ?_
  have hsome : ¬ (type.isAbsent && init.isAbsent) := by
    rw [ht.isAbsent, hi.isAbsent]
    rcases hd with hd | hd <;> simp [hd]
  refine .neg hsome (.expect (by decide) fun _ => .pure fun n b => ?_)
  simp only [Canonical.lines, hname, optional_reread ht, optional_reread hi]

theorem reads_const {d : ConstDecl} {x : Attr Bool} {attrs : List Attribute} {fuel : Nat}
    (hx : x.GivenOr true) (hattrs : Matching attrs (Slot.ofAttr "export" x [])) (h : ∀ p ∈ d.parts, p.Rereadable)
    (hf : 8 * Part.size d.parts ≤ fuel) :
    Reads (constDecl fuel attrs) d.parts (fun _ => True) fun s' =>
      ∃ i d', s' = .const i d' ∧ (∀ n, Canonical.constant n d' = Canonical.constant n d) ∧ d'.exported.Reread x := by
  simp only [ConstDecl.parts, List.forall_mem_cons, List.forall_mem_append, Part.forall_optional Part.rereadable_mark] at h
  obtain ⟨-, -, htype, -, hvalue, -⟩ := h
  simp only [ConstDecl.parts, Part.size_cons, Part.size_append, Part.size_nil, Part.length_mark, Part.length_name] at hf
  obtain ⟨htaken, hothers⟩ := hattrs.take "export"
  rw [Slot.find?_ofAttr, if_pos rfl] at htaken
  rw [Slot.filter_ofAttr, if_pos rfl] at hothers
  obtain ⟨exported, hflag, hexported⟩ := flag_reread hx htaken
  refine .lift hflag (.lift (hothers.rejectAll _) (.advance (by decide) fun start => .name fun name hname => ?_))
  refine .optionalType (by decide) htype (by omega) (fun _ _ => ⟨nofun, rfl⟩) fun type ht => .expect (by decide) fun _ => ?_
  refine (reads_expression hvalue (by omega)).bind (fun _ _ => rfl) fun value hv => .expect (by decide) fun _ => .pure ?_
  refine ⟨start.span, _, rfl, fun n => ?_, hexported⟩
  simp only [Canonical.constant, hname, optional_reread ht, hv.expr]

theorem reads_return {s : Span} {e : Expr} {fuel : Nat} (h : ∀ p ∈ (Stmt.returnWith s e).parts false, p.Rereadable)
    (hf : 8 * Part.size ((Stmt.returnWith s e).parts false) ≤ fuel) :
    Reads (returnStmt fuel) ((Stmt.returnWith s e).parts false) (fun _ => True) (Restates · (.returnWith s e)) := by
  have hdone {start : Token} {e' : Expr} (he : Reread e' e) :
      Reads (expect .semicolon >>= fun _ => pure (Stmt.returnWith start.span e')) [.mark .semicolon] (fun _ => True)
        (Restates · (.returnWith s e)) :=
    .expect (by decide) fun _ => .pure fun n b => by simp only [Canonical.lines, optional_reread he]
  rw [Stmt.parts] at h hf ⊢
  cases habsent : e.isAbsent with
  | true =>
    exact .advance (by decide) fun start => .sees (fun _ _ => rfl) (.pos rfl (.given (hdone (Expr.reread_absent habsent))))
  | false =>
    simp only [habsent, Bool.false_eq_true, if_false, List.forall_mem_cons, List.singleton_append] at h
    simp only [habsent, Bool.false_eq_true, if_false, List.singleton_append, Part.size_cons, Part.length_mark] at hf
    refine .advance (by decide) fun start => .misses (fun k _ => ?_) (.neg (by decide) ?_)
    · exact front_expr_ne h.2.1.source rfl _ k
    · exact (reads_expression h.2.1 (by omega)).bind (fun _ _ => rfl) fun e' he => hdone he

theorem reads_expressionStmt {s : Span} {e : Expr} {fuel : Nat} (h : (Part.expr 0 e).Rereadable)
    (hf : 8 * (Part.expr 0 e).lexemes.length + 6 ≤ fuel) :
    Reads (expressionStmt fuel) [.expr 0 e, .mark .semicolon] (fun _ => True) (Restates · (.expr s e)) := by
  refine .place fun start => (reads_expression h hf).bind (fun _ _ => rfl) fun e' he => ?_
  refine .peekKind (fun _ _ => rfl) (.given (.expect (by decide) fun _ => .pure fun n b => ?_))
  simp only [Canonical.lines, he.expr]

theorem assignOp_kind {op : AssignOp} (h : op ∈ AssignOp.named) :
    assignOp? op.kind = some op ∧ op.kind ≠ .endOfFile ∧ Closes op.kind := by
  unfold Closes
  revert op
  decide

theorem reads_assignment {s : Span} {i : ExprInfo} {op : AssignOp} {l r : Expr} {fuel : Nat} (hop : op ∈ AssignOp.named)
    (hl : (Part.expr Canonical.unaryLevel l).Rereadable) (hr : (Part.expr 0 r).Rereadable)
    (hf : 8 * (Part.expr Canonical.unaryLevel l).lexemes.length + 6 ≤ fuel ∧ 8 * (Part.expr 0 r).lexemes.length + 6 ≤ fuel) :
    Reads (expressionStmt fuel) [.expr Canonical.unaryLevel l, .mark op.kind, .expr 0 r, .mark .semicolon] (fun _ => True)
      (Restates · (.expr s (.assign i op l r))) := by
  obtain ⟨hassign, hend, hcloses⟩ := assignOp_kind hop
  refine .place fun start => (reads_expression hl hf.1).bind (fun _ _ => hcloses) fun l' hl' => ?_
  refine .peekKind (k := op.kind) (fun _ _ => rfl) ?_
  rw [hassign]
  refine .advance hend fun _ => (reads_expression hr hf.2).bind (fun _ _ => rfl) fun r' hr' => ?_
  refine .given (.expect (by decide) fun _ => .pure fun n b => ?_)
  simp only [Canonical.lines, Canonical.expr, hl'.expr, hr'.expr]

theorem reads_parenExpression {c : Expr} {fuel : Nat} (h : (Part.expr 0 c).Rereadable)
    (hf : 8 * (Part.expr 0 c).lexemes.length + 6 ≤ fuel) :
    Reads (parenExpression fuel) [.mark .leftParen, .expr 0 c, .mark .rightParen] (fun _ => True) (Reread · c) :=
  .expect (by decide) fun _ => (reads_expression h hf).bind (fun _ _ => rfl) fun _ hc => .expect (by decide) fun _ => .pure hc

/-- Can a statement begin with a token of the kind? -/
def startsStatement (k : TokenKind) : Bool := k != .rightBrace && k != .endOfFile && k != .kwElse

theorem startsStatement_ne {k : TokenKind} (h : startsStatement k) : k ≠ .rightBrace ∧ k ≠ .endOfFile ∧ k ≠ .kwElse := by
  simpa [startsStatement, and_assoc] using h

/-- A statement is read from the tokens of its parts. -/
structure Rereads (s : Stmt) : Prop where
  starts : ∀ k, startsStatement (Part.front (s.parts false) k)
  statement : ∀ {fuel}, 8 * Part.size (s.parts false) + 2 ≤ fuel →
    Reads (statement fuel) (s.parts false) (· ≠ .kwElse) (Restates · s)

/-- Statements whose lines are those of a statement inside braces are read from the tokens between the braces. -/
def RereadsInside (s : Stmt) : Prop :=
  ∀ fuel, 8 * Part.size (s.parts true) + 3 ≤ fuel →
    Reads (statements fuel) (s.parts true) (· = .rightBrace) fun ss => ∀ n, Canonical.allLines n ss = Canonical.lines n true s

theorem Rereads.size_pos {s : Stmt} (h : Rereads s) : 1 ≤ Part.size (s.parts false) :=
  Part.size_pos_of_front (startsStatement_ne (h.starts .rightBrace)).1

theorem Rereads.front {s : Stmt} (h : Rereads s) (ps : List Part) (k : TokenKind) :
    startsStatement (Part.front (s.parts false ++ ps) k) := by
  rw [Part.front_append]
  exact h.starts _

theorem reads_statements {ss : List Stmt} {fuel : Nat} (h : ∀ s ∈ ss, Rereads s)
    (hf : 8 * Part.size (Stmt.allParts ss) + 3 ≤ fuel) :
    Reads (statements fuel) (Stmt.allParts ss) (· = .rightBrace)
      fun ss' => ∀ n, Canonical.allLines n ss' = Canonical.allLines n ss := by
  induction ss generalizing fuel with
  | nil =>
    obtain ⟨fuel, rfl⟩ : ∃ k, fuel = k + 1 := ⟨fuel - 1, by omega⟩
    refine .sees (fun _ hk => hk) (.misses ?_ (.pos rfl (.pure fun n => rfl)))
    rintro k rfl
    decide
  | cons s ss ih =>
    obtain ⟨hs, hss⟩ := List.forall_mem_cons.mp h
    have hpos := hs.size_pos
    rw [Stmt.allParts, Part.size_append] at hf
    obtain ⟨fuel, rfl⟩ : ∃ k, fuel = k + 1 := ⟨fuel - 1, by omega⟩
    rw [Stmt.allParts]
    have hfront (k : TokenKind) := startsStatement_ne (hs.front (Stmt.allParts ss) k)
    refine .misses (fun k _ => (hfront k).1) (.misses (fun k _ => (hfront k).2.1) (.neg (by decide) ?_))
    refine (hs.statement (by omega)).bind ?_ fun s' hs' => (ih hss (by omega)).last (fun _ hk => hk) fun ss' hss' => ?_
    · rintro k rfl
      cases ss with
      | nil => simp [Stmt.allParts]
      | cons t ss => exact (startsStatement_ne ((hss t List.mem_cons_self).front _ _)).2.2
    · refine .pure fun n => ?_
      rw [Canonical.allLines, Canonical.allLines, hs', hss']

theorem reads_block {ps : List Part} {fuel : Nat} {Q : List Stmt → Prop} (h : Reads (statements fuel) ps (· = .rightBrace) Q) :
    Reads (block (fuel + 1)) (Part.braces ps) (fun _ => True) Q :=
  .expect (by decide) fun _ => h.bind (fun _ _ => rfl) fun _ hQ => .expect (by decide) fun _ => .pure hQ

/-- A statement without attributes, by its first token. -/
theorem Reads.plain {f : Attr Unroll → Token → Parser β} {fuel : Nat} {ps : List Part} {follow : TokenKind → Prop}
    {Q : β → Prop} {k : TokenKind} (hf : 1 ≤ fuel) (hk : k ≠ .leftBracket) (hfront : ∀ k', follow k' → Part.front ps k' = k)
    (h : ∀ tok, tok.kind = k → Reads (f {} tok) ps follow Q) :
    Reads (statementAttributes fuel >>= fun u => Parser.peek >>= f u) ps follow Q := by
  have hnone : Reads (statementAttributes fuel) [] (· ≠ .leftBracket) (· = {}) := by
    refine (reads_attributes_none hf).last (fun _ hk => hk) ?_
    rintro as rfl
    exact .given (.lift rfl (.pure rfl))
  refine hnone.bind (r := ps) (fun k' hk' => by rw [hfront k' hk']; exact hk) ?_
  rintro u rfl
  exact .peek hfront h

/-- Statements in braces that are written like another one inside braces. -/
def RestatesBody (s' s : Stmt) : Prop :=
  ∃ i j ss, s' = .scoped i (.multi j ss) ∧ ∀ n, Canonical.allLines n ss = Canonical.lines n true s

theorem RestatesBody.lines {s' s : Stmt} (h : RestatesBody s' s) (n : Canonical.Names) :
    Canonical.lines n true s' = Canonical.lines n true s := by
  obtain ⟨i, j, ss, rfl, hss⟩ := h
  rw [← hss]
  simp only [Canonical.lines]
  exact bind_pure _

theorem reads_body {s : Stmt} {fuel : Nat} (h : RereadsInside s) (hf : 8 * Part.size (Part.braces (s.parts true)) + 2 ≤ fuel) :
    Reads (statement fuel) (Part.braces (s.parts true)) (fun _ => True) (RestatesBody · s) := by
  rw [Part.size_braces] at hf
  obtain ⟨fuel, rfl⟩ : ∃ k, fuel = k + 2 := ⟨fuel - 2, by omega⟩
  refine .plain (k := .leftBrace) (by omega) (by decide) (fun _ _ => rfl) fun tok htok => ?_
  rw [htok]
  refine (reads_block (h fuel (by omega))).last (fun _ hk => hk) fun ss hss => .pure ?_
  exact ⟨tok.span, tok.span, ss, rfl, hss⟩

/-- An arm that was read from the tokens of another one. -/
def RestatesArm (a' a : Expr × Stmt) : Prop := Reread a'.1 a.1 ∧ RestatesBody a'.2 a.2

theorem armLines_restated {arms' arms : List (Expr × Stmt)} (h : List.Forall₂ RestatesArm arms' arms) (n : Canonical.Names)
    (keyword : Text) : Canonical.armLines n keyword arms' = Canonical.armLines n keyword arms := by
  induction h generalizing keyword with
  | nil => rfl
  | cons ha _ ih => rw [Canonical.armLines, Canonical.armLines, ha.1.expr, ha.2.lines, ih]

/-- What stands behind `else`, if there is something. -/
def RestatesOther (o' o : Stmt) : Prop := if o.isAbsent then o' = .absent else RestatesBody o' o

/-- The parts behind the last arm. -/
def otherParts (other : Stmt) : List Part :=
  if other.isAbsent then [] else .mark .kwElse :: Part.braces (other.parts true)

theorem branch_restated {s s' : Span} {isConst : Bool} {arms' arms : List (Expr × Stmt)} {o' o : Stmt}
    (harms : List.Forall₂ RestatesArm arms' arms) (ho : RestatesOther o' o) :
    Restates (.branch s' isConst arms' o') (.branch s isConst arms o) := by
  intro n b
  rw [Canonical.lines, Canonical.lines, armLines_restated harms]
  unfold RestatesOther at ho
  cases habsent : o.isAbsent with
  | true =>
    rw [habsent, if_pos rfl] at ho
    have habs : o = .absent := by
      cases o <;> first
        | rfl
        | cases habsent
    rw [ho, habs]
  | false =>
    rw [habsent, if_neg (by decide)] at ho
    have hlines := ho.lines n
    obtain ⟨i, j, ss, rfl, -⟩ := ho
    cases o with
    | absent => cases habsent
    | _ => simp only [hlines]

/-- A chain of conditions is read from the tokens of its arms, behind the arms that were read before. -/
theorem reads_branches (isConst : Bool) (start : Span) {arms before before' : List (Expr × Stmt)} {other : Stmt} {fuel : Nat}
    (hne : arms ≠ []) (harms : ∀ a ∈ arms, (Part.expr 0 a.1).Rereadable ∧ RereadsInside a.2)
    (hother : other.isAbsent = false → RereadsInside other) (hbefore : List.Forall₂ RestatesArm before' before)
    (hf : 8 * Part.size (Stmt.armParts arms ++ otherParts other) + 4 ≤ fuel) :
    Reads (branches fuel isConst start before') (.mark .kwIf :: (Stmt.armParts arms ++ otherParts other)) (· ≠ .kwElse)
      fun s' => ∀ s, Restates s' (.branch s isConst (before ++ arms) other) := by
  induction arms generalizing before before' fuel with
  | nil => exact absurd rfl hne
  | cons a arms ih =>
    obtain ⟨c, s⟩ := a
    obtain ⟨⟨hc, hs⟩, hrest⟩ := List.forall_mem_cons.mp harms
    simp only at hc hs
    have hparts : ∀ ps, Stmt.armParts ((c, s) :: arms) ++ ps = [.mark .leftParen, .expr 0 c, .mark .rightParen] ++
        (Part.braces (s.parts true) ++ ((if arms.isEmpty then [] else .mark .kwElse :: .mark .kwIf :: Stmt.armParts arms) ++ ps)) := by
      intro ps
      rw [Stmt.armParts]
      simp
    rw [hparts] at hf ⊢
    simp only [Part.size_append, Part.size_cons, Part.size_nil, Part.length_mark] at hf
    obtain ⟨fuel, rfl⟩ : ∃ k, fuel = k + 1 := ⟨fuel - 1, by omega⟩
    refine .expect (by decide) fun _ => (reads_parenExpression hc (by omega)).bind (fun _ _ => trivial) fun c' hc' => ?_
    refine (reads_body hs (by omega)).bind (fun _ _ => trivial) fun s' hs' => ?_
    have hnow : List.Forall₂ RestatesArm (before' ++ [(c', s')]) (before ++ [(c, s)]) :=
      List.rel_append hbefore (.cons ⟨hc', hs'⟩ .nil)
    cases arms with
    | cons a arms =>
      simp only [List.isEmpty_cons, Bool.false_eq_true, if_false, Part.size_cons, Part.length_mark] at hf
      refine .accept (by decide) (.neg (by decide) (.sees (fun _ _ => rfl) (.pos rfl ?_)))
      have hmore := ih (List.cons_ne_nil _ _) hrest hnow (by rw [Part.size_append]; omega : _ ≤ fuel)
      simpa using hmore
    | nil =>
      simp only [List.isEmpty_nil, if_true, List.nil_append] at hf ⊢
      unfold otherParts at hf ⊢
      cases habsent : other.isAbsent with
      | true =>
        have hnone : RestatesOther .absent other := by
          rw [RestatesOther, habsent]
          rfl
        exact .skip (fun _ hk => hk) (.pos rfl (.pure fun s => branch_restated hnow hnone))
      | false =>
        simp only [habsent, Bool.false_eq_true, if_false, Part.size_cons, Part.length_mark] at hf ⊢
        refine .accept (by decide) (.neg (by decide) (.misses (by simp [Part.braces]) (.neg (by decide) ?_)))
        refine (reads_body (hother habsent) (by omega)).last (fun _ _ => trivial) fun o' ho' => .pure fun s => ?_
        refine branch_restated hnow ?_
        rw [RestatesOther, habsent]
        exact ho'

section

variable {s : Span} {body : Stmt} {fuel : Nat}

/-- The attribute of a loop is written like another one. -/
def RestatesUnroll (u' u : Attr Unroll) : Prop :=
  ∀ n, Canonical.attr n "unroll" u' Unroll.text = Canonical.attr n "unroll" u Unroll.text

theorem reads_forRange {h : RangeHead} {u : Attr Unroll} (hu : RestatesUnroll u h.unroll)
    (hstart : (Part.expr 0 h.start).Rereadable) (hstop : (Part.expr 0 h.stop).Rereadable)
    (hstep : h.step.isAbsent = false → (Part.expr 0 h.step).Rereadable) (hbody : RereadsInside body)
    (hf : 8 * (3 + (Part.expr 0 h.start).lexemes.length + (Part.expr 0 h.stop).lexemes.length +
      Part.size (Part.optional .colon (.expr 0) h.step) + Part.size (Part.braces (body.parts true))) + 1 ≤ fuel) :
    Reads (forStmt fuel u)
      (.mark .kwFor :: .name h.name :: .mark .kwIn :: .expr 0 h.start :: .mark .arrow :: .expr 0 h.stop ::
        (Part.optional .colon (.expr 0) h.step ++ Part.braces (body.parts true)))
      (fun _ => True) (Restates · (.forRange s h body)) := by
  obtain ⟨fuel, rfl⟩ : ∃ k, fuel = k + 1 := ⟨fuel - 1, by omega⟩
  refine .advance (by decide) fun start => .name fun name hname => .expect (by decide) fun _ => ?_
  refine (reads_expression hstart (by omega)).bind (fun _ _ => rfl) fun e he => .accept (by decide) (.neg (by decide) ?_)
  refine (reads_expression hstop (by omega)).bind (fun _ _ => ?_) fun stop hp => ?_
  · exact Part.front_optional (P := Closes) rfl rfl
  refine .optionalExpr (by decide) hstep (by omega) (fun _ _ => ⟨nofun, rfl⟩) fun step ht => ?_
  refine (reads_body hbody (by omega)).last (fun _ _ => trivial) fun body' hbody' => .pure fun n b => ?_
  simp only [Canonical.lines, hname, hu n, he.expr, hp.expr, optional_reread ht, hbody'.lines n]

theorem reads_forEach {h : EachHead} {u : Attr Unroll} (hu : RestatesUnroll u h.unroll)
    (harray : (Part.expr 0 h.array).Rereadable) (hbody : RereadsInside body)
    (hf : 8 * (2 + (Part.expr 0 h.array).lexemes.length + Part.size (Part.braces (body.parts true))) + 1 ≤ fuel) :
    Reads (forStmt fuel u)
      (.mark .kwFor :: .name h.name :: .mark .kwIn :: .expr 0 h.array :: Part.braces (body.parts true))
      (fun _ => True) (Restates · (.forEach s h body)) := by
  obtain ⟨fuel, rfl⟩ : ∃ k, fuel = k + 1 := ⟨fuel - 1, by omega⟩
  refine .advance (by decide) fun start => .name fun name hname => .expect (by decide) fun _ => ?_
  refine (reads_expression harray (by omega)).bind (fun _ _ => rfl) fun e he => .skip (fun _ _ => nofun) (.pos rfl ?_)
  refine (reads_body hbody (by omega)).last (fun _ _ => trivial) fun body' hbody' => .pure fun n b => ?_
  simp only [Canonical.lines, hname, hu n, he.expr, hbody'.lines n]

end

theorem allLines_one (n : Canonical.Names) (s : Stmt) : Canonical.allLines n [s] = Canonical.lines n false s := by
  rw [Canonical.allLines, Canonical.allLines]
  cases Canonical.lines n false s with
  | error => rfl
  | ok ls => exact congrArg Except.ok (List.append_nil ls)

/-- A scope apart, a statement inside braces has the parts and the lines that it has elsewhere. -/
theorem Rereads.inside {s : Stmt} (h : Rereads s) (hparts : s.parts true = s.parts false)
    (hlines : ∀ n, Canonical.lines n true s = Canonical.lines n false s) : Rereads s ∧ RereadsInside s := by
  refine ⟨h, fun fuel hf => ?_⟩
  have hall : Stmt.allParts [s] = s.parts true := by rw [Stmt.allParts, Stmt.allParts, List.append_nil, hparts]
  have hone := reads_statements (List.forall_mem_singleton.mpr h) (by rw [hall]; exact hf : _ ≤ fuel)
  rw [hall] at hone
  exact hone.mono fun ss hss n => by rw [hss n, hlines n, allLines_one]

/-- A statement that begins with an expression. -/
theorem rereads_expression {s : Stmt} {level : Nat} {e : Expr} {ps : List Part}
    (hparts : s.parts false = .expr level e :: ps) (he : (Part.expr level e).isSource)
    (h : ∀ fuel, 8 * Part.size (s.parts false) ≤ fuel → Reads (expressionStmt fuel) (s.parts false) (fun _ => True) (Restates · s)) :
    Rereads s := by
  obtain ⟨k, hstart, hfront⟩ := front_expr he
  refine ⟨fun k' => ?_, fun {fuel} hf => ?_⟩
  · rw [hparts, hfront]
    cases k <;> first
      | rfl
      | cases hstart
  · obtain ⟨fuel, rfl⟩ : ∃ k, fuel = k + 1 := ⟨fuel - 1, by omega⟩
    have hbracket : k ≠ .leftBracket := by
      rintro rfl
      cases hstart
    refine .plain (k := k) (by omega) hbracket (fun k' _ => by rw [hparts, hfront]) fun tok htok => ?_
    rw [← htok] at hstart
    split
    case h_12 => exact (h fuel (by omega)).follows fun _ _ => trivial
    all_goals
      rename_i hkind
      rw [hkind] at hstart
      cases hstart

theorem rereads_branch {s : Span} {isConst : Bool} {arms : List (Expr × Stmt)} {other : Stmt} (hne : arms ≠ [])
    (harms : ∀ a ∈ arms, (Part.expr 0 a.1).Rereadable ∧ RereadsInside a.2)
    (hother : other.isAbsent = false → RereadsInside other) : Rereads (.branch s isConst arms other) := by
  have hparts : (Stmt.branch s isConst arms other).parts false =
      (if isConst then [.mark .kwConst] else []) ++ (.mark .kwIf :: (Stmt.armParts arms ++ otherParts other)) := by
    rw [Stmt.parts]
    rfl
  have hchain {start : Span} {fuel : Nat} (hf : 8 * Part.size (Stmt.armParts arms ++ otherParts other) + 4 ≤ fuel) :=
    (reads_branches isConst start hne harms hother .nil hf).mono fun s' hs' => hs' s
  refine ⟨fun k => ?_, fun {fuel} hf => ?_⟩
  · rw [hparts]
    cases isConst <;> rfl
  rw [hparts] at hf ⊢
  obtain ⟨fuel, rfl⟩ : ∃ k, fuel = k + 1 := ⟨fuel - 1, by omega⟩
  cases isConst with
  | true =>
    simp only [if_true, List.singleton_append, Part.size_cons, Part.length_mark] at hf ⊢
    refine .plain (k := .kwConst) (by omega) (by decide) (fun _ _ => rfl) fun tok htok => ?_
    rw [htok]
    exact .peekSecond .kwIf (fun _ _ => rfl) (.pos rfl (.advance (by decide) fun _ => hchain (by omega)))
  | false =>
    simp only [Bool.false_eq_true, if_false, List.nil_append, Part.size_cons, Part.length_mark] at hf ⊢
    refine .plain (k := .kwIf) (by omega) (by decide) (fun _ _ => rfl) fun tok htok => ?_
    rw [htok]
    exact hchain (by omega)

/-- A loop with its attribute in front. -/
theorem Reads.unrolled {f : Attr Unroll → Token → Parser β} {fuel : Nat} {ps : List Part} {follow : TokenKind → Prop}
    {Q : β → Prop} {u : Attr Unroll} {k : TokenKind} (hk : k = .kwFor ∨ k = .kwWhile) (hu : u.GivenOr .always)
    (h : ∀ p ∈ Slot.bracketed (Slot.ofUnroll u), p.Rereadable)
    (hf : 8 * Part.size (Slot.bracketed (Slot.ofUnroll u)) + 1 ≤ fuel)
    (hloop : ∀ u' tok, RestatesUnroll u' u → tok.kind = k → Reads (f u' tok) (.mark k :: ps) follow Q) :
    Reads (statementAttributes fuel >>= fun u => Parser.peek >>= f u) (Slot.bracketed (Slot.ofUnroll u) ++ .mark k :: ps)
      follow Q :=
  (reads_unroll hk hu h hf).bind (fun _ _ => rfl) fun u' hu' => .peek (fun _ _ => rfl) fun tok htok => hloop u' tok hu' htok

/-- What holds of the token of a bracket and of what follows holds of the front of attributes. -/
theorem startsStatement_bracketed {slots : List Slot} {ps : List Part} {k : TokenKind}
    (h : startsStatement (Part.front ps k)) : startsStatement (Part.front (Slot.bracketed slots ++ ps) k) := by
  unfold Slot.bracketed
  split
  · exact h
  · rfl

/-- A statement that the parser gives is read from the tokens of its parts. -/
theorem rereads {s : Stmt} (hs : s.Formed) (h : ∀ p ∈ s.parts false, p.Rereadable) : Rereads s ∧ RereadsInside s := by
  have hmark := Part.rereadable_mark
  induction hs with
  | @expr s e hassign =>
    have hparts : ∀ b, (Stmt.expr s e).parts b = [.expr 0 e, .mark .semicolon] := by
      intro b
      cases e with
      | assign => cases hassign
      | _ => rfl
    rw [hparts] at h
    have he := h _ List.mem_cons_self
    refine Rereads.inside (rereads_expression (hparts false) he.source fun fuel hf => ?_) (by rw [hparts, hparts]) fun n => rfl
    rw [hparts] at hf ⊢
    simp only [Part.size_cons, Part.size_nil, Part.length_mark] at hf
    exact reads_expressionStmt he (by omega)
  | @assign s i op l r hop =>
    simp only [Stmt.parts, Stmt.exprParts, List.forall_mem_cons] at h
    obtain ⟨hl, -, hr, -⟩ := h
    refine Rereads.inside (rereads_expression (by rw [Stmt.parts, Stmt.exprParts]) hl.source fun fuel hf => ?_) rfl fun n => rfl
    simp only [Stmt.parts, Stmt.exprParts, Part.size_cons, Part.size_nil, Part.length_mark] at hf ⊢
    exact reads_assignment hop hl hr (by omega)
  | @letVar s d hd =>
    refine Rereads.inside ⟨fun _ => rfl, fun {fuel} hf => ?_⟩ rfl fun n => rfl
    obtain ⟨fuel, rfl⟩ : ∃ k, fuel = k + 1 := ⟨fuel - 1, by omega⟩
    refine .plain (k := .kwLet) (by omega) (by decide) (fun _ _ => rfl) fun tok htok => ?_
    rw [htok]
    have hsize : 8 * Part.size d.parts ≤ fuel := by
      rw [Stmt.parts] at hf
      omega
    exact (reads_let hd h hsize).follows fun _ _ => trivial
  | @const s d =>
    refine Rereads.inside ⟨fun _ => rfl, fun {fuel} hf => ?_⟩ rfl fun n => rfl
    obtain ⟨fuel, rfl⟩ : ∃ k, fuel = k + 1 := ⟨fuel - 1, by omega⟩
    refine .plain (k := .kwConst) (by omega) (by decide) (fun _ _ => rfl) fun tok htok => ?_
    rw [htok]
    have hsize : 8 * Part.size d.parts ≤ fuel := by
      rw [Stmt.parts] at hf
      omega
    refine .peekSecond .identifier (fun _ _ => rfl) (.neg (by decide) ?_)
    refine ((reads_const (x := {}) (.inl rfl) .nil h hsize).follows fun _ _ => trivial).mono ?_
    rintro s' ⟨i, d', rfl, hd', -⟩ n b
    simp only [Canonical.lines, hd']
  | @block s i body _ ih =>
    rw [Stmt.parts, if_neg (by decide), Stmt.parts, Part.forall_braces hmark, Stmt.allParts_eq, List.forall_mem_flatMap] at h
    have hall := fun x hx => (ih x hx (h x hx)).1
    have hinside : RereadsInside (.scoped s (.multi i body)) := by
      intro fuel hf
      refine (reads_statements hall hf).mono fun ss hss n => ?_
      rw [hss]
      simp only [Canonical.lines]
      exact (bind_pure _).symm
    refine ⟨⟨fun _ => rfl, fun {fuel} hf => ?_⟩, hinside⟩
    refine ((reads_body hinside hf).follows fun _ _ => trivial).mono ?_
    rintro s' ⟨i', j', ss, rfl, hss⟩ n b
    simp only [Canonical.lines, hss]
    exact congrArg (· >>= _) (bind_pure _)
  | @branch s isConst arms other hne _ _ ih ihother =>
    simp only [Stmt.parts, List.forall_mem_append, List.forall_mem_cons, Stmt.forall_armParts hmark] at h
    obtain ⟨-, -, harms, hother⟩ := h
    refine Rereads.inside (rereads_branch hne (fun a ha => ⟨(harms a ha).1, ?_⟩) fun habsent => ?_) rfl fun n => ?_
    · exact (ih a ha ((Stmt.forall_inside hmark _ _).mp (harms a ha).2)).2
    · rw [habsent, if_neg (by decide), List.forall_mem_cons, Part.forall_braces hmark] at hother
      exact (ihother habsent ((Stmt.forall_inside hmark _ _).mp hother.2)).2
    · rw [Canonical.lines, Canonical.lines]
  | @forRange s head body hu _ ih =>
    simp only [Stmt.parts, List.forall_mem_append, List.forall_mem_cons, Part.forall_optional hmark, Part.forall_braces hmark] at h
    obtain ⟨hunroll, -, -, -, hstart, -, hstop, hstep, hbody⟩ := h
    have hinside := (ih ((Stmt.forall_inside hmark _ _).mp hbody)).2
    refine Rereads.inside ⟨fun _ => startsStatement_bracketed rfl, fun {fuel} hf => ?_⟩ rfl fun n => ?_
    · obtain ⟨fuel, rfl⟩ : ∃ k, fuel = k + 1 := ⟨fuel - 1, by omega⟩
      simp only [Stmt.parts, Part.size_append, Part.size_cons, Part.length_mark, Part.length_name] at hf
      refine .unrolled (.inl rfl) hu hunroll (by omega) fun u' tok hu' htok => ?_
      rw [htok]
      exact (reads_forRange hu' hstart hstop hstep hinside (by omega)).follows fun _ _ => trivial
    · rw [Canonical.lines, Canonical.lines]
  | @forEach s head body hu _ ih =>
    simp only [Stmt.parts, List.forall_mem_append, List.forall_mem_cons, Part.forall_braces hmark] at h
    obtain ⟨hunroll, -, -, -, harray, hbody⟩ := h
    have hinside := (ih ((Stmt.forall_inside hmark _ _).mp hbody)).2
    refine Rereads.inside ⟨fun _ => startsStatement_bracketed rfl, fun {fuel} hf => ?_⟩ rfl fun n => ?_
    · obtain ⟨fuel, rfl⟩ : ∃ k, fuel = k + 1 := ⟨fuel - 1, by omega⟩
      simp only [Stmt.parts, Part.size_append, Part.size_cons, Part.length_mark, Part.length_name] at hf
      refine .unrolled (.inl rfl) hu hunroll (by omega) fun u' tok hu' htok => ?_
      rw [htok]
      exact (reads_forEach hu' harray hinside (by omega)).follows fun _ _ => trivial
    · rw [Canonical.lines, Canonical.lines]
  | @loop s c u body hu _ ih =>
    simp only [Stmt.parts, List.forall_mem_append, List.forall_mem_cons, Part.forall_braces hmark] at h
    obtain ⟨hunroll, -, -, hcond, -, hbody⟩ := h
    have hinside := (ih ((Stmt.forall_inside hmark _ _).mp hbody)).2
    refine Rereads.inside ⟨fun _ => startsStatement_bracketed rfl, fun {fuel} hf => ?_⟩ rfl fun n => ?_
    · obtain ⟨fuel, rfl⟩ : ∃ k, fuel = k + 1 := ⟨fuel - 1, by omega⟩
      simp only [Stmt.parts, Part.size_append, Part.size_cons, Part.length_mark] at hf
      refine .unrolled (.inr rfl) hu hunroll (by omega) fun u' tok hu' htok => ?_
      rw [htok]
      refine .advance (by decide) fun start => (reads_parenExpression hcond (by omega)).bind (fun _ _ => trivial) fun c' hc' => ?_
      refine (reads_body hinside (by omega)).last (fun _ _ => trivial) fun body' hbody' => .pure fun n b => ?_
      simp only [Canonical.lines, hu' n, hc'.expr, hbody'.lines n]
    · rw [Canonical.lines, Canonical.lines]
  | returnWith =>
    refine Rereads.inside ⟨fun _ => rfl, fun {fuel} hf => ?_⟩ rfl fun n => rfl
    obtain ⟨fuel, rfl⟩ : ∃ k, fuel = k + 1 := ⟨fuel - 1, by omega⟩
    refine .plain (k := .kwReturn) (by omega) (by decide) (fun _ _ => rfl) fun tok htok => ?_
    rw [htok]
    exact (reads_return h (by omega)).follows fun _ _ => trivial
  | discard =>
    refine Rereads.inside ⟨fun _ => rfl, fun {fuel} hf => ?_⟩ rfl fun n => rfl
    obtain ⟨fuel, rfl⟩ : ∃ k, fuel = k + 1 := ⟨fuel - 1, by omega⟩
    refine .plain (k := .kwDiscard) (by omega) (by decide) (fun _ _ => rfl) fun tok htok => ?_
    rw [htok]
    exact .advance (by decide) fun _ => .expect (by decide) fun _ => .pure fun n b => rfl
  | breakLoop =>
    refine Rereads.inside ⟨fun _ => rfl, fun {fuel} hf => ?_⟩ rfl fun n => rfl
    obtain ⟨fuel, rfl⟩ : ∃ k, fuel = k + 1 := ⟨fuel - 1, by omega⟩
    refine .plain (k := .kwBreak) (by omega) (by decide) (fun _ _ => rfl) fun tok htok => ?_
    rw [htok]
    exact .advance (by decide) fun _ => .expect (by decide) fun _ => .pure fun n b => rfl
  | continueLoop =>
    refine Rereads.inside ⟨fun _ => rfl, fun {fuel} hf => ?_⟩ rfl fun n => rfl
    obtain ⟨fuel, rfl⟩ : ∃ k, fuel = k + 1 := ⟨fuel - 1, by omega⟩
    refine .plain (k := .kwContinue) (by omega) (by decide) (fun _ _ => rfl) fun tok htok => ?_
    rw [htok]
    exact .advance (by decide) fun _ => .expect (by decide) fun _ => .pure fun n b => rfl
  | noOp =>
    refine Rereads.inside ⟨fun _ => rfl, fun {fuel} hf => ?_⟩ rfl fun n => rfl
    obtain ⟨fuel, rfl⟩ : ∃ k, fuel = k + 1 := ⟨fuel - 1, by omega⟩
    refine .plain (k := .semicolon) (by omega) (by decide) (fun _ _ => rfl) fun tok htok => ?_
    rw [htok]
    exact .advance (by decide) fun _ => .pure fun n b => rfl

end Parser

end Shading
