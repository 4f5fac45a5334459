import Shading.Proofs.Module.Parts
import Shading.Proofs.Token.Quotation

/-! The tokens of lines of canonical text. A line is put together from a front and from tails that start
softly, so that no token goes on into the next one. -/
namespace Shading

namespace Lexer

theorem Yields.cast {t : Text} {ks ls : List Lexeme} (h : Yields t ks) (he : ks = ls) : Yields t ls := he ▸ h

theorem Yields.of_eq {t u : Text} {ks : List Lexeme} (h : Yields t ks) (he : u = t) : Yields u ks := he ▸ h

/-- Does the text start with a character that no word and no number goes on with? -/
def startsSoft : Text → Bool
  | [] => false
  | b :: _ => b < 0x80 && " \n()[],;:".toList.elem (Char.ofNat b.toNat)

theorem isSoft_of_startsSoft {t : Text} (h : startsSoft t) (u : Text) : isSoft (t ++ u) := by
  cases t with
  | nil => cases h
  | cons b t =>
    simp only [startsSoft, Bool.and_eq_true, decide_eq_true_eq] at h
    exact isSoft_cons _ h.1 h.2

theorem YieldsAlways.keyword {k : TokenKind} (h : k ∈ TokenKind.keywords) :
    YieldsAlways (k.text ++ " ") [k.lexeme] := by
  have hword : isWord k.text ∧ TokenKind.ofWord k.text = k := by
    revert k
    decide
  have hy := Yields.word hword.1
  rw [hword.2] at hy
  exact hy.before .space fun v => isSoft_cons _ (by decide) (by decide)

/-- A text that may follow any token. -/
structure Tail (t : Text) (ks : List Lexeme) : Prop where
  yields : Yields t ks
  soft : ∀ v, isSoft v → isSoft (t ++ v)

namespace Tail

variable {t u : Text} {ks ls : List Lexeme}

theorem nil : Tail [] [] := ⟨YieldsAlways.nil.yields, fun _ hv => hv⟩

theorem always (h : YieldsAlways t ks) (hsoft : startsSoft t) : Tail t ks :=
  ⟨h.yields, fun v _ => isSoft_of_startsSoft hsoft v⟩

theorem before (h : YieldsAlways t ks) (hsoft : startsSoft t) (hu : Yields u ls) : Tail (t ++ u) (ks ++ ls) := by
  refine ⟨h.before hu, fun v _ => ?_⟩
  rw [List.append_assoc]
  exact isSoft_of_startsSoft hsoft _

theorem cast (h : Tail t ks) (he : ks = ls) : Tail t ls := he ▸ h

end Tail

theorem Yields.tail {t u : Text} {ks ls : List Lexeme} (h : Yields t ks) (hu : Tail u ls) :
    Yields (t ++ u) (ks ++ ls) := h.append hu.yields hu.soft

end Lexer

namespace Canonical

open Lexer

/-- The lines have these tokens. -/
inductive Spread : List Text → List Lexeme → Prop
  | nil : Spread [] []
  | cons {l : Text} {ls : List Text} {ks ms : List Lexeme} (h : Yields l ks) (hs : Spread ls ms) :
    Spread (l :: ls) (ks ++ ms)

namespace Spread

variable {ls ms : List Text} {ks js : List Lexeme}

theorem cast (h : Spread ls ks) (he : ks = js) : Spread ls js := he ▸ h

theorem one {l : Text} (h : Yields l ks) : Spread [l] ks := (cons h nil).cast (List.append_nil ks)

theorem append (h : Spread ls ks) (h' : Spread ms js) : Spread (ls ++ ms) (ks ++ js) := by
  induction h with
  | nil => exact h'
  | cons hl hs ih =>
    rw [List.append_assoc]
    exact cons hl ih

theorem indent (h : Spread ls ks) : Spread (indent ls) ks := by
  have htab : YieldsAlways [Text.byte '\t'] [] := .blank 9 (by decide) fun _ => rfl
  induction h with
  | nil => exact nil
  | cons hl hs ih => exact cons (htab.before hl) ih

theorem braces (h : Spread ls ks) :
    Spread (Canonical.braces ls) (TokenKind.lexeme .leftBrace :: (ks ++ [TokenKind.lexeme .rightBrace])) := by
  have hopen : Yields (TokenKind.text .leftBrace) [TokenKind.lexeme .leftBrace] :=
    (YieldsAlways.mark (by decide)).yields
  have hclose : Yields (TokenKind.text .rightBrace) [TokenKind.lexeme .rightBrace] :=
    (YieldsAlways.mark (by decide)).yields
  exact cons hopen (h.indent.append (one hclose))

/-- The lines with their ends. -/
theorem always (h : Spread ls ks) : YieldsAlways (ls.flatMap fun l => l ++ "\n") ks := by
  have hend : YieldsAlways "\n" [] := .blank 10 (by decide) fun _ => rfl
  induction h with
  | nil => exact .nil
  | cons hl hs ih =>
    have hline := hl.before hend fun v => isSoft_cons _ (by decide) (by decide)
    rw [List.append_nil] at hline
    exact hline.append ih

end Spread

/-- Each text has the tokens of its parts. -/
inductive SpellsEach : List Text → List (List Part) → Prop
  | nil : SpellsEach [] []
  | cons {t : Text} {ts : List Text} {ps : List Part} {pss : List (List Part)}
    (h : Yields t (Part.spell ps)) (hs : SpellsEach ts pss) : SpellsEach (t :: ts) (ps :: pss)

namespace SpellsEach

variable {ts us : List Text} {pss qss : List (List Part)}

theorem append (h : SpellsEach ts pss) (h' : SpellsEach us qss) : SpellsEach (ts ++ us) (pss ++ qss) := by
  induction h with
  | nil => exact h'
  | cons ht hs ih => exact cons ht ih

theorem isEmpty_eq (h : SpellsEach ts pss) : ts.isEmpty = pss.isEmpty := by
  cases h <;> rfl

theorem join (h : SpellsEach ts pss) : Yields (Text.join ", " ts) (Part.spell (Part.separate pss)) := by
  induction h with
  | nil => exact YieldsAlways.nil.yields
  | cons ht hs ih =>
    cases hs with
    | nil => exact ht
    | cons hu hs =>
      have hall := ht.tail (Tail.before yields_comma rfl ih)
      refine hall.cast ?_
      simp [Part.separate, Part.lexemes]

theorem lines (h : SpellsEach ts pss) : Spread (separated ts) (Part.spell (Part.separate pss)) := by
  induction h with
  | nil => exact .nil
  | cons ht hs ih =>
    cases hs with
    | nil => exact .one ht
    | cons hu hs =>
      have hcomma : YieldsAlways (TokenKind.text .comma) [TokenKind.lexeme .comma] := .mark (by decide)
      have hline := Spread.cons (ht.tail (Tail.always hcomma rfl)) ih
      refine hline.cast ?_
      simp [Part.separate, Part.lexemes]

end SpellsEach

theorem mapM_spells {α : Type} {f : Names → α → Except WriteError Text} {parts : α → List Part} {xs : List α}
    (h : ∀ x ∈ xs, ∃ t, (∀ n, f n x = .ok t) ∧ Yields t (Part.spell (parts x))) :
    ∃ ts, (∀ n, xs.mapM (f n) = .ok ts) ∧ SpellsEach ts (xs.map parts) := by
  induction xs with
  | nil => exact ⟨[], fun n => rfl, .nil⟩
  | cons x xs ih =>
    rw [List.forall_mem_cons] at h
    obtain ⟨t, ht, yt⟩ := h.1
    obtain ⟨ts, hts, yts⟩ := ih h.2
    refine ⟨t :: ts, fun n => ?_, .cons yt yts⟩
    rw [List.mapM_cons, ht, hts]
    rfl

end Canonical

end Shading

-- The canonical lines of statements have the tokens of their parts.
namespace Shading.Canonical

open Lexer

/-- An expression that the parser gives has a text. -/
theorem expr_written {e : Expr} (h : e.Sourced) (level : Nat) :
    ∃ t, (∀ n, expr n level e = .ok t) ∧ Yields t (lexemes level e.methods) := by
  obtain ⟨t, ht, yt, -⟩ := expr_yields e.methods h level
  exact ⟨t, fun n => by rw [← expr_methods n e level, ht], yt⟩

theorem spell_separate (es : List Expr) :
    Part.spell (Part.separate (es.map fun e => [.expr 0 e])) = separatedLexemes (Expr.methodsList es) := by
  induction es with
  | nil => rfl
  | cons e es ih =>
    cases es with
    | nil => simp [Part.separate, Part.lexemes, Expr.methodsList, separatedLexemes]
    | cons e' es =>
      simp only [List.map_cons, Part.separate, Part.spell_cons, Part.lexemes, List.singleton_append] at ih ⊢
      rw [ih]
      simp only [Expr.methodsList, separatedLexemes]

theorem exprs_written {es : List Expr} (h : Expr.AllSourced es) :
    ∃ ts, (∀ n, exprs n es = .ok ts) ∧
      Yields (Text.join ", " ts) (Part.spell (Part.separate (es.map fun e => [.expr 0 e]))) := by
  obtain ⟨ts, hts, -, yts⟩ := exprs_yields (Expr.methodsList es) ((Expr.areSource_iff es).mpr h)
  exact ⟨ts, fun n => by rw [← exprs_methods n es, hts], yts.cast (spell_separate es).symm⟩

/-- An expression or a type after a mark, if there is one. -/
theorem optional_written {u : Text} {k : TokenKind} {part : Expr → Part} {e : Expr}
    (hu : YieldsAlways u [k.lexeme]) (hsoft : startsSoft u)
    (hpart : (part e).isSource → e.Sourced ∧ (part e).lexemes = lexemes 0 e.methods)
    (h : ∀ p ∈ Part.optional k part e, p.isSource) :
    ∃ t, (∀ n, optional n u e = .ok t) ∧ Tail t (Part.spell (Part.optional k part e)) := by
  unfold optional Part.optional at *
  cases habsent : e.isAbsent with
  | true => exact ⟨[], fun n => rfl, .nil⟩
  | false =>
    rw [habsent] at h
    obtain ⟨hsource, hlex⟩ := hpart (h _ (by simp))
    obtain ⟨t, ht, yt⟩ := expr_written hsource 0
    refine ⟨u ++ t, fun n => ?_, (Tail.before hu hsoft yt).cast ?_⟩
    · simp only [ht, Bool.false_eq_true, if_false]
      rfl
    · rw [if_neg (by decide), Part.spell_cons, Part.spell_cons, hlex]
      simp [Part.lexemes]

theorem source_expr {e : Expr} (h : (Part.expr 0 e).isSource) :
    e.Sourced ∧ (Part.expr 0 e).lexemes = lexemes 0 e.methods :=
  ⟨by simpa [Part.isSource, Expr.Sourced] using h, rfl⟩

theorem source_type {e : Expr} (h : (Part.type e).isSource) :
    e.Sourced ∧ (Part.type e).lexemes = lexemes 0 e.methods := ⟨h, rfl⟩

section

variable {name t : Text} {ts : List Text} {slots : List Slot}

theorem slot_yields (name : Text) {args : List Expr} (hname : Lexer.isName name) (hne : args ≠ [])
    (ht : Yields t (Part.spell (Part.separate (args.map fun e => [.expr 0 e])))) :
    Yields (name ++ "(" ++ t ++ ")") (Part.spell (Slot.mk name args).parts) := by
  have hparens := Tail.always (yields_parens ht) rfl
  have hslot := (Yields.name hname).tail hparens
  simp only [List.append_assoc] at hslot ⊢
  refine hslot.cast ?_
  simp [Slot.parts, hne, Part.lexemes]

theorem attributeLine_spread (h : SpellsEach ts (slots.map Slot.parts)) :
    Spread (attributeLine ts) (Part.spell (Slot.bracketed slots)) := by
  have hempty := h.isEmpty_eq
  rw [List.isEmpty_map] at hempty
  unfold attributeLine Slot.bracketed
  rw [hempty]
  split
  · exact .nil
  · refine Spread.one ((Yields.bracketed h.join).yields.cast ?_)
    simp [Part.lexemes]

theorem attributed_yields (h : SpellsEach ts (slots.map Slot.parts)) {ks : List Lexeme} (ht : Yields t ks) :
    Yields (attributed ts t) (Part.spell (Slot.bracketed slots) ++ ks) := by
  have hempty := h.isEmpty_eq
  rw [List.isEmpty_map] at hempty
  unfold attributed Slot.bracketed
  rw [hempty]
  split
  · exact ht
  · have hall := ((Yields.bracketed h.join).append YieldsAlways.space).before ht
    simp only [List.append_assoc] at hall ⊢
    refine hall.cast ?_
    simp [Part.lexemes]

/-- An attribute with one argument. -/
theorem argument_written {e : Expr} (h : Slot.AllSource [⟨name, [e]⟩]) :
    ∃ t, (∀ n, expr n 0 e = .ok t) ∧ SpellsEach [name ++ "(" ++ t ++ ")"] [(Slot.mk name [e]).parts] := by
  obtain ⟨hname, hargs⟩ := h _ List.mem_cons_self
  obtain ⟨t, ht, yt⟩ := expr_written (hargs e List.mem_cons_self) 0
  refine ⟨t, ht, .cons (slot_yields name hname (by simp) (yt.cast ?_)) .nil⟩
  simp [Part.separate, Part.lexemes]

/-- An attribute as it was written. -/
theorem given_written {α : Type} {a : Attr α} {known : List Expr} (spell : α → Text) (ha : a.Given)
    (h : Slot.AllSource (Slot.ofAttr name a known)) :
    ∃ ts, (∀ n, attr n name a spell = .ok ts) ∧ SpellsEach ts ((Slot.ofAttr name a known).map Slot.parts) := by
  obtain ⟨e, value⟩ := a
  cases ha
  unfold Slot.ofAttr attr at *
  cases e with
  | absent => exact ⟨[], fun n => rfl, .nil⟩
  | _ =>
    obtain ⟨t, ht, yt⟩ := argument_written h
    exact ⟨_, fun n => by simp only [ht]; rfl, yt⟩

/-- An attribute as it was written, or with a value that is spelled like a name. -/
theorem attr_written {α : Type} {v : α} {a : Attr α} (spell : α → Text) (ha : a.GivenOr v)
    (hspell : Lexer.isName (spell v)) (h : Slot.AllSource (Slot.ofAttr name a [.name {} (spell v)])) :
    ∃ ts, (∀ n, attr n name a spell = .ok ts) ∧
      SpellsEach ts ((Slot.ofAttr name a [.name {} (spell v)]).map Slot.parts) := by
  obtain hgiven | rfl := ha
  · exact given_written spell hgiven h
  · have hname := (h _ List.mem_cons_self).1
    refine ⟨[name ++ "(" ++ spell v ++ ")"], fun n => rfl, .cons ?_ .nil⟩
    refine slot_yields name hname (by simp) ((Yields.name hspell).cast ?_)
    simp [Part.separate, Part.lexemes, Expr.methods, lexemes]

/-- An attribute that is true without an argument. -/
theorem flag_written {a : Attr Bool} (ha : a.GivenOr true) (h : Slot.AllSource (Slot.ofAttr name a [])) :
    ∃ ts, (∀ n, flag n name a = .ok ts) ∧ SpellsEach ts ((Slot.ofAttr name a []).map Slot.parts) := by
  obtain hvalue | rfl := ha
  · obtain ⟨ts, hts, yts⟩ := given_written Text.ofBool hvalue h
    refine ⟨ts, fun n => ?_, yts⟩
    obtain ⟨e, value⟩ := a
    cases hvalue
    unfold flag
    cases e <;> exact hts n
  · have hname := (h _ List.mem_cons_self).1
    refine ⟨[name], fun n => rfl, .cons ((Yields.name hname).cast ?_) .nil⟩
    simp [Slot.parts, Part.lexemes]

end

theorem colon_always : YieldsAlways ": " [TokenKind.lexeme .colon] := .spaced (k := .colon) (by decide)

theorem equal_always : YieldsAlways " = " [TokenKind.lexeme .equal] := yields_operator (k := .equal) (by decide)

theorem semicolon_tail : Tail ";" [TokenKind.lexeme .semicolon] :=
  .always (.mark (k := .semicolon) (by decide)) rfl

theorem let_written {d : VarDecl} (h : ∀ p ∈ d.parts, p.isSource) :
    ∃ type init, (∀ n, optional n ": " d.type = .ok type) ∧ (∀ n, optional n " = " d.init = .ok init) ∧
      Yields ("let " ++ d.name ++ type ++ init ++ ";") (Part.spell d.parts) := by
  simp only [VarDecl.parts, List.forall_mem_cons, List.forall_mem_append] at h
  obtain ⟨-, hname, htype, hinit, -⟩ := h
  obtain ⟨type, ht, yt⟩ := optional_written colon_always rfl source_type htype
  obtain ⟨init, hi, yi⟩ := optional_written equal_always rfl source_expr hinit
  refine ⟨type, init, ht, hi, ?_⟩
  have hlet : YieldsAlways "let " [TokenKind.lexeme .kwLet] := .keyword (k := .kwLet) (by decide)
  have hline := (((hlet.before (Yields.name hname)).tail yt).tail yi).tail semicolon_tail
  refine hline.cast ?_
  simp [VarDecl.parts, Part.lexemes]

theorem constant_written {d : ConstDecl} (h : ∀ p ∈ d.parts, p.isSource) :
    ∃ t, (∀ n, constant n d = .ok t) ∧ Yields t (Part.spell d.parts) := by
  simp only [ConstDecl.parts, List.forall_mem_cons, List.forall_mem_append] at h
  obtain ⟨-, hname, htype, -, hvalue, -⟩ := h
  obtain ⟨type, ht, yt⟩ := optional_written colon_always rfl source_type htype
  obtain ⟨value, hv, yv⟩ := expr_written (source_expr hvalue).1 0
  refine ⟨"const " ++ d.name ++ type ++ " = " ++ value ++ ";", fun n => ?_, ?_⟩
  · simp only [constant, ht, hv]
    rfl
  · have hconst : YieldsAlways "const " [TokenKind.lexeme .kwConst] := .keyword (k := .kwConst) (by decide)
    have hline := (((hconst.before (Yields.name hname)).tail yt).tail
      (Tail.before equal_always rfl yv)).tail semicolon_tail
    simp only [List.append_assoc] at hline ⊢
    refine hline.cast ?_
    simp [ConstDecl.parts, Part.lexemes]

theorem keyword_always {k : TokenKind} (h : k ∈ TokenKind.keywords) : YieldsAlways (" " ++ (k.text ++ " ")) [k.lexeme] :=
  YieldsAlways.space.append (.keyword h)

theorem for_always : YieldsAlways "for " [TokenKind.lexeme .kwFor] := .keyword (k := .kwFor) (by decide)

theorem in_always : YieldsAlways " in " [TokenKind.lexeme .kwIn] := keyword_always (k := .kwIn) (by decide)

theorem arrow_always : YieldsAlways " -> " [TokenKind.lexeme .arrow] := yields_operator (k := .arrow) (by decide)

theorem colon_between : YieldsAlways " : " [TokenKind.lexeme .colon] := yields_operator (k := .colon) (by decide)

theorem assignOp_text {op : AssignOp} (h : op ∈ AssignOp.named) :
    op.text = op.kind.text ∧ op.kind ∈ TokenKind.symbols := by
  revert op
  decide

/-- Lines that need no braces around them where they stand. -/
def WrittenAs (s : Stmt) (b : Bool) : Prop :=
  ∃ ls, (∀ n, lines n b s = .ok ls) ∧ Spread ls (Part.spell (s.parts b))

theorem WrittenAs.one {s : Stmt} {b : Bool} {t : Text} (ht : ∀ n, lines n b s = .ok [t])
    (yt : Yields t (Part.spell (s.parts b))) : WrittenAs s b := ⟨[t], ht, .one yt⟩

theorem expr_line {s : Span} {e : Expr} {b : Bool} (hassign : e.isAssign = false)
    (h : ∀ p ∈ (Stmt.expr s e).parts b, p.isSource) : WrittenAs (.expr s e) b := by
  have hparts : (Stmt.expr s e).parts b = [.expr 0 e, .mark .semicolon] := by
    cases e with
    | assign => cases hassign
    | _ => rfl
  rw [hparts] at h
  obtain ⟨t, ht, yt⟩ := expr_written (source_expr (h _ List.mem_cons_self)).1 0
  refine .one (t := t ++ ";") (fun n => by simp only [lines, ht]; rfl) ?_
  rw [hparts]
  refine (yt.tail semicolon_tail).cast ?_
  simp [Part.lexemes]

theorem assign_line {s : Span} {i : ExprInfo} {op : AssignOp} {l r : Expr} {b : Bool} (hop : op ∈ AssignOp.named)
    (h : ∀ p ∈ (Stmt.expr s (.assign i op l r)).parts b, p.isSource) : WrittenAs (.expr s (.assign i op l r)) b := by
  simp only [Stmt.parts, Stmt.exprParts, List.forall_mem_cons] at h
  obtain ⟨hleft, -, hright, -⟩ := h
  obtain ⟨htext, hsymbol⟩ := assignOp_text hop
  have hl : l.Sourced := by simpa [Part.isSource, Expr.Sourced] using hleft
  obtain ⟨tl, htl, yl⟩ := expr_written hl unaryLevel
  obtain ⟨tr, htr, yr⟩ := expr_written (source_expr hright).1 0
  refine .one (t := tl ++ " " ++ op.text ++ " " ++ tr ++ ";") (fun n => ?_) ?_
  · simp only [lines, expr, htl, htr, bind, Except.bind]
    rfl
  · rw [htext]
    refine ((Yields.operands yl hsymbol yr).tail semicolon_tail).cast ?_
    simp [Stmt.parts, Stmt.exprParts, Part.lexemes]

theorem return_line {s : Span} {e : Expr} {b : Bool} (h : ∀ p ∈ (Stmt.returnWith s e).parts b, p.isSource) :
    WrittenAs (.returnWith s e) b := by
  have hreturn : Yields "return" [TokenKind.lexeme .kwReturn] := Yields.word (t := "return") (by decide)
  have hparts : (Stmt.returnWith s e).parts b =
      .mark .kwReturn :: ((if e.isAbsent then [] else [.expr 0 e]) ++ [.mark .semicolon]) := rfl
  rw [hparts] at h
  cases habsent : e.isAbsent with
  | true =>
    refine .one (t := "return;") (fun n => by simp only [lines, optional, habsent]; rfl) ?_
    rw [hparts, habsent]
    exact (hreturn.tail semicolon_tail).cast rfl
  | false =>
    rw [habsent] at h
    obtain ⟨t, ht, yt⟩ := expr_written (source_expr (h (.expr 0 e) (by simp))).1 0
    refine .one (t := "return" ++ (" " ++ t) ++ ";") (fun n => ?_) ?_
    · simp only [lines, optional, habsent, ht]
      rfl
    · rw [hparts, habsent]
      refine ((hreturn.tail (Tail.before .space rfl yt)).tail semicolon_tail).cast ?_
      simp [Part.lexemes]

/-- Two marks on a line. -/
theorem marks_line {s : Stmt} {b : Bool} {t : Text} {k : TokenKind} (ht : ∀ n, lines n b s = .ok [t ++ ";"])
    (yt : Yields t [k.lexeme]) (hparts : s.parts b = [.mark k, .mark .semicolon]) : WrittenAs s b := by
  refine .one ht ?_
  rw [hparts]
  exact (yt.tail semicolon_tail).cast rfl

theorem allLines_written {body : List Stmt} (h : ∀ s ∈ body, WrittenAs s false) :
    ∃ ls, (∀ n, allLines n body = .ok ls) ∧ Spread ls (Part.spell (Stmt.allParts body)) := by
  induction body with
  | nil => exact ⟨[], fun n => by rw [allLines], .nil⟩
  | cons s body ih =>
    rw [List.forall_mem_cons] at h
    obtain ⟨ls, hls, yls⟩ := h.1
    obtain ⟨ms, hms, yms⟩ := ih h.2
    refine ⟨ls ++ ms, fun n => by simp only [allLines, hls, hms]; rfl, ?_⟩
    rw [Stmt.allParts, Part.spell_append]
    exact yls.append yms

theorem braces_written {ls : List Text} {ps : List Part} (h : Spread ls (Part.spell ps)) :
    Spread (braces ls) (Part.spell (Part.braces ps)) := by
  refine h.braces.cast ?_
  simp [Part.braces, Part.lexemes]

/-- The condition of an arm or of a loop, behind the words in front of it. -/
theorem condition_line {keyword t : Text} {ks ls : List Lexeme} (hk : YieldsAlways (keyword ++ " ") ks) (yt : Yields t ls) :
    Yields (keyword ++ " (" ++ t ++ ")")
      (ks ++ TokenKind.lexeme .leftParen :: (ls ++ [TokenKind.lexeme .rightParen])) := by
  have hline := hk.before (yields_parens yt).yields
  have hopen : Text.ofString " (" = " " ++ "(" := rfl
  rw [hopen]
  simp only [List.append_assoc] at hline ⊢
  exact hline

/-- The arms of a chain of conditions behind the words in front of the first one. -/
theorem armLines_written {arms : List (Expr × Stmt)} (h : ∀ a ∈ arms, a.1.Sourced ∧ WrittenAs a.2 true)
    (hne : arms ≠ []) {keyword : Text} {ks : List Lexeme} (hk : YieldsAlways (keyword ++ " ") ks) :
    ∃ ls, (∀ n, armLines n keyword arms = .ok ls) ∧ Spread ls (ks ++ Part.spell (Stmt.armParts arms)) := by
  induction arms generalizing keyword ks with
  | nil => exact absurd rfl hne
  | cons a arms ih =>
    obtain ⟨c, s⟩ := a
    rw [List.forall_mem_cons] at h
    obtain ⟨⟨hc, ls, hls, yls⟩, hrest⟩ := h
    obtain ⟨t, ht, yt⟩ := expr_written hc 0
    have harm := Spread.cons (condition_line hk yt) (braces_written yls)
    cases arms with
    | nil =>
      refine ⟨(keyword ++ " (" ++ t ++ ")") :: (braces ls ++ []), fun n => ?_, ?_⟩
      · simp only [armLines, ht, hls, bind, Except.bind]
        rfl
      · rw [List.append_nil]
        refine harm.cast ?_
        simp [Stmt.armParts, Part.lexemes]
    | cons a' arms =>
      have helse : YieldsAlways ("else if" ++ " ") [TokenKind.lexeme .kwElse, TokenKind.lexeme .kwIf] :=
        (YieldsAlways.keyword (k := .kwElse) (by decide)).append (.keyword (k := .kwIf) (by decide))
      obtain ⟨ms, hms, yms⟩ := ih hrest (List.cons_ne_nil _ _) helse
      refine ⟨(keyword ++ " (" ++ t ++ ")") :: (braces ls ++ ms), fun n => ?_, ?_⟩
      · rw [armLines]
        simp only [ht, hls, hms, bind, Except.bind]
        rfl
      · have hparts : Stmt.armParts ((c, s) :: a' :: arms) =
            .mark .leftParen :: .expr 0 c :: .mark .rightParen :: (Part.braces (s.parts true) ++
              .mark .kwElse :: .mark .kwIf :: Stmt.armParts (a' :: arms)) := by
          rw [Stmt.armParts]
          rfl
        rw [hparts]
        refine (harm.append yms).cast ?_
        simp only [Part.spell_cons, Part.spell_append, Part.lexemes, List.append_assoc, List.cons_append, List.nil_append]

theorem unroll_written {u : Attr Unroll} (hu : u.GivenOr .always)
    (h : ∀ p ∈ Slot.bracketed (Slot.ofUnroll u), p.isSource) :
    ∃ ts, (∀ n, attr n "unroll" u Unroll.text = .ok ts) ∧
      Spread (attributeLine ts) (Part.spell (Slot.bracketed (Slot.ofUnroll u))) := by
  have hslots := (Slot.allSource_iff _).mp h
  obtain ⟨ts, hts, yts⟩ := attr_written Unroll.text hu (by decide) hslots
  exact ⟨ts, hts, attributeLine_spread yts⟩

theorem branch_written {s : Span} {isConst : Bool} {arms : List (Expr × Stmt)} {other : Stmt} {b : Bool} (hne : arms ≠ [])
    (harms : ∀ a ∈ arms, a.1.Sourced ∧ WrittenAs a.2 true) (hother : other.isAbsent = false → WrittenAs other true) :
    WrittenAs (.branch s isConst arms other) b := by
  obtain ⟨keyword, marks, hkeyword, hmarks, hk⟩ : ∃ keyword marks, keyword = (if isConst then "const if" else "if" : Text) ∧
      marks = (if isConst then [.mark .kwConst] else [] ++ [] : List Part) ∧
      YieldsAlways (keyword ++ " ") (Part.spell (marks ++ [.mark .kwIf])) := by
    cases isConst with
    | true =>
      exact ⟨_, _, rfl, rfl, (YieldsAlways.keyword (k := .kwConst) (by decide)).append (.keyword (k := .kwIf) (by decide))⟩
    | false => exact ⟨_, _, rfl, rfl, .keyword (k := .kwIf) (by decide)⟩
  obtain ⟨ls, hls, yls⟩ := armLines_written harms hne hk
  have hparts : (Stmt.branch s isConst arms other).parts b = marks ++ (.mark .kwIf :: (Stmt.armParts arms ++
      if other.isAbsent then [] else .mark .kwElse :: Part.braces (Stmt.parts true other))) := by
    rw [Stmt.parts, hmarks]
    cases isConst <;> rfl
  cases habsent : other.isAbsent with
  | true =>
    have habs : other = .absent := by
      cases other <;> first
        | rfl
        | cases habsent
    refine ⟨ls, fun n => ?_, ?_⟩
    · rw [habs, lines, ← hkeyword, hls]
      rfl
    · rw [hparts, habsent]
      refine yls.cast ?_
      simp
  | false =>
    obtain ⟨ms, hms, yms⟩ := hother habsent
    have helse : Yields "else" [TokenKind.lexeme .kwElse] := Yields.word (t := "else") (by decide)
    refine ⟨ls ++ (Text.ofString "else" :: braces ms), fun n => ?_, ?_⟩
    · rw [lines, ← hkeyword, hls]
      cases other with
      | absent => cases habsent
      | _ =>
        simp only [hms, bind, Except.bind]
        rfl
    · rw [hparts, habsent]
      refine (yls.append (.cons helse (braces_written yms))).cast ?_
      simp [Part.lexemes]

/-- A statement that the parser gives has lines, and these have the tokens of its parts. -/
theorem lines_written {s : Stmt} (hf : s.Formed) (hs : ∀ p ∈ s.parts false, p.isSource) (b : Bool) : WrittenAs s b := by
  have hmark : ∀ k, (Part.mark k).isSource := fun _ => rfl
  induction hf generalizing b with
  | expr hassign => exact expr_line hassign hs
  | assign hop => exact assign_line hop hs
  | @letVar s d =>
    obtain ⟨type, init, ht, hi, yt⟩ := let_written hs
    exact .one (fun n => by simp only [lines, ht, hi]; rfl) yt
  | const =>
    obtain ⟨t, ht, yt⟩ := constant_written hs
    exact .one (fun n => by simp only [lines, ht]; rfl) yt
  | @block s i body _ ih =>
    rw [Stmt.parts, if_neg (by decide), Stmt.parts, Part.forall_braces hmark, Stmt.allParts_eq,
      List.forall_mem_flatMap] at hs
    obtain ⟨ls, hls, yls⟩ := allLines_written fun x hx => ih x hx (hs x hx) false
    cases b with
    | true => exact ⟨ls, fun n => by simp only [lines, hls]; rfl, yls⟩
    | false => exact ⟨braces ls, fun n => by simp only [lines, hls]; rfl, braces_written yls⟩
  | @branch s isConst arms other hne _ _ ih ihother =>
    simp only [Stmt.parts, List.forall_mem_append, List.forall_mem_cons] at hs
    obtain ⟨-, -, harms, hother⟩ := hs
    rw [Stmt.forall_armParts hmark] at harms
    refine branch_written hne (fun a ha => ⟨(source_expr (harms a ha).1).1, ?_⟩) fun habsent => ?_
    · exact ih a ha ((Stmt.forall_inside hmark _ _).mp (harms a ha).2) true
    · rw [habsent, if_neg (by decide), List.forall_mem_cons, Part.forall_braces hmark] at hother
      exact ihother habsent ((Stmt.forall_inside hmark _ _).mp hother.2) true
  | @forRange s h body hu _ ih =>
    simp only [Stmt.parts, List.forall_mem_append, List.forall_mem_cons] at hs
    obtain ⟨hunroll, -, hname, -, hstart, -, hstop, hstep, hbody⟩ := hs
    obtain ⟨attrs, hattrs, yattrs⟩ := unroll_written hu hunroll
    obtain ⟨start, ht, yt⟩ := expr_written (source_expr hstart).1 0
    obtain ⟨stop, hp, yp⟩ := expr_written (source_expr hstop).1 0
    obtain ⟨step, he, ye⟩ := optional_written colon_between rfl source_expr hstep
    obtain ⟨ls, hls, yls⟩ := ih ((Stmt.forall_inside hmark _ _).mp ((Part.forall_braces hmark _).mp hbody)) true
    have hline := (((for_always.before (Yields.name hname)).tail (Tail.before in_always rfl yt)).tail
      (Tail.before arrow_always rfl yp)).tail ye
    have hall : Yields ("for " ++ h.name ++ " in " ++ start ++ " -> " ++ stop ++ step) _ :=
      hline.of_eq (by simp only [List.append_assoc])
    refine ⟨attributeLine attrs ++ (("for " ++ h.name ++ " in " ++ start ++ " -> " ++ stop ++ step) :: braces ls),
      fun n => ?_, (yattrs.append (.cons hall (braces_written yls))).cast ?_⟩
    · simp only [lines, hattrs, ht, hp, he, hls, bind, Except.bind]
      rfl
    · simp [Stmt.parts, Part.lexemes]
  | @forEach s h body hu _ ih =>
    simp only [Stmt.parts, List.forall_mem_append, List.forall_mem_cons] at hs
    obtain ⟨hunroll, -, hname, -, harray, hbody⟩ := hs
    obtain ⟨attrs, hattrs, yattrs⟩ := unroll_written hu hunroll
    obtain ⟨array, ha, ya⟩ := expr_written (source_expr harray).1 0
    obtain ⟨ls, hls, yls⟩ := ih ((Stmt.forall_inside hmark _ _).mp ((Part.forall_braces hmark _).mp hbody)) true
    have hline := (for_always.before (Yields.name hname)).tail (Tail.before in_always rfl ya)
    have hall : Yields ("for " ++ h.name ++ " in " ++ array) _ := hline.of_eq (by simp only [List.append_assoc])
    refine ⟨attributeLine attrs ++ (("for " ++ h.name ++ " in " ++ array) :: braces ls), fun n => ?_,
      (yattrs.append (.cons hall (braces_written yls))).cast ?_⟩
    · simp only [lines, hattrs, ha, hls, bind, Except.bind]
      rfl
    · simp [Stmt.parts, Part.lexemes]
  | @loop s c u body hu _ ih =>
    simp only [Stmt.parts, List.forall_mem_append, List.forall_mem_cons] at hs
    obtain ⟨hunroll, -, -, hcond, -, hbody⟩ := hs
    obtain ⟨attrs, hattrs, yattrs⟩ := unroll_written hu hunroll
    obtain ⟨cond, hc, yc⟩ := expr_written (source_expr hcond).1 0
    obtain ⟨ls, hls, yls⟩ := ih ((Stmt.forall_inside hmark _ _).mp ((Part.forall_braces hmark _).mp hbody)) true
    have hwhile : YieldsAlways ("while" ++ " ") [TokenKind.lexeme .kwWhile] := .keyword (k := .kwWhile) (by decide)
    refine ⟨attributeLine attrs ++ (("while (" ++ cond ++ ")") :: braces ls), fun n => ?_,
      (yattrs.append (.cons (condition_line hwhile yc) (braces_written yls))).cast ?_⟩
    · simp only [lines, hattrs, hc, hls, bind, Except.bind]
      rfl
    · simp [Stmt.parts, Part.lexemes]
  | returnWith => exact return_line hs
  | discard => exact marks_line (t := "discard") (fun n => rfl) (Yields.word (by decide)) rfl
  | breakLoop => exact marks_line (t := "break") (fun n => rfl) (Yields.word (by decide)) rfl
  | continueLoop => exact marks_line (t := "continue") (fun n => rfl) (Yields.word (by decide)) rfl
  | noOp => exact .one (t := ";") (fun n => rfl) (semicolon_tail.yields.cast rfl)

end Shading.Canonical
