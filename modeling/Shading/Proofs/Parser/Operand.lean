import Shading.Proofs.Parser.Expression

/-! Calls, indices and members are parsed from the lexemes of their operands and of what follows them. -/
namespace Shading.Parser

open Canonical (lexemes separatedLexemes bracketLexemes memberLexemes postfixLevel)

section

variable {e : Expr} {t : Token} {ts us : List Token} {fuel : Nat}

theorem postfixes_call {args : List Expr} (hopen : headKind ts = .leftParen)
    (hargs : arguments fuel ts = .ok (args, us)) :
    postfixes (fuel + 1) e ts = postfixes fuel (.call (untyped e.span) e args) us := by
  rw [postfixes, bind_of_ok (check_run _ _), hopen]
  simp only [beq_self_eq_true, if_true]
  rw [bind_of_ok hargs]

theorem postfixes_index {close : Token} {indices : List Expr} (hopen : t.kind = .leftBracket)
    (hindices : indexList fuel ts = .ok (indices, close :: us)) (hclose : close.kind = .rightBracket) :
    postfixes (fuel + 1) e (t :: ts) = postfixes fuel (indexed e indices) us := by
  rw [postfixes, bind_of_ok (check_run _ _), headKind_cons, hopen]
  simp only [show (TokenKind.leftBracket == TokenKind.leftParen) = false from rfl, Bool.false_eq_true,
    if_false]
  rw [bind_of_ok (accept_of_eq hopen (by decide))]
  simp only [if_true]
  rw [bind_of_ok hindices, bind_of_ok (expect_of_eq hclose (by decide))]

/-- A name after a point is a method if arguments follow it and a member if not. -/
theorem postfixes_dot {name : Token} (hdot : t.kind = .dot) (hname : name.kind = .identifier) :
    postfixes (fuel + 1) e (t :: name :: ts) =
      if headKind ts == .leftParen then
        (arguments fuel >>= fun args =>
          postfixes fuel (.method (untyped e.span) e name.lexeme args)) ts
      else postfixes fuel (selected e ⟨name.lexeme, name.span⟩) ts := by
  rw [postfixes, bind_of_ok (check_run _ _), headKind_cons, hdot]
  simp only [show (TokenKind.dot == TokenKind.leftParen) = false from rfl, Bool.false_eq_true, if_false]
  rw [bind_of_ok (accept_of_ne (by rw [headKind_cons, hdot]; decide))]
  simp only [Bool.false_eq_true, if_false]
  rw [bind_of_ok (accept_of_eq hdot (by decide))]
  simp only [if_true]
  rw [bind_of_ok (expect_of_eq hname (by decide)), bind_of_ok (check_run _ _)]
  split <;> rfl

end

section

variable {e : Expr} {ts rest : List Token} {need fuel : Nat}

theorem postfixes_members {ns : List Name} (hts : Spelled ts (memberLexemes ns))
    (hrest : headKind rest ≠ .leftParen) (hf : need + 8 * ts.length ≤ fuel) :
    ∃ (ms : List Name) (fuel' : Nat), ms.map Name.unplaced = ns.map Name.unplaced ∧ need ≤ fuel' ∧
      postfixes fuel e (ts ++ rest) = postfixes fuel' (ms.foldl selected e) rest := by
  induction ns generalizing ts e fuel with
  | nil =>
    obtain rfl := hts.nil
    exact ⟨[], fuel, rfl, by omega, rfl⟩
  | cons n ns ih =>
    rw [memberLexemes, List.flatMap_cons, List.cons_append] at hts
    obtain ⟨dot, us, rfl, hdot, hus⟩ := hts.lexeme
    obtain ⟨name, vs, rfl, hname, htext, hvs⟩ := hus.cons
    simp only [List.length_cons] at hf
    obtain ⟨fuel, rfl⟩ : ∃ k, fuel = k + 1 := ⟨fuel - 1, by omega⟩
    have hnext : headKind (vs ++ rest) ≠ .leftParen := by
      cases ns with
      | nil =>
        obtain rfl := Spelled.nil hvs
        exact hrest
      | cons n₂ ns =>
        obtain ⟨dot₂, ws, rfl, hdot₂, -⟩ := Spelled.lexeme hvs
        rw [List.cons_append, headKind_cons, hdot₂]
        decide
    obtain ⟨ms, fuel', hms, hneed, hrun⟩ := ih (e := selected e ⟨name.lexeme, name.span⟩) hvs
      (by omega : need + 8 * vs.length ≤ fuel)
    refine ⟨⟨name.lexeme, name.span⟩ :: ms, fuel', ?_, hneed, ?_⟩
    · rw [List.map_cons, List.map_cons, hms, Name.unplaced, Name.unplaced, htext]
    · rw [List.cons_append, List.cons_append, postfixes_dot hdot hname,
        beq_eq_false_iff_ne.mpr hnext, List.foldl_cons]
      simp only [Bool.false_eq_true, if_false]
      exact hrun

theorem foldl_selected_member (i : ExprInfo) (b : Expr) (ns ms : List Name) :
    ms.foldl selected (.member i b ns) = .member i b (ns ++ ms) := by
  induction ms generalizing ns with
  | nil => rw [List.append_nil, List.foldl_nil]
  | cons m ms ih => rw [List.foldl_cons, selected, ih, List.append_assoc, List.singleton_append]

/-- Members selected one after the other are gathered in one node. -/
theorem foldl_selected {b : Expr} (hb : b.isMember = false) {ms : List Name} (hms : ms ≠ []) :
    ms.foldl selected b = .member (untyped b.span) b ms := by
  obtain ⟨m, ms, rfl⟩ := List.exists_cons_of_ne_nil hms
  have hfirst : selected b m = .member (untyped b.span) b [m] := by
    cases b <;> first
      | rfl
      | cases hb
  rw [List.foldl_cons, hfirst, foldl_selected_member, List.singleton_append]

/-- Indices that each stand in brackets of their own. -/
theorem postfixes_brackets {es : List Expr} (rest : List Token) (hes : ∀ x ∈ es, x.isSource ∧ Reparses x)
    (hts : Spelled ts (bracketLexemes es)) (hf : need + 8 * ts.length ≤ fuel) :
    ∃ es' fuel', Expr.unplacedList es' = Expr.unplacedList es ∧ need ≤ fuel' ∧
      postfixes fuel e (ts ++ rest) =
        postfixes fuel' (es'.foldl (fun b x => indexed b [x]) e) rest := by
  induction es generalizing ts e fuel with
  | nil =>
    rw [bracketLexemes] at hts
    obtain rfl := hts.nil
    exact ⟨[], fuel, rfl, by omega, rfl⟩
  | cons x es ih =>
    rw [bracketLexemes] at hts
    obtain ⟨opening, us, rfl, hopen, hus⟩ := hts.lexeme
    obtain ⟨inner, vs, rfl, hinner, hvs⟩ := hus.append
    obtain ⟨close, ws, rfl, hclose, hws⟩ := hvs.lexeme
    simp only [List.length_cons, List.length_append] at hf
    obtain ⟨fuel, rfl⟩ : ∃ k, fuel = k + 1 := ⟨fuel - 1, by omega⟩
    obtain ⟨xs, hxs, hindices⟩ := indexList_reparses (List.cons_ne_nil x [])
      (fun y hy => hes y (List.mem_cons.mpr (.inl (List.mem_singleton.mp hy)))) hinner
      (show headKind (close :: (ws ++ rest)) = .rightBracket from hclose) (by omega : 8 * inner.length + 7 ≤ fuel)
    obtain ⟨x', rfl, hx'⟩ : ∃ x', xs = [x'] ∧ x'.unplaced = x.unplaced := by
      rw [Expr.unplacedList_eq_map, Expr.unplacedList_eq_map, List.map_singleton] at hxs
      exact List.map_eq_singleton_iff.mp hxs
    obtain ⟨es', fuel', hes', hneed, hrun⟩ := ih (e := indexed e [x'])
      (fun y hy => hes y (List.mem_cons_of_mem _ hy)) hws (by omega : need + 8 * ws.length ≤ fuel)
    refine ⟨x' :: es', fuel', ?_, hneed, ?_⟩
    · rw [Expr.unplacedList, Expr.unplacedList, hx', hes']
    · have hstep := postfixes_index (e := e) hopen hindices hclose
      rw [List.foldl_cons, ← hrun, ← hstep, List.cons_append, List.append_assoc, List.cons_append]

theorem foldl_indexed_index (i : ExprInfo) (b : Expr) (is xs : List Expr) :
    xs.foldl (fun b x => indexed b [x]) (.index i b is) = .index i b (is ++ xs) := by
  induction xs generalizing is with
  | nil => rw [List.append_nil, List.foldl_nil]
  | cons x xs ih => rw [List.foldl_cons, indexed, ih, List.append_assoc, List.singleton_append]

theorem indexed_of_not_index {b : Expr} (hb : b.isIndex = false) (is : List Expr) :
    indexed b is = .index (untyped b.span) b is := by
  cases b <;> first
    | rfl
    | cases hb

/-- Indices taken one after the other are gathered in one node. -/
theorem foldl_indexed {b : Expr} (hb : b.isIndex = false) {xs : List Expr} (hxs : xs ≠ []) :
    xs.foldl (fun b x => indexed b [x]) b = .index (untyped b.span) b xs := by
  obtain ⟨x, xs, rfl⟩ := List.exists_cons_of_ne_nil hxs
  rw [List.foldl_cons, indexed_of_not_index hb, foldl_indexed_index, List.singleton_append]

end

section

variable {i : ExprInfo} {b : Expr}

theorem reparses_call {as : List Expr} (h : (Expr.call i b as).isSource) (hb : Reparses b)
    (has : ∀ e ∈ as, e.isSource ∧ Reparses e) : Reparses (.call i b as) := by
  refine .of_base ?_ h (fun level => by rw [lexemes, lexemes]) (fun level => rfl)
  intro ts rest need fuel hts _ _ hf
  simp only [Expr.isSource, Bool.and_eq_true, Bool.not_eq_true'] at h
  obtain ⟨⟨⟨hi, -⟩, hmember⟩, -⟩ := h
  rw [lexemes] at hts
  obtain ⟨us, vs, rfl, hus, hvs⟩ := hts.append
  obtain ⟨opening, ws, rfl, hopen, -⟩ := hvs.lexeme
  have hhead : headKind (opening :: ws ++ rest) = .leftParen := hopen
  simp only [List.length_append, List.length_cons] at hf
  obtain ⟨b', fuel₁, hb', hneed, hbase⟩ := hb.base (opening :: ws ++ rest) hus
    (fun hm => by rw [hmember] at hm; cases hm) (fun _ => by rw [hhead]; decide)
    (by omega : (need + 8 * (ws.length + 1)) + 8 * us.length ≤ fuel)
  obtain ⟨fuel₁, rfl⟩ : ∃ k, fuel₁ = k + 1 := ⟨fuel₁ - 1, by omega⟩
  obtain ⟨as', has', hargs⟩ := arguments_reparses rest has hvs
    (by rw [List.length_cons]; omega : 8 * (opening :: ws).length ≤ fuel₁ + 4)
  refine ⟨.call (untyped b'.span) b' as', fuel₁, ?_, by omega, ?_⟩
  · rw [Expr.unplaced, Expr.unplaced, unplaced_untyped hi, hb', has']
  · rw [List.append_assoc, hbase, postfixes_call hhead hargs]

theorem reparses_method {n : Text} {as : List Expr} (h : (Expr.method i b n as).isSource)
    (hb : Reparses b) (has : ∀ e ∈ as, e.isSource ∧ Reparses e) : Reparses (.method i b n as) := by
  refine .of_base ?_ h (fun level => by rw [lexemes, lexemes]) (fun level => rfl)
  intro ts rest need fuel hts _ _ hf
  simp only [Expr.isSource, Bool.and_eq_true] at h
  rw [lexemes] at hts
  obtain ⟨us, vs, rfl, hus, hvs⟩ := hts.append
  obtain ⟨dot, ws, rfl, hdot, hws⟩ := hvs.lexeme
  obtain ⟨name, ps, rfl, hname, htext, hps⟩ := hws.cons
  obtain ⟨opening, qs, rfl, hopen, -⟩ := hps.lexeme
  have hhead : headKind (dot :: name :: opening :: qs ++ rest) = .dot := hdot
  simp only [List.length_append, List.length_cons] at hf
  obtain ⟨b', fuel₁, hb', hneed, hbase⟩ := hb.base (dot :: name :: opening :: qs ++ rest) hus
    (fun _ => by rw [hhead]; decide) (fun _ => by rw [hhead]; decide)
    (by omega : (need + 8 * (qs.length + 3)) + 8 * us.length ≤ fuel)
  obtain ⟨fuel₁, rfl⟩ : ∃ k, fuel₁ = k + 1 := ⟨fuel₁ - 1, by omega⟩
  obtain ⟨as', has', hargs⟩ := arguments_reparses rest has hps
    (by rw [List.length_cons]; omega : 8 * (opening :: qs).length ≤ fuel₁ + 4)
  refine ⟨.method (untyped b'.span) b' name.lexeme as', fuel₁, ?_, by omega, ?_⟩
  · rw [Expr.unplaced, Expr.unplaced, unplaced_untyped h.1.1.1, hb', has', htext]
  · have hcall : (headKind (opening :: qs ++ rest) == .leftParen) = true := by
      rw [List.cons_append, headKind_cons, hopen]
      rfl
    rw [List.append_assoc, hbase, List.cons_append, List.cons_append, postfixes_dot hdot hname, hcall,
      if_pos rfl, bind_of_ok hargs]

theorem reparses_member {ns : List Name} (h : (Expr.member i b ns).isSource) (hb : Reparses b) :
    Reparses (.member i b ns) := by
  refine .of_base ?_ h (fun level => by rw [lexemes, lexemes]) (fun level => rfl)
  intro ts rest need fuel hts hrest _ hf
  simp only [Expr.isSource, Bool.and_eq_true, Bool.not_eq_true', List.isEmpty_eq_false_iff] at h
  obtain ⟨⟨⟨⟨hi, -⟩, hmember⟩, hne⟩, -⟩ := h
  rw [lexemes] at hts
  obtain ⟨us, vs, rfl, hus, hvs⟩ := hts.append
  have hhead : headKind (vs ++ rest) = .dot := by
    obtain ⟨n, ns, rfl⟩ := List.exists_cons_of_ne_nil hne
    obtain ⟨dot, ws, rfl, hdot, -⟩ := Spelled.lexeme hvs
    exact hdot
  rw [List.length_append] at hf
  obtain ⟨b', fuel₁, hb', hneed, hbase⟩ := hb.base (vs ++ rest) hus
    (fun _ => by rw [hhead]; decide) (fun _ => by rw [hhead]; decide)
    (by omega : (need + 8 * vs.length) + 8 * us.length ≤ fuel)
  obtain ⟨ms, fuel₂, hms, hneed₂, hmembers⟩ := postfixes_members (e := b') hvs (hrest rfl) hneed
  have hbase' : b'.isMember = false := by rw [← Expr.isMember_unplaced, hb', Expr.isMember_unplaced, hmember]
  have hne' : ms ≠ [] := by
    rintro rfl
    exact hne (List.map_eq_nil_iff.mp hms.symm)
  refine ⟨.member (untyped b'.span) b' ms, fuel₂, ?_, hneed₂, ?_⟩
  · rw [Expr.unplaced, Expr.unplaced, unplaced_untyped hi, hb', hms]
  · rw [List.append_assoc, hbase, hmembers, foldl_selected hbase' hne']

theorem reparses_index {is : List Expr} (h : (Expr.index i b is).isSource) (hb : Reparses b)
    (his : ∀ e ∈ is, e.isSource ∧ Reparses e) : Reparses (.index i b is) := by
  refine .of_base ?_ h (fun level => by rw [lexemes, lexemes]) (fun level => rfl)
  intro ts rest need fuel hts _ _ hf
  simp only [Expr.isSource, Bool.and_eq_true, Bool.not_eq_true', List.isEmpty_eq_false_iff] at h
  obtain ⟨⟨⟨⟨hi, -⟩, hindex⟩, hne⟩, -⟩ := h
  have hbase' : ∀ b' : Expr, b'.unplaced = b.unplaced → b'.isIndex = false := by
    intro b' hb'
    rw [← Expr.isIndex_unplaced, hb', Expr.isIndex_unplaced, hindex]
  rw [lexemes] at hts
  split at hts
  · -- the indices of a name stand in one pair of brackets
    obtain ⟨us, vs, rfl, hus, hvs⟩ := hts.append
    obtain ⟨opening, ws, rfl, hopen, hws⟩ := hvs.lexeme
    obtain ⟨inner, ps, rfl, hinner, hps⟩ := hws.append
    obtain ⟨close, qs, rfl, hclose, hqs⟩ := hps.lexeme
    obtain rfl := hqs.nil
    have hhead : headKind (opening :: (inner ++ [close]) ++ rest) = .leftBracket := hopen
    simp only [List.length_append, List.length_cons, List.length_nil] at hf
    obtain ⟨b', fuel₁, hb', hneed, hbase⟩ := hb.base
      (opening :: (inner ++ [close]) ++ rest) hus
      (fun _ => by rw [hhead]; decide) (fun _ => by rw [hhead]; decide)
      (by omega : (need + 8 * (inner.length + 2)) + 8 * us.length ≤ fuel)
    obtain ⟨fuel₁, rfl⟩ : ∃ k, fuel₁ = k + 1 := ⟨fuel₁ - 1, by omega⟩
    obtain ⟨is', his', hlist⟩ := indexList_reparses hne his hinner
      (show headKind (close :: rest) = .rightBracket from hclose) (by omega : 8 * inner.length + 7 ≤ fuel₁)
    refine ⟨.index (untyped b'.span) b' is', fuel₁, ?_, by omega, ?_⟩
    · rw [Expr.unplaced, Expr.unplaced, unplaced_untyped hi, hb', his']
    · rw [List.append_assoc, hbase, List.cons_append, List.append_assoc, List.singleton_append,
        postfixes_index hopen hlist hclose, indexed_of_not_index (hbase' b' hb')]
  · obtain ⟨us, vs, rfl, hus, hvs⟩ := hts.append
    have hhead : headKind (vs ++ rest) = .leftBracket := by
      obtain ⟨x, xs, rfl⟩ := List.exists_cons_of_ne_nil hne
      rw [bracketLexemes] at hvs
      obtain ⟨opening, ws, rfl, hopen, -⟩ := hvs.lexeme
      exact hopen
    rw [List.length_append] at hf
    obtain ⟨b', fuel₁, hb', hneed, hbase⟩ := hb.base (vs ++ rest) hus
      (fun _ => by rw [hhead]; decide) (fun _ => by rw [hhead]; decide)
      (by omega : (need + 8 * vs.length) + 8 * us.length ≤ fuel)
    obtain ⟨is', fuel₂, his', hneed₂, hbrackets⟩ := postfixes_brackets (e := b') rest his hvs hneed
    have hne' : is' ≠ [] := by
      rintro rfl
      rw [Expr.unplacedList_eq_map, Expr.unplacedList_eq_map] at his'
      exact hne (List.map_eq_nil_iff.mp his'.symm)
    refine ⟨.index (untyped b'.span) b' is', fuel₂, ?_, hneed₂, ?_⟩
    · rw [Expr.unplaced, Expr.unplaced, unplaced_untyped hi, hb', his']
    · rw [List.append_assoc, hbase, hbrackets, foldl_indexed (hbase' b' hb') hne']

end

end Shading.Parser
