import Shading.Proofs.Parser.Statement

/-! Declarations and modules are parsed from the tokens of their parts, and are written as before: the canonical
text of a module that was parsed is its own canonical text. -/
namespace Shading

open Shading.Expr (Reread RereadAll)

namespace Parser

variable {α β : Type}

theorem dottedRest_run {ns : List Text} {name : Text} {ts rest : List Token} {fuel : Nat}
    (hts : Spelled ts (Canonical.memberLexemes (ns.map (⟨·, {}⟩)))) (hrest : headKind rest ≠ .dot)
    (hf : ns.length + 1 ≤ fuel) :
    dottedRest name fuel (ts ++ rest) = .ok (name ++ ns.flatMap (Text.byte '.' :: ·), rest) := by
  induction ns generalizing name ts fuel with
  | nil =>
    obtain ⟨fuel, rfl⟩ : ∃ k, fuel = k + 1 := ⟨fuel - 1, by omega⟩
    obtain rfl := hts.nil
    have hsecond : peekSecond rest = .ok (headKind (rest.drop 1), rest) := rfl
    rw [List.nil_append, dottedRest, bind_of_ok (check_run _ _), bind_of_ok hsecond, beq_eq_false_iff_ne.mpr hrest,
      List.flatMap_nil, List.append_nil]
    rfl
  | cons n ns ih =>
    rw [List.length_cons] at hf
    obtain ⟨fuel, rfl⟩ : ∃ k, fuel = k + 1 := ⟨fuel - 1, by omega⟩
    obtain ⟨dot, us, rfl, hdot, hus⟩ := Spelled.lexeme hts
    obtain ⟨part, vs, rfl, hpart, hlexeme, hvs⟩ := hus.cons
    simp only at hpart hlexeme
    have hsecond : peekSecond (dot :: part :: vs ++ rest) = .ok (.identifier, dot :: part :: vs ++ rest) := by
      rw [← hpart]
      rfl
    rw [dottedRest, bind_of_ok (check_run _ _), bind_of_ok hsecond, List.cons_append, headKind_cons, hdot]
    simp only [beq_self_eq_true, decide_true, Bool.and_self, if_true]
    rw [bind_of_ok (advance_run (by rw [hdot]; decide)), List.cons_append,
      bind_of_ok (advance_run (by rw [hpart]; decide)), ih hvs (by omega), hlexeme, List.flatMap_cons]
    simp only [List.append_assoc]
    rfl

theorem reads_path {t : Text} {fuel : Nat} (hf : (Part.path t).lexemes.length + 1 ≤ fuel) :
    Reads (dottedName fuel) [.path t] (· ≠ .dot) (· = t) := by
  obtain ⟨n, ns, hcut, ht⟩ := Text.join_cut (Text.byte '.') t
  have hlexemes : (Part.path t).lexemes = (.identifier, n) :: Canonical.memberLexemes (ns.map (⟨·, {}⟩)) := by
    rw [Part.lexemes, Part.pathLexemes, hcut]
  have hlength : (Canonical.memberLexemes (ns.map (⟨·, {}⟩))).length = 2 * ns.length := by
    simp [Canonical.memberLexemes, List.length_flatMap, Function.comp_def, Nat.mul_comm]
  refine ⟨fun {ts rest} hts hrest => ?_⟩
  rw [Part.spell_cons, Part.spell_nil, List.append_nil, hlexemes] at hts
  rw [hlexemes, List.length_cons] at hf
  obtain ⟨first, us, rfl, hkind, hlexeme, hus⟩ := hts.cons
  refine ⟨t, ?_, rfl⟩
  rw [dottedName, List.cons_append, bind_of_ok (expect_of_eq (k := .identifier) hkind (by decide)), hlexeme,
    dottedRest_run hus hrest (by omega), ← ht]

/-- A name on its own is read where names joined by points are. -/
theorem reads_dottedName {n : Text} {fuel : Nat} (hn : Lexer.isName n) (hf : 2 ≤ fuel) :
    Reads (dottedName fuel) [.name n] (· ≠ .dot) (· = n) := by
  have hlexemes : (Part.path n).lexemes = [(.identifier, n)] := by
    rw [Part.lexemes, Part.pathLexemes, Text.cut_of_not_mem (Lexer.dot_not_mem_name hn)]
    rfl
  refine ⟨fun hts hrest => (reads_path (t := n) (by rw [hlexemes]; exact hf)).run ?_ hrest⟩
  rw [Part.spell_cons, hlexemes]
  exact hts

/-- An item with the names of another one. -/
def SameItem (i' i : ImportItem) : Prop := i'.name = i.name ∧ i'.rename = i.rename

theorem importLine_same {items' items : List ImportItem} (h : List.Forall₂ SameItem items' items) (name : Text) :
    Canonical.importLine name items' = Canonical.importLine name items := by
  have hnames (f : Text → Text → Text) : items'.map (fun i => f i.name i.rename) = items.map fun i => f i.name i.rename := by
    induction h with
    | nil => rfl
    | cons hi _ ih => rw [List.map_cons, List.map_cons, ih, hi.1, hi.2]
  have hempty : items'.isEmpty = items.isEmpty := by
    cases h <;> rfl
  unfold Canonical.importLine
  simp only [hempty, hnames fun name rename => if rename.isEmpty then name else name ++ " as " ++ rename]

/-- The parts behind the name of an item. -/
def renameParts (i : ImportItem) : List Part := if i.rename.isEmpty then [] else [.mark .kwAs, .name i.rename]

/-- The parts behind an item. -/
def moreItems (items : List ImportItem) : List Part :=
  if items.isEmpty then [] else .mark .comma :: Part.separate (items.map ImportItem.parts)

theorem separate_items (i : ImportItem) (items : List ImportItem) :
    Part.separate ((i :: items).map ImportItem.parts) = .name i.name :: (renameParts i ++ moreItems items) := by
  cases items with
  | nil => exact congrArg (Part.name i.name :: ·) (List.append_nil _).symm
  | cons => rfl

theorem reads_rename {i i' : ImportItem} {f : ImportItem → Parser β} {ps : List Part} {follow : TokenKind → Prop}
    {Q : β → Prop} (hi : i'.name = i.name ∧ i'.rename = []) (hnext : ∀ k, follow k → Part.front ps k ≠ .kwAs)
    (hf : ∀ named, SameItem named i → Reads (f named) ps follow Q) :
    Reads (do
      let named ← if ← accept .kwAs then do
          let tok ← expect .identifier
          pure { i' with rename := tok.lexeme }
        else pure i'
      f named) (renameParts i ++ ps) follow Q := by
  unfold renameParts
  cases hempty : i.rename.isEmpty with
  | true =>
    have hrename : i.rename = [] := List.isEmpty_iff.mp hempty
    exact .skip hnext (.neg (by decide) (.given (hf i' ⟨hi.1, hi.2.trans hrename.symm⟩)))
  | false => exact .accept (by decide) (.pos rfl (.name fun tok htok => .given (hf _ ⟨hi.1, htok⟩)))

theorem reads_importItems {i i' : ImportItem} {items : List ImportItem} {fuel : Nat} (hi : i'.name = i.name ∧ i'.rename = [])
    (hf : Part.size (moreItems items) + 1 ≤ fuel) :
    Reads (importItems i' fuel) (renameParts i ++ moreItems items) (· = .kwFrom) (List.Forall₂ SameItem · (i :: items)) := by
  obtain ⟨fuel, rfl⟩ : ∃ k, fuel = k + 1 := ⟨fuel - 1, by omega⟩
  induction items generalizing i i' fuel with
  | nil =>
    refine reads_rename hi (by rintro k rfl; decide) fun named hnamed => .skip (by rintro k rfl; decide) ?_
    exact .neg (by decide) (.pure (.cons hnamed .nil))
  | cons j items ih =>
    have hmore : moreItems (j :: items) = .mark .comma :: .name j.name :: (renameParts j ++ moreItems items) := by
      rw [moreItems, List.isEmpty_cons, if_neg (by decide), separate_items]
    rw [hmore] at hf ⊢
    simp only [Part.size_cons, Part.size_append, Part.length_mark, Part.length_name] at hf
    obtain ⟨fuel, rfl⟩ : ∃ k, fuel = k + 1 := ⟨fuel - 1, by omega⟩
    refine reads_rename hi (fun _ _ => nofun) fun named hnamed => .accept (by decide) (.pos rfl (.name fun tok htok => ?_))
    exact (ih ⟨htok, rfl⟩ fuel (by omega)).last (fun _ hk => hk) fun is his => .pure (.cons hnamed his)

/-- A declaration that is written like another one, also next to other declarations. -/
structure Redeclares (s' s : Stmt) : Prop where
  lines : ∀ n attrs, Canonical.declaration n attrs s' = Canonical.declaration n attrs s
  group : ∀ t, Canonical.sameGroup t s' = Canonical.sameGroup t s ∧ Canonical.sameGroup s' t = Canonical.sameGroup s t
  noOp : ∀ i, s' ≠ .noOp i

/-- The parts of an import behind its attributes. -/
def importParts (name : Text) (items : List ImportItem) : List Part :=
  .mark .kwImport ::
    if items.isEmpty then [.path name, .mark .semicolon]
    else Part.separate (items.map ImportItem.parts) ++ [Part.mark .kwFrom, .path name, .mark .semicolon]

/-- What follows the first name of an import. -/
theorem front_items (i : ImportItem) (items : List ImportItem) (ps : List Part) (k : TokenKind) :
    Part.front (renameParts i ++ (moreItems items ++ .mark .kwFrom :: ps)) k ∈ [TokenKind.kwAs, .comma, .kwFrom] := by
  unfold renameParts moreItems
  cases i.rename.isEmpty <;> cases items.isEmpty <;> simp

theorem reads_import {s : Span} {name : Text} {items : List ImportItem} {attrs : List Attribute} {fuel : Nat}
    (hattrs : Matching attrs []) (h : ∀ p ∈ importParts name items, p.isSource)
    (hf : Part.size (importParts name items) + 1 ≤ fuel) :
    Reads (importDecl fuel attrs) (importParts name items) (fun _ => True) (Redeclares · (.importFrom s name items)) := by
  have hdone {start : Span} {items' : List ImportItem} (hitems : List.Forall₂ SameItem items' items) :
      Redeclares (.importFrom start name items') (.importFrom s name items) := by
    refine ⟨fun n attrs => ?_, fun t => by cases t <;> exact ⟨rfl, rfl⟩, nofun⟩
    rw [Canonical.declaration, Canonical.declaration, importLine_same hitems]
  unfold importParts at h hf ⊢
  refine .lift (hattrs.rejectAll _) (.advance (by decide) fun start => .place fun place => ?_)
  cases items with
  | nil =>
    simp only [List.isEmpty_nil, if_true, Part.size_cons, Part.size_nil, Part.length_mark] at hf
    refine (reads_path (by omega)).bind (r := [.mark .semicolon]) (by simp) ?_
    rintro t rfl
    exact .accept (by decide) (.pos rfl (.pure (hdone .nil)))
  | cons i items =>
    simp only [List.isEmpty_cons, Bool.false_eq_true, if_false, separate_items] at h hf ⊢
    have hname : Lexer.isName i.name := h (.name i.name) (by simp)
    simp only [List.cons_append, List.append_assoc, Part.size_cons, Part.size_append, Part.size_nil, Part.length_mark,
      Part.length_name] at hf ⊢
    have hfront := front_items i items [.path name, .mark .semicolon]
    refine (reads_dottedName hname (by omega)).bind (r := renameParts i ++ (moreItems items ++ _)) ?_ ?_
    · intro k _ hdot
      have hmem := hfront k
      rw [hdot] at hmem
      revert hmem
      decide
    rintro t rfl
    refine .skip ?_ (.neg (by decide) (.neg ?_ ?_))
    · intro k _ hsemicolon
      have hmem := hfront k
      rw [hsemicolon] at hmem
      revert hmem
      decide
    · simpa using Lexer.dot_not_mem_name hname
    · rw [← List.append_assoc]
      have hitems : Reads (importItems { span := place.span, name := i.name } fuel)
          (renameParts i ++ moreItems items) (· = .kwFrom) (List.Forall₂ SameItem · (i :: items)) :=
        reads_importItems ⟨rfl, rfl⟩ (by omega)
      refine hitems.bind (fun _ _ => rfl) fun items' hitems' => .expect (by decide) fun _ => ?_
      refine (reads_path (by omega)).bind (r := [.mark .semicolon]) (by simp) ?_
      rintro t rfl
      exact .expect (by decide) fun _ => .pure (hdone hitems')

theorem reads_option {s : Span} {d : OptionDecl} {attrs : List Attribute} {fuel : Nat} (hattrs : Matching attrs [])
    (htype : (Part.type d.type).Rereadable) (hdefault : d.default.isAbsent = false → (Part.expr 0 d.default).Rereadable)
    (hf : 8 * (1 + (Part.type d.type).lexemes.length + Part.size (Part.optional .equal (.expr 0) d.default)) ≤ fuel) :
    Reads (optionDecl fuel attrs)
      (.mark .kwOption :: .name d.name :: .mark .colon :: .type d.type ::
        (Part.optional .equal (.expr 0) d.default ++ [.mark .semicolon]))
      (fun _ => True) (Redeclares · (.option s d)) := by
  refine .lift (hattrs.rejectAll _) (.advance (by decide) fun start => .name fun name hname => .expect (by decide) fun _ => ?_)
  refine (reads_type htype (by omega)).bind (fun _ _ => Part.front_optional (P := Closes) rfl rfl) fun type ht => ?_
  refine .optionalExpr (by decide) hdefault (by omega) (fun _ _ => ⟨nofun, rfl⟩) fun default hd => .expect (by decide) fun _ => ?_
  refine .pure ⟨fun n attrs => ?_, fun t => by cases t <;> exact ⟨rfl, rfl⟩, nofun⟩
  simp only [Canonical.declaration, hname, ht.expr, optional_reread hd]

theorem reads_constDecl {s : Span} {d : ConstDecl} {attrs : List Attribute} {fuel : Nat} (hexported : d.exported.GivenOr true)
    (hattrs : Matching attrs (Slot.ofAttr "export" d.exported [])) (h : ∀ p ∈ d.parts, p.Rereadable)
    (hf : 8 * Part.size d.parts ≤ fuel) : Reads (constDecl fuel attrs) d.parts (fun _ => True) (Redeclares · (.const s d)) := by
  refine (reads_const hexported hattrs h hf).mono ?_
  rintro s' ⟨i, d', rfl, hd', hexported'⟩
  refine ⟨fun n attrs => ?_, fun t => by cases t <;> exact ⟨rfl, rfl⟩, nofun⟩
  simp only [Canonical.declaration, Canonical.flag_reread hexported', hd']

theorem reads_alias {s : Span} {d : AliasDecl} {attrs : List Attribute} {fuel : Nat} (hexported : d.exported.GivenOr true)
    (hattrs : Matching attrs (Slot.ofAttr "export" d.exported [])) (htarget : (Part.type d.target).Rereadable)
    (hf : 8 * (1 + (Part.type d.target).lexemes.length) ≤ fuel) :
    Reads (aliasDecl fuel attrs) [.mark .kwAlias, .name d.name, .mark .equal, .type d.target, .mark .semicolon]
      (fun _ => True) (Redeclares · (.alias s d)) := by
  obtain ⟨htaken, hothers⟩ := hattrs.take "export"
  rw [Slot.find?_ofAttr, if_pos rfl] at htaken
  rw [Slot.filter_ofAttr, if_pos rfl] at hothers
  obtain ⟨exported, hflag, hexported'⟩ := flag_reread hexported htaken
  refine .lift hflag (.lift (hothers.rejectAll _) (.advance (by decide) fun start => .name fun name hname => ?_))
  refine .expect (by decide) fun _ => (reads_type htarget (by omega)).bind (fun _ _ => rfl) fun target ht => ?_
  refine .expect (by decide) fun _ => .pure ⟨fun n attrs => ?_, fun t => by cases t <;> exact ⟨rfl, rfl⟩, nofun⟩
  simp only [Canonical.declaration, Canonical.flag_reread hexported', hname, ht.expr]

/-- Items up to the mark that closes them, with commas between them. -/
theorem reads_separated {ι : Type} (item : Nat → Parser α) (many : Nat → Parser (List α)) (close : TokenKind)
    {parts : ι → List Part} {M : α → ι → Prop} {xs : List ι} {fuel : Nat} (hclose : close ≠ .comma ∧ close ≠ .endOfFile)
    (hmany : ∀ fuel, many (fuel + 1) = do
      if (← check close) || (← check .endOfFile) then return []
      let x ← item fuel
      if ← accept .comma then
        let xs ← many fuel
        return x :: xs
      return [x])
    (hread : ∀ x ∈ xs, ∀ fuel, 8 * Part.size (parts x) ≤ fuel →
      Reads (item fuel) (parts x) (fun k => k = .comma ∨ k = close) (M · x))
    (hstart : ∀ x ∈ xs, ∀ ps k, Part.front (parts x ++ ps) k ≠ close ∧ Part.front (parts x ++ ps) k ≠ .endOfFile)
    (hf : 8 * Part.size (Part.separate (xs.map parts)) + 1 ≤ fuel) :
    Reads (many fuel) (Part.separate (xs.map parts)) (· = close) (List.Forall₂ M · xs) := by
  induction xs generalizing fuel with
  | nil =>
    obtain ⟨fuel, rfl⟩ : ∃ k, fuel = k + 1 := ⟨fuel - 1, by omega⟩
    rw [hmany]
    refine .sees (fun _ hk => hk) (.misses ?_ (.pos rfl (.pure .nil)))
    rintro k rfl
    exact hclose.2
  | cons x xs ih =>
    obtain ⟨hx, hxs⟩ := List.forall_mem_cons.mp hread
    obtain ⟨hstartx, hstarts⟩ := List.forall_mem_cons.mp hstart
    obtain ⟨fuel, rfl⟩ : ∃ k, fuel = k + 1 := ⟨fuel - 1, by omega⟩
    rw [hmany]
    cases xs with
    | nil =>
      have hone : Part.separate ([x].map parts) = parts x ++ [] := (List.append_nil _).symm
      rw [hone] at hf ⊢
      rw [Part.size_append] at hf
      refine .misses (fun k _ => (hstartx [] k).1) (.misses (fun k _ => (hstartx [] k).2) (.neg (by decide) ?_))
      refine (hx fuel (by omega)).bind (fun _ hk => .inr hk) fun y hy => .skip ?_ (.neg (by decide) (.pure (.cons hy .nil)))
      rintro k rfl
      exact hclose.1
    | cons x₂ xs =>
      have hmore : Part.separate ((x :: x₂ :: xs).map parts) = parts x ++ .mark .comma :: Part.separate ((x₂ :: xs).map parts) := rfl
      rw [hmore] at hf ⊢
      simp only [Part.size_append, Part.size_cons, Part.length_mark] at hf
      refine .misses (fun k _ => (hstartx _ k).1) (.misses (fun k _ => (hstartx _ k).2) (.neg (by decide) ?_))
      refine (hx fuel (by omega)).bind (fun _ _ => .inl rfl) fun y hy => .accept (by decide) (.pos rfl ?_)
      exact (ih hxs hstarts (by omega)).last (fun _ hk => hk) fun ys hys => .pure (.cons hy hys)

/-- A member that is written like another one. -/
def SameMember (m' m : StructMember) : Prop := ∀ n, Canonical.structMember n m' = Canonical.structMember n m

theorem names_append {xs ys : List Slot} {names names' : List Text} (hx : (xs.map Slot.name).Sublist names)
    (hy : (ys.map Slot.name).Sublist names') : ((xs ++ ys).map Slot.name).Sublist (names ++ names') := by
  rw [List.map_append]
  exact hx.append hy

theorem reads_structMember {m : StructMember} {fuel : Nat} (hm : m.Formed) (h : ∀ p ∈ m.parts, p.Rereadable)
    (hf : 8 * Part.size m.parts ≤ fuel) :
    Reads (structMember fuel) m.parts (fun k => k = .comma ∨ k = .rightBrace) (SameMember · m) := by
  simp only [StructMember.parts, List.forall_mem_append, List.forall_mem_cons] at h
  obtain ⟨hslots, -, -, htype, -⟩ := h
  simp only [StructMember.parts, Part.size_append, Part.size_cons, Part.size_nil, Part.length_mark, Part.length_name] at hf
  have hnames := names_append (names_append (Slot.atMost_ofAttr (α := Unit) "cond" { expr := m.cond } []).names
    (Slot.atMost_ofAttr "builtin" m.builtin []).names) (Slot.atMost_ofAttr "location" m.location []).names
  have hdistinct : DistinctNames ["cond", "builtin", "location"] := ⟨by decide, by decide⟩
  refine (reads_bracketed hslots (hdistinct.sublist hnames) (by omega)).bind (fun _ _ => nofun) fun attrs hattrs => ?_
  rw [Slot.ofExpr_eq] at hattrs
  obtain ⟨hbuiltin, hrest⟩ := hattrs.take "builtin"
  simp +decide only [List.find?_append, List.filter_append, Slot.find?_ofAttr, Slot.filter_ofAttr, if_true, if_false,
    Option.or_none, Option.none_or, List.append_nil] at hbuiltin hrest
  obtain ⟨hlocation, hrest⟩ := hrest.take "location"
  simp +decide only [List.find?_append, List.filter_append, Slot.find?_ofAttr, Slot.filter_ofAttr, if_true, if_false,
    Option.none_or, List.append_nil] at hlocation hrest
  obtain ⟨hcond, hrest⟩ := hrest.take "cond"
  rw [Slot.find?_ofAttr, if_pos rfl] at hcond
  rw [Slot.filter_ofAttr, if_pos rfl] at hrest
  obtain ⟨builtin, hb, hbuiltin'⟩ := optionalArg_reread hm.1 hbuiltin
  obtain ⟨location, hl, hlocation'⟩ := optionalArg_reread hm.2 hlocation
  obtain ⟨cond, hc, hcond'⟩ := optionalArg_reread (a := ({ expr := m.cond } : Attr Unit)) rfl hcond
  refine .lift hb (.lift hl (.lift hc (.lift (hrest.rejectAll _) (.name fun name hname => .expect (by decide) fun _ => ?_))))
  refine (reads_type htype (by omega)).last ?_ fun type ht => .pure fun n => ?_
  · rintro k (rfl | rfl) <;> rfl
  · simp only [Canonical.structMember, hname, Canonical.attr_reread hbuiltin', Canonical.attr_reread hlocation',
      hcond'.expr.isAbsent, hcond'.expr.expr, ht.expr]

theorem mapM_same {M : α → β → Prop} {f : α → Except WriteError Text} {g : β → Except WriteError Text} {xs : List α}
    {ys : List β} (h : List.Forall₂ M xs ys) (hsame : ∀ x y, M x y → f x = g y) : xs.mapM f = ys.mapM g := by
  induction h with
  | nil => rfl
  | cons hx _ ih => rw [List.mapM_cons, List.mapM_cons, ih, hsame _ _ hx]

/-- An item of a list starts with a bracket or a name. -/
theorem front_named {k' : TokenKind} (hk : k' ≠ .leftBracket ∧ k' ≠ .identifier) (slots : List Slot) (n : Text)
    (ps : List Part) (k : TokenKind) : Part.front (Slot.bracketed slots ++ .name n :: ps) k ≠ k' := by
  unfold Slot.bracketed
  split
  · exact hk.2.symm
  · exact hk.1.symm

theorem reads_struct {s : Span} {d : StructDecl} {attrs : List Attribute} {fuel : Nat} (hexported : d.exported.GivenOr true)
    (hlayout : d.layout.Given) (hne : d.members ≠ []) (hm : ∀ m ∈ d.members, m.Formed)
    (hattrs : Matching attrs (Slot.ofAttr "export" d.exported [] ++ Slot.ofAttr "layout" d.layout []))
    (h : ∀ m ∈ d.members, ∀ p ∈ m.parts, p.Rereadable)
    (hf : 8 * Part.size (Part.separate (d.members.map StructMember.parts)) + 1 ≤ fuel) :
    Reads (structDecl fuel attrs)
      (.mark .kwStruct :: .name d.name :: Part.braces (Part.separate (d.members.map StructMember.parts)))
      (fun _ => True) (Redeclares · (.struct s d)) := by
  obtain ⟨hexport, hrest⟩ := hattrs.take "export"
  simp +decide only [List.find?_append, List.filter_append, Slot.find?_ofAttr, Slot.filter_ofAttr, if_true, if_false,
    Option.or_none, List.nil_append] at hexport hrest
  obtain ⟨htaken, hrest⟩ := hrest.take "layout"
  rw [Slot.find?_ofAttr, if_pos rfl] at htaken
  rw [Slot.filter_ofAttr, if_pos rfl] at hrest
  obtain ⟨exported, he, hexported'⟩ := flag_reread hexported hexport
  obtain ⟨layout, hl, hlayout'⟩ := optionalArg_reread hlayout htaken
  refine .lift he (.lift hl (.lift (hrest.rejectAll _) (.advance (by decide) fun start => .name fun name hname => ?_)))
  refine .expect (by decide) fun _ => ?_
  have hmembers := reads_separated structMember structMembers .rightBrace (M := SameMember)
    ⟨by decide, by decide⟩ (fun _ => rfl) (fun m hmem fuel hfuel => reads_structMember (hm m hmem) (h m hmem) hfuel)
    (fun m _ ps k => ?_) hf
  · refine hmembers.bind (fun _ _ => rfl) fun members hsame => .expect (by decide) fun _ => .neg ?_ (.pure ?_)
    · rw [List.isEmpty_iff_length_eq_zero, hsame.length_eq, List.length_eq_zero_iff]
      exact hne
    · refine ⟨fun n attrs => ?_, fun t => by cases t <;> exact ⟨rfl, rfl⟩, nofun⟩
      simp only [Canonical.declaration, Canonical.flag_reread hexported', Canonical.attr_reread hlayout', hname,
        mapM_same hsame fun _ _ hm => hm n]
  · rw [StructMember.parts, List.append_assoc]
    exact ⟨front_named (by decide) _ _ _ k, front_named (by decide) _ _ _ k⟩

/-- A resource that is written like another one. -/
def SameExternal (v' v : External) : Prop := ∀ n, Canonical.externalVar n v' = Canonical.externalVar n v

theorem reads_externalVar {v : External} {fuel : Nat} (hv : v.Formed) (h : ∀ p ∈ v.parts, p.Rereadable)
    (hf : 8 * Part.size v.parts ≤ fuel) :
    Reads (externalVar fuel) v.parts (fun k => k = .comma ∨ k = .rightBrace) (SameExternal · v) := by
  simp only [External.parts, List.forall_mem_append, List.forall_mem_cons] at h
  obtain ⟨hslots, -, -, htype, -⟩ := h
  simp only [External.parts, Part.size_append, Part.size_cons, Part.size_nil, Part.length_mark, Part.length_name] at hf
  have hnames := names_append (Slot.atMost_ofAttr "set" v.set []).names (Slot.atMost_ofAttr "binding" v.binding []).names
  have hdistinct : DistinctNames ["set", "binding"] := ⟨by decide, by decide⟩
  refine (reads_bracketed hslots (hdistinct.sublist hnames) (by omega)).bind (fun _ _ => nofun) fun attrs hattrs => ?_
  obtain ⟨hset, hrest⟩ := hattrs.take "set"
  simp +decide only [List.find?_append, List.filter_append, Slot.find?_ofAttr, Slot.filter_ofAttr, if_true, if_false,
    Option.or_none, List.nil_append] at hset hrest
  obtain ⟨hbinding, hrest⟩ := hrest.take "binding"
  rw [Slot.find?_ofAttr, if_pos rfl] at hbinding
  rw [Slot.filter_ofAttr, if_pos rfl] at hrest
  obtain ⟨set, hs, hset'⟩ := optionalArg_reread hv.1 hset
  obtain ⟨binding, hb, hbinding'⟩ := optionalArg_reread hv.2 hbinding
  refine .lift hs (.lift hb (.lift (hrest.rejectAll _) (.name fun name hname => .expect (by decide) fun _ => ?_)))
  refine (reads_type htype (by omega)).last ?_ fun type ht => .pure fun n => ?_
  · rintro k (rfl | rfl) <;> rfl
  · simp only [Canonical.externalVar, hname, Canonical.attr_reread hset', Canonical.attr_reread hbinding', ht.expr]

theorem reads_external {s : Span} {set : Attr UInt32} {vars : List External} {attrs : List Attribute} {fuel : Nat}
    (hset : set.Given) (hv : ∀ v ∈ vars, v.Formed) (hattrs : Matching attrs (Slot.ofAttr "set" set []))
    (h : ∀ v ∈ vars, ∀ p ∈ v.parts, p.Rereadable)
    (hf : 8 * Part.size (Part.separate (vars.map External.parts)) + 1 ≤ fuel) :
    Reads (externalDecl fuel attrs) (.mark .kwExternal :: Part.braces (Part.separate (vars.map External.parts)))
      (fun _ => True) (Redeclares · (.external s set vars)) := by
  obtain ⟨htaken, hrest⟩ := hattrs.take "set"
  rw [Slot.find?_ofAttr, if_pos rfl] at htaken
  rw [Slot.filter_ofAttr, if_pos rfl] at hrest
  obtain ⟨e, he, hset'⟩ := optionalArg_reread hset htaken
  refine .lift he (.lift (hrest.rejectAll _) (.advance (by decide) fun start => .expect (by decide) fun _ => ?_))
  have hvars := reads_separated externalVar externalVars .rightBrace (M := SameExternal)
    ⟨by decide, by decide⟩ (fun _ => rfl) (fun v hmem fuel hfuel => reads_externalVar (hv v hmem) (h v hmem) hfuel)
    (fun v _ ps k => ?_) hf
  · refine hvars.bind (fun _ _ => rfl) fun vars' hsame => .expect (by decide) fun _ => .pure ?_
    refine ⟨fun n attrs => ?_, fun t => by cases t <;> exact ⟨rfl, rfl⟩, nofun⟩
    simp only [Canonical.declaration, Canonical.attr_reread hset', mapM_same hsame fun _ _ hv => hv n]
  · rw [External.parts, List.append_assoc]
    exact ⟨front_named (by decide) _ _ _ k, front_named (by decide) _ _ _ k⟩

/-- A parameter with the name and the type of another one. -/
def SameParam (p' p : FnParam) : Prop := p'.name = p.name ∧ Reread p'.type p.type

theorem reads_parameters {params : List FnParam} {fuel : Nat} (h : ∀ p ∈ params, (Part.type p.type).Rereadable)
    (hf : 8 * Part.size (Part.separate (params.map FnParam.parts)) + 1 ≤ fuel) :
    Reads (parameters fuel) (Part.separate (params.map FnParam.parts)) (· = .rightParen) (List.Forall₂ SameParam · params) := by
  refine reads_separated (M := SameParam) (fun fuel => do
    let name ← expect .identifier
    let _ ← expect .colon
    let type ← typeExpression fuel
    return { span := name.span, name := name.lexeme, type }) parameters .rightParen ⟨by decide, by decide⟩ (fun fuel => ?_) (fun p hp fuel hfuel => ?_)
    (fun p _ ps k => ⟨nofun, nofun⟩) hf
  · simp only [parameters, bind_assoc, pure_bind]
  · simp only [FnParam.parts, Part.size_cons, Part.size_nil, Part.length_mark, Part.length_name] at hfuel
    refine .name fun name hname => .expect (by decide) fun _ => (reads_type (h p hp) (by omega)).last ?_ fun type ht => .pure ?_
    · rintro k (rfl | rfl) <;> rfl
    · exact ⟨hname, ht⟩

theorem isVoidType_unplaced (e : Expr) : Canonical.isVoidType e.unplaced = Canonical.isVoidType e := by
  cases e <;> simp only [Expr.unplaced, Canonical.isVoidType]

theorem isVoidType_methods (e : Expr) : Canonical.isVoidType e.methods = Canonical.isVoidType e := by
  cases e with
  | call => exact Expr.called_eq_false (fun _ _ _ => rfl) (fun _ _ _ _ => rfl) _ _ _
  | _ => rfl

theorem isVoidType_reread {e' e : Expr} (h : Reread e' e) : Canonical.isVoidType e' = Canonical.isVoidType e := by
  rw [← isVoidType_unplaced, h, isVoidType_unplaced, isVoidType_methods]

/-- A function's head with the attributes of another one. -/
structure SameAttributes (h' h : FnHead) : Prop where
  stage : h'.stage.Reread h.stage
  workgroup : ∀ n, Canonical.workgroup n h'.workgroup = Canonical.workgroup n h.workgroup
  earlyTests : h'.earlyTests.Reread h.earlyTests
  depthWrite : h'.depthWrite.Reread h.depthWrite
  exported : h'.exported.Reread h.exported

theorem functionLines_same {h' h : FnHead} {body' body : List Stmt} (ha : SameAttributes h' h) (hname : h'.name = h.name)
    (hparams : List.Forall₂ SameParam h'.params h.params) (hresult : Reread h'.result h.result)
    (hbody : ∀ n, Canonical.allLines n body' = Canonical.allLines n body) (n : Canonical.Names) (attrs : List Text) :
    Canonical.functionLines n h' attrs body' = Canonical.functionLines n h attrs body := by
  have hps : (h'.params.mapM fun p => do return p.name ++ ": " ++ (← Canonical.expr n 0 p.type)) =
      h.params.mapM fun p => do return p.name ++ ": " ++ (← Canonical.expr n 0 p.type) :=
    mapM_same hparams fun p' p hp => by rw [hp.1, hp.2.expr]
  unfold Canonical.functionLines
  rw [Canonical.attr_reread ha.stage, ha.workgroup, Canonical.flag_reread ha.earlyTests, Canonical.attr_reread ha.depthWrite,
    Canonical.flag_reread ha.exported, hps, isVoidType_reread hresult, optional_reread hresult, hbody, hname]

/-- The parts of a function behind its attributes. -/
def functionParts (h : FnHead) (body : List Stmt) : List Part :=
  .mark .kwFn :: .name h.name :: .mark .leftParen :: (Part.separate (h.params.map FnParam.parts) ++
    .mark .rightParen :: (Part.optional .arrow .type h.result ++ Part.braces (Stmt.allParts body)))

/-- A function behind its attributes. -/
theorem reads_signature {s : Span} {h : FnHead} {body : List Stmt} {fuel : Nat} {stage : Attr Stage}
    {earlyTests exported : Attr Bool} {depthWrite : Attr DepthWrite} {workgroup : Attr (UInt32 × UInt32 × UInt32)}
    (ha : SameAttributes { name := [], stage, earlyTests, depthWrite, workgroup, exported } h)
    (hb : ∀ x ∈ body, x.Formed) (hparts : ∀ p ∈ functionParts h body, p.Rereadable)
    (hf : 8 * Part.size (functionParts h body) ≤ fuel) :
    Reads (do
      let start ← advance
      let name ← expect .identifier
      let _ ← expect .leftParen
      let params ← parameters fuel
      let _ ← expect .rightParen
      let result ← if ← accept .arrow then typeExpression fuel else pure .absent
      let body ← block fuel
      return .function start.span
        { name := name.lexeme, params, result, stage, earlyTests, depthWrite, workgroup, exported } body)
      (functionParts h body) (fun _ => True) (Redeclares · (.function s h body)) := by
  have hmark := Part.rereadable_mark
  simp only [functionParts, List.forall_mem_cons, List.forall_mem_append, Part.forall_separate hmark, List.forall_mem_map,
    Part.forall_optional hmark, Part.forall_braces hmark] at hparts
  obtain ⟨-, -, -, hparams, -, hresult, hbody⟩ := hparts
  rw [Stmt.allParts_eq, List.forall_mem_flatMap] at hbody
  simp only [functionParts, Part.size_cons, Part.size_append, Part.size_braces, Part.length_mark, Part.length_name] at hf
  have hstatements := reads_statements (fun x hx => (rereads (hb x hx) (hbody x hx)).1) (by omega : _ ≤ fuel - 1)
  obtain ⟨fuel, rfl⟩ : ∃ k, fuel = k + 1 := ⟨fuel - 1, by omega⟩
  refine .advance (by decide) fun start => .name fun name hname => .expect (by decide) fun _ => ?_
  refine (reads_parameters (fun p hp => ?_) (by omega)).bind (fun _ _ => rfl) fun params hps => .expect (by decide) fun _ => ?_
  · exact hparams p hp _ (by simp [FnParam.parts])
  refine .optionalType (by decide) hresult (by omega) (fun _ _ => ⟨nofun, rfl⟩) fun result hr => ?_
  refine (reads_block hstatements).last (fun _ _ => trivial) fun body' hbody' => .pure ?_
  refine ⟨fun n attrs => ?_, fun t => by cases t <;> exact ⟨rfl, rfl⟩, nofun⟩
  rw [Canonical.declaration, Canonical.declaration]
  refine functionLines_same ?_ hname hps hr hbody' n attrs
  exact ⟨ha.stage, ha.workgroup, ha.earlyTests, ha.depthWrite, ha.exported⟩

theorem reads_function {s : Span} {h : FnHead} {body : List Stmt} {attrs : List Attribute} {fuel : Nat} (hh : h.Formed)
    (hb : ∀ x ∈ body, x.Formed) (hattrs : Matching attrs h.slots) (hparts : ∀ p ∈ functionParts h body, p.Rereadable)
    (hf : 8 * Part.size (functionParts h body) ≤ fuel) :
    Reads (functionDecl fuel attrs) (functionParts h body) (fun _ => True) (Redeclares · (.function s h body)) := by
  unfold FnHead.slots at hattrs
  unfold functionDecl
  obtain ⟨o, attrs, htake, hentry, hrest⟩ := hattrs.split "entry"
  rw [htake]
  simp +decide only [List.find?_append, List.filter_append, Slot.find?_ofAttr, Slot.filter_ofAttr, Slot.find?_ofWorkgroup,
    Slot.filter_ofWorkgroup, if_true, if_false, Option.or_none, List.nil_append] at hentry hrest
  obtain ⟨stage, hs, hstage⟩ := optionalArg_reread hh.stage hentry
  refine .lift hs ?_
  obtain ⟨o, attrs, htake, hearly, hrest⟩ := hrest.split "early_fragment_tests"
  rw [htake]
  simp +decide only [List.find?_append, List.filter_append, Slot.find?_ofAttr, Slot.filter_ofAttr, Slot.find?_ofWorkgroup,
    Slot.filter_ofWorkgroup, if_true, if_false, Option.or_none, Option.none_or, List.append_nil] at hearly hrest
  obtain ⟨earlyTests, he, hearly'⟩ := flag_reread hh.earlyTests hearly
  refine .lift he ?_
  obtain ⟨o, attrs, htake, hdepth, hrest⟩ := hrest.split "depth_write"
  rw [htake]
  simp +decide only [List.find?_append, List.filter_append, Slot.find?_ofAttr, Slot.filter_ofAttr, Slot.find?_ofWorkgroup,
    Slot.filter_ofWorkgroup, if_true, if_false, Option.or_none, Option.none_or, List.append_nil] at hdepth hrest
  obtain ⟨depthWrite, hd, hdepth'⟩ := optionalArg_reread hh.depthWrite hdepth
  refine .lift hd ?_
  obtain ⟨o, attrs, htake, hgroup, hrest⟩ := hrest.split "workgroup"
  rw [htake]
  simp +decide only [List.find?_append, List.filter_append, Slot.find?_ofAttr, Slot.filter_ofAttr, Slot.find?_ofWorkgroup,
    Slot.filter_ofWorkgroup, if_true, if_false, Option.or_none, List.nil_append] at hgroup hrest
  refine reads_workgroup hh.workgroup hgroup fun workgroup hgroup' => ?_
  obtain ⟨o, attrs, htake, hexport, hrest⟩ := hrest.split "export"
  rw [htake]
  rw [Slot.find?_ofAttr, if_pos rfl] at hexport
  rw [Slot.filter_ofAttr, if_pos rfl] at hrest
  obtain ⟨exported, hx, hexported⟩ := flag_reread hh.exported hexport
  refine .lift hx (.lift (hrest.rejectAll _) ?_)
  have hsame : SameAttributes
      { name := [], stage := { expr := stage }, earlyTests := earlyTests, depthWrite := { expr := depthWrite },
        workgroup := { expr := workgroup }, exported := exported } h := ⟨hstage, hgroup', hearly', hdepth', hexported⟩
  exact reads_signature hsame hb hparts hf

/-- The condition of a declaration is taken first. -/
theorem Matching.condition {as : List Attribute} {c : Expr} {own : List Slot} (h : Matching as (Slot.ofExpr "cond" c ++ own))
    (hown : Text.ofString "cond" ∉ own.map Slot.name) :
    ∃ cond, Attribute.optionalArg (Attribute.take as "cond").1 = .ok cond ∧ Reread cond c ∧
      Matching (Attribute.take as "cond").2 own := by
  have hothers : ∀ s ∈ own, s.name ≠ "cond" := by
    intro s hs heq
    exact hown (heq ▸ List.mem_map_of_mem hs)
  obtain ⟨htaken, hrest⟩ := h.take "cond"
  have hnone : own.find? (·.name == Text.ofString "cond") = none := by simpa using hothers
  have hall : own.filter (·.name != Text.ofString "cond") = own := by simpa using hothers
  rw [Slot.ofExpr_eq, List.find?_append, Slot.find?_ofAttr, if_pos rfl, hnone, Option.or_none] at htaken
  rw [Slot.ofExpr_eq, List.filter_append, Slot.filter_ofAttr, if_pos rfl, hall, List.nil_append] at hrest
  obtain ⟨cond, hc, hcond⟩ := optionalArg_reread (a := ({ expr := c } : Attr Unit)) rfl htaken
  exact ⟨cond, hc, hcond.expr, hrest⟩

/-- A declaration with the condition that it stands under, if there is one. -/
def underCondition (i : Span) (c : Expr) (d : Stmt) : Stmt := if c.isPresent then .conditional i c d else d

theorem redeclares_underCondition {i i' : Span} {c' c : Expr} {d' d : Stmt} (hc : Reread c' c) (hd : Redeclares d' d) :
    Redeclares (underCondition i' c' d') (underCondition i c d) := by
  unfold underCondition Expr.isPresent
  rw [hc.isAbsent]
  cases c.isAbsent with
  | true => exact hd
  | false =>
    refine ⟨fun n attrs => ?_, fun t => by cases t <;> exact ⟨rfl, rfl⟩, nofun⟩
    simp only [Bool.not_false, if_true, Canonical.declaration, hc.expr, hd.lines]

/-- What a declaration that begins with a keyword is read by. -/
def declared? : TokenKind → Option (Nat → List Attribute → Parser Stmt)
  | .kwImport => some importDecl
  | .kwOption => some optionDecl
  | .kwConst => some constDecl
  | .kwAlias => some aliasDecl
  | .kwStruct => some structDecl
  | .kwExternal => some externalDecl
  | .kwFn => some functionDecl
  | _ => none

/-- A declaration is read by its keyword, behind its attributes. -/
theorem reads_declaration {i : Span} {c : Expr} {d : Stmt} {own : List Slot} {names : List Text} {k : TokenKind} {ps : List Part}
    {p : Nat → List Attribute → Parser Stmt} {fuel : Nat} (hk : declared? k = some p)
    (hnames : (own.map Slot.name).Sublist names) (hdistinct : DistinctNames ("cond" :: names))
    (h : ∀ p ∈ Slot.bracketed (Slot.ofExpr "cond" c ++ own), p.Rereadable)
    (hf : 8 * Part.size (Slot.bracketed (Slot.ofExpr "cond" c ++ own)) + 1 ≤ fuel)
    (hread : ∀ attrs, Matching attrs own → Reads (p fuel attrs) (.mark k :: ps) (fun _ => True) (Redeclares · d)) :
    Reads (declaration fuel) (Slot.bracketed (Slot.ofExpr "cond" c ++ own) ++ .mark k :: ps) (fun _ => True)
      (Redeclares · (underCondition i c d)) := by
  have hslots := names_append (Slot.atMost_ofAttr (α := Unit) "cond" { expr := c } []).names hnames
  have hbracket : k ≠ .leftBracket := by
    rintro rfl
    cases hk
  refine (reads_bracketed h (hdistinct.sublist hslots) hf).bind (fun _ _ => hbracket) fun attrs hattrs => ?_
  obtain ⟨cond, hc, hcond, hown⟩ := hattrs.condition fun hmem => hdistinct.of_cons.2.1 (hnames.subset hmem)
  refine .lift hc (.peek (k := k) (fun _ _ => rfl) fun tok htok => ?_)
  rw [htok]
  cases k <;> first
    | cases hk
      exact (hread _ hown).last (fun _ _ => trivial) fun d' hd' => .pure (redeclares_underCondition hcond hd')
    | cases hk

theorem reads_declared {d : Stmt} (hd : d.Declared) {i : Span} {c : Expr} {fuel : Nat}
    (h : ∀ p ∈ d.declarationParts (Slot.ofExpr "cond" c), p.Rereadable)
    (hf : 8 * Part.size (d.declarationParts (Slot.ofExpr "cond" c)) + 1 ≤ fuel) :
    Reads (declaration fuel) (d.declarationParts (Slot.ofExpr "cond" c)) (fun _ => True)
      (Redeclares · (underCondition i c d)) := by
  have hmark := Part.rereadable_mark
  cases hd with
  | @importFrom s name items =>
    have hparts : (Stmt.importFrom s name items).declarationParts (Slot.ofExpr "cond" c) =
        Slot.bracketed (Slot.ofExpr "cond" c ++ []) ++ importParts name items := by
      rw [List.append_nil]
      rfl
    rw [hparts] at h hf ⊢
    obtain ⟨hslots, hrest⟩ := List.forall_mem_append.mp h
    rw [Part.size_append] at hf
    refine reads_declaration (k := .kwImport) rfl (List.Sublist.refl []) ⟨by decide, by decide⟩ hslots (by omega) fun attrs hattrs => ?_
    exact reads_import hattrs (fun p hp => (hrest p hp).source) (by omega)
  | @option s d =>
    have hparts : (Stmt.option s d).declarationParts (Slot.ofExpr "cond" c) =
        Slot.bracketed (Slot.ofExpr "cond" c ++ []) ++ (.mark .kwOption :: .name d.name :: .mark .colon :: .type d.type ::
          (Part.optional .equal (.expr 0) d.default ++ [.mark .semicolon])) := by
      rw [List.append_nil]
      rfl
    rw [hparts] at h hf ⊢
    simp only [List.forall_mem_append, List.forall_mem_cons, Part.forall_optional hmark] at h
    obtain ⟨hslots, -, -, -, htype, hdefault, -⟩ := h
    simp only [Part.size_append, Part.size_cons, Part.length_mark, Part.length_name] at hf
    refine reads_declaration (k := .kwOption) rfl (List.Sublist.refl []) ⟨by decide, by decide⟩ hslots (by omega) fun attrs hattrs => ?_
    exact reads_option hattrs htype hdefault (by omega)
  | @const s d he =>
    simp only [Stmt.declarationParts, List.forall_mem_append] at h
    rw [Stmt.declarationParts, Part.size_append] at hf
    have hnames := (Slot.atMost_ofAttr "export" d.exported []).names
    refine reads_declaration (k := .kwConst) rfl hnames ⟨by decide, by decide⟩ h.1 (by omega) fun attrs hattrs => ?_
    exact reads_constDecl he hattrs h.2 (by omega)
  | @«alias» s d he =>
    simp only [Stmt.declarationParts, List.forall_mem_append, List.forall_mem_cons] at h
    obtain ⟨hslots, -, -, -, htarget, -⟩ := h
    simp only [Stmt.declarationParts, Part.size_append, Part.size_cons, Part.size_nil, Part.length_mark, Part.length_name] at hf
    have hnames := (Slot.atMost_ofAttr "export" d.exported []).names
    refine reads_declaration (k := .kwAlias) rfl hnames ⟨by decide, by decide⟩ hslots (by omega) fun attrs hattrs => ?_
    exact reads_alias he hattrs htarget (by omega)
  | @struct s d he hl hne hm =>
    rw [Stmt.declarationParts, List.append_assoc (Slot.ofExpr _ _)] at h hf ⊢
    simp only [List.forall_mem_append, List.forall_mem_cons, Part.forall_braces hmark, Part.forall_separate hmark,
      List.forall_mem_map] at h
    simp only [Part.size_append, Part.size_cons, Part.size_braces, Part.length_mark, Part.length_name] at hf
    have hnames := names_append (Slot.atMost_ofAttr "export" d.exported []).names (Slot.atMost_ofAttr "layout" d.layout []).names
    refine reads_declaration (k := .kwStruct) rfl hnames ⟨by decide, by decide⟩ h.1 (by omega) fun attrs hattrs => ?_
    exact reads_struct he hl hne hm hattrs h.2.2.2 (by omega)
  | @external s set vars hset hv =>
    simp only [Stmt.declarationParts, List.forall_mem_append, List.forall_mem_cons, Part.forall_braces hmark,
      Part.forall_separate hmark, List.forall_mem_map] at h
    simp only [Stmt.declarationParts, Part.size_append, Part.size_cons, Part.size_braces, Part.length_mark] at hf
    have hnames := (Slot.atMost_ofAttr "set" set []).names
    refine reads_declaration (k := .kwExternal) rfl hnames ⟨by decide, by decide⟩ h.1 (by omega) fun attrs hattrs => ?_
    exact reads_external hset hv hattrs h.2.2 (by omega)
  | @function s head body hh hb =>
    have hparts : (Stmt.function s head body).declarationParts (Slot.ofExpr "cond" c) =
        Slot.bracketed (Slot.ofExpr "cond" c ++ head.slots) ++ functionParts head body := rfl
    rw [hparts] at h hf ⊢
    obtain ⟨hslots, hrest⟩ := List.forall_mem_append.mp h
    rw [Part.size_append] at hf
    have hnames := names_append (names_append (names_append (names_append (Slot.atMost_ofAttr "entry" head.stage []).names
      (Slot.atMost_ofWorkgroup head.workgroup).names) (Slot.atMost_ofAttr "early_fragment_tests" head.earlyTests []).names)
      (Slot.atMost_ofAttr "depth_write" head.depthWrite []).names) (Slot.atMost_ofAttr "export" head.exported []).names
    refine reads_declaration (k := .kwFn) rfl hnames ⟨by decide, by decide⟩ hslots (by omega) fun attrs hattrs => ?_
    exact reads_function hh hb hattrs hrest (by omega)

theorem front_declared {d : Stmt} (hd : d.Declared) (slots : List Slot) (ps : List Part) (k : TokenKind) :
    Part.front (d.declarationParts slots ++ ps) k ≠ .endOfFile := by
  have hbracketed (slots : List Slot) {k' : TokenKind} (hk' : k' ≠ .endOfFile) (qs : List Part) :
      Part.front (Slot.bracketed slots ++ .mark k' :: qs) k ≠ .endOfFile := by
    unfold Slot.bracketed
    split
    · exact hk'
    · exact nofun
  cases hd <;>
  · simp only [Stmt.declarationParts, ConstDecl.parts, List.append_assoc, List.cons_append]
    exact hbracketed _ (by decide) _

/-- A declaration at the top level is one under a condition that may be missing. -/
theorem atTop_cases {s : Stmt} (hs : s.AtTop) (h : ∀ p ∈ s.declarationParts [], p.isSource) :
    ∃ i c d, d.Declared ∧ s = underCondition i c d ∧ s.declarationParts [] = d.declarationParts (Slot.ofExpr "cond" c) := by
  obtain hd | ⟨i, c, d, rfl, hd⟩ := hs
  · exact ⟨{}, .absent, s, hd, rfl, rfl⟩
  · have hc : c.isAbsent = false := by
      have hsourced := (Canonical.source_slots [⟨"cond", [c]⟩] hd h _ List.mem_cons_self).2 c List.mem_cons_self
      cases c with
      | absent => cases hsourced
      | _ => rfl
    refine ⟨i, c, d, hd, ?_, ?_⟩
    · rw [underCondition, Expr.isPresent, hc]
      rfl
    · rw [Slot.ofExpr, hc]
      rfl

theorem reads_declarations {body : List Stmt} {fuel : Nat} (hbody : ∀ s ∈ body, s.AtTop)
    (h : ∀ s ∈ body, ∀ p ∈ s.declarationParts [], p.Rereadable)
    (hf : 8 * Part.size (body.flatMap (Stmt.declarationParts [])) + 2 ≤ fuel) :
    Reads (declarations fuel) (body.flatMap (Stmt.declarationParts [])) (· = .endOfFile) (List.Forall₂ Redeclares · body) := by
  induction body generalizing fuel with
  | nil =>
    obtain ⟨fuel, rfl⟩ : ∃ k, fuel = k + 1 := ⟨fuel - 1, by omega⟩
    exact .sees (fun _ hk => hk) (.pos rfl (.pure .nil))
  | cons s body ih =>
    obtain ⟨hs, hss⟩ := List.forall_mem_cons.mp hbody
    obtain ⟨hps, hpss⟩ := List.forall_mem_cons.mp h
    obtain ⟨fuel, rfl⟩ : ∃ k, fuel = k + 1 := ⟨fuel - 1, by omega⟩
    rw [List.flatMap_cons, Part.size_append] at hf
    rw [List.flatMap_cons]
    obtain ⟨i, c, d, hd, rfl, hparts⟩ := atTop_cases hs fun p hp => (hps p hp).source
    rw [hparts] at hps hf ⊢
    have hpos : 1 ≤ Part.size (d.declarationParts (Slot.ofExpr "cond" c)) := by
      have hfront := front_declared hd (Slot.ofExpr "cond" c) [] .endOfFile
      rw [List.append_nil] at hfront
      exact Part.size_pos_of_front hfront
    refine .misses (fun k _ => front_declared hd _ _ k) (.neg (by decide) ?_)
    refine (reads_declared (i := i) hd hps (by omega)).bind (fun _ _ => trivial) fun s' hs' => ?_
    exact (ih hss hpss (by omega)).last (fun _ hk => hk) fun ss hss' => .pure (.cons hs' hss')

theorem topLines_redeclared {body' body : List Stmt} (h : List.Forall₂ Redeclares body' body) (hbody : ∀ s ∈ body, s.AtTop)
    {previous' previous : Stmt} (hprevious : ∀ t, Canonical.sameGroup previous' t = Canonical.sameGroup previous t)
    (n : Canonical.Names) : Canonical.topLines n previous' body' = Canonical.topLines n previous body := by
  induction h generalizing previous' previous with
  | nil => rfl
  | @cons s' s body' body hs _ ih =>
    obtain ⟨hs₀, hss⟩ := List.forall_mem_cons.mp hbody
    have hnoOp : ∀ i, s ≠ .noOp i := by
      rintro i rfl
      obtain hd | ⟨j, c, d, heq, -⟩ := hs₀
      · cases hd
      · cases heq
    rw [Canonical.topLines, Canonical.topLines, hs.lines, ih hss fun t => (hs.group t).2, hprevious, (hs.group _).1]
    · exact hnoOp
    · exact hs.noOp

end Parser

namespace Text

/-- The value of a digit. -/
theorem digit_byte {c : Char} (h : c.isDigit) :
    (byte '0' ≤ byte c ∧ byte c ≤ byte '9') ∧ (byte c - byte '0').toNat = c.toNat - '0'.toNat :=
  Lexer.forall_ascii (fun c => c.isDigit →
      (byte '0' ≤ byte c ∧ byte c ≤ byte '9') ∧ (byte c - byte '0').toNat = c.toNat - '0'.toNat)
    (by decide) (Lexer.toNat_lt_of_isDigit h) h

/-- A number is read from its digits. -/
theorem toNat?_ofNat (n : Nat) : toNat? (ofNat n) = some n := by
  have hfold : ∀ (cs : List Char) (acc : Nat), (∀ c ∈ cs, c.isDigit) →
      (cs.map byte).foldl (fun acc b => do
        let n ← acc
        if byte '0' ≤ b ∧ b ≤ byte '9' then some (n * 10 + (b - byte '0').toNat) else none) (some acc) =
          some (Nat.ofDigitChars 10 cs acc) := by
    intro cs
    induction cs with
    | nil => exact fun acc _ => rfl
    | cons c cs ih =>
      intro acc hcs
      obtain ⟨hc, hrest⟩ := List.forall_mem_cons.mp hcs
      obtain ⟨hrange, hvalue⟩ := digit_byte hc
      have hstep := ih (10 * acc + (c.toNat - '0'.toNat)) hrest
      simp only [List.map_cons, List.foldl_cons, bind, Option.bind, if_pos hrange, hvalue, Nat.mul_comm acc 10] at hstep ⊢
      exact hstep
  have hdigits : ∀ c ∈ Nat.toDigits 10 n, c.isDigit :=
    fun c hc => Nat.isDigit_of_mem_toDigits (by decide) (by decide) hc
  rw [toNat?, if_neg (by simpa using ofNat_ne_nil n), ofNat, hfold _ _ hdigits, Nat.ofDigitChars_ten_toDigits]

end Text

namespace Parser

/-- A language version is read from its canonical text. -/
theorem languageVersion_versionText {m : Metadata} (hm : m.version.toNat < 100 * UInt16.size) :
    languageVersion? m.versionText = some m.version := by
  have hdigits : ∀ b ∈ Text.ofNat (m.version.toNat / 100), decide (b ≠ Text.byte '.') := by
    intro b hb
    have hdigit := Text.isDigit_of_mem_ofNat b hb
    rw [decide_eq_true_eq]
    rintro rfl
    revert hdigit
    decide
  have htext : m.versionText = Text.ofNat (m.version.toNat / 100) ++ Text.byte '.' :: Text.ofNat (m.version.toNat % 100) :=
    List.append_assoc ..
  have hmajor : m.versionText.takeWhile (· ≠ Text.byte '.') = Text.ofNat (m.version.toNat / 100) := by
    rw [htext, List.takeWhile_append_of_pos hdigits]
    simp
  have hminor : m.versionText.dropWhile (· ≠ Text.byte '.') = Text.byte '.' :: Text.ofNat (m.version.toNat % 100) := by
    rw [htext, List.dropWhile_append_of_pos hdigits]
    simp
  have hbounds : m.version.toNat / 100 < UInt16.size ∧ m.version.toNat % 100 < 100 := by
    rw [UInt16.size] at *
    omega
  have hguard : (decide (m.version.toNat / 100 < UInt16.size) && decide (m.version.toNat % 100 < 100)) = true := by
    rw [decide_eq_true hbounds.1, decide_eq_true hbounds.2]
    rfl
  have hvalue : (m.version.toNat / 100 * 100 + m.version.toNat % 100).toUInt32 = m.version := by
    rw [Nat.div_add_mod']
    exact UInt32.ofNat_toNat
  unfold languageVersion?
  simp only [hmajor, hminor, Text.toNat?_ofNat, Option.bind_eq_bind, Option.bind_some, hguard, guard_true, hvalue]
  rfl

/-- An attribute with a string for its argument. -/
structure Attribute.Quotes (a : Attribute) (s : Text × Text) : Prop where
  name : a.name = s.1
  string : a.string = some s.2

theorem reads_quoted {s : Text × Text} {span : Span} (fuel : Nat) :
    Reads (attributeArguments fuel { name := s.1, span }) [.mark .leftParen, .string s.2, .mark .rightParen] EndsAttribute
      (·.Quotes s) := by
  refine .accept (by decide) (.neg (by decide) (.sees (fun _ _ => rfl) (.pos rfl (.quoted fun tok htok => ?_))))
  rw [htok, Literal.string_quote]
  exact .given (.expect (by decide) fun _ => .neg (by simp) (.pure ⟨rfl, rfl⟩))

theorem stringArg_quotes {a : Attribute} {s : Text × Text} (h : a.Quotes s) : a.stringArg = .ok s.2 := by
  rw [Attribute.stringArg, h.string]

section

variable {m : Metadata} {a : Attribute} {t : Text}

theorem headAttribute_version {v : UInt32} (h : a.Quotes ("nzsl_version", t)) (hv : languageVersion? t = some v) :
    headAttribute m a = .ok { m with version := v } := by
  have hname : a.name = "nzsl_version" := h.name
  rw [headAttribute, hname, if_pos (by decide), stringArg_quotes h]
  dsimp only [bind, Except.bind]
  rw [hv]
  rfl

theorem headAttribute_author (h : a.Quotes ("author", t)) : headAttribute m a = .ok { m with author := t } := by
  have hname : a.name = "author" := h.name
  rw [headAttribute, hname, if_neg (by decide), if_pos (by decide), stringArg_quotes h]
  rfl

theorem headAttribute_description (h : a.Quotes ("desc", t)) : headAttribute m a = .ok { m with description := t } := by
  have hname : a.name = "desc" := h.name
  rw [headAttribute, hname, if_neg (by decide), if_neg (by decide), if_pos (by decide), stringArg_quotes h]
  rfl

theorem headAttribute_license (h : a.Quotes ("license", t)) : headAttribute m a = .ok { m with license := t } := by
  have hname : a.name = "license" := h.name
  rw [headAttribute, hname, if_neg (by decide), if_neg (by decide), if_neg (by decide), if_pos (by decide),
    stringArg_quotes h]
  rfl

end

/-- An attribute of the head that stands if its text is not empty. -/
theorem foldlM_optional {as : List Attribute} {s : Text × Text} {rest : List (Text × Text)} {m m' : Metadata}
    (hset : ∀ a : Attribute, a.Quotes s → headAttribute m a = .ok m') (hempty : s.2.isEmpty → m' = m)
    (h : List.Forall₂ Attribute.Quotes as ([s].filter (fun s => !s.2.isEmpty) ++ rest)) :
    ∃ as', List.Forall₂ Attribute.Quotes as' rest ∧
      as.foldlM (m := Except ParseError) headAttribute m = as'.foldlM (m := Except ParseError) headAttribute m' := by
  cases hs : s.2.isEmpty with
  | true =>
    rw [List.filter_cons, hs] at h
    exact ⟨as, h, by rw [hempty hs]⟩
  | false =>
    rw [List.filter_cons, hs] at h
    cases h with
    | @cons a _ as _ ha has => exact ⟨as, has, by rw [List.foldlM_cons, hset a ha]; rfl⟩

/-- The attributes of a module's head are taken up again. -/
theorem foldlM_strings {as : List Attribute} {m : Metadata} (hm : m.version.toNat < 100 * UInt16.size)
    (h : List.Forall₂ Attribute.Quotes as m.strings) :
    as.foldlM (m := Except ParseError) headAttribute { name := m.name } = .ok { m with imports := [] } := by
  have hstrings : m.strings = (("nzsl_version" : Text), m.versionText) ::
      ([(("author" : Text), m.author)].filter (fun s => !s.2.isEmpty) ++
        ([(("desc" : Text), m.description)].filter (fun s => !s.2.isEmpty) ++
          ([(("license" : Text), m.license)].filter (fun s => !s.2.isEmpty) ++ []))) := by
    rw [List.append_nil, ← List.filter_append, ← List.filter_append]
    rfl
  rw [hstrings] at h
  cases h with
  | @cons a _ as _ ha has =>
    rw [List.foldlM_cons, headAttribute_version ha (languageVersion_versionText hm)]
    have hempty {t : Text} (ht : t.isEmpty) : t = [] := List.isEmpty_iff.mp ht
    obtain ⟨as₁, has₁, h₁⟩ := foldlM_optional (m := { name := m.name, version := m.version })
      (fun _ ha => headAttribute_author ha) (fun hs => by rw [hempty (t := m.author) hs]) has
    obtain ⟨as₂, has₂, h₂⟩ := foldlM_optional (m := { name := m.name, version := m.version, author := m.author })
      (fun _ ha => headAttribute_description ha) (fun hs => by rw [hempty (t := m.description) hs]) has₁
    obtain ⟨as₃, has₃, h₃⟩ := foldlM_optional
      (m := { name := m.name, version := m.version, author := m.author, description := m.description })
      (fun _ ha => headAttribute_license ha) (fun hs => by rw [hempty (t := m.license) hs]) has₂
    cases has₃
    exact h₁.trans (h₂.trans h₃)

theorem distinct_strings (m : Metadata) : DistinctNames (m.strings.map Prod.fst) := by
  have hall : DistinctNames ["nzsl_version", "author", "desc", "license"] := ⟨by decide, by decide⟩
  exact hall.sublist ((List.filter_sublist.map Prod.fst).cons_cons _)

theorem reads_moduleHead {m : Metadata} {fuel : Nat} (hm : m.version.toNat < 100 * UInt16.size) (hf : 8 * Part.size m.parts ≤ fuel) :
    Reads (moduleHead fuel) m.parts (fun _ => True) (· = { m with imports := [] }) := by
  unfold Metadata.parts at hf ⊢
  have hsplit : ∀ qs : List Part, Part.mark .leftBracket :: (Part.separate (m.strings.map fun s =>
      [.name s.1, .mark .leftParen, .string s.2, .mark .rightParen]) ++ .mark .rightBracket :: qs) =
        (.mark .leftBracket :: (Part.separate (m.strings.map fun s =>
          .name s.1 :: [.mark .leftParen, .string s.2, .mark .rightParen]) ++ [.mark .rightBracket])) ++ qs := by
    intro qs
    simp
  simp only [Part.size_cons, Part.size_append, Part.size_nil, Part.length_mark] at hf
  have hne : m.strings ≠ [] := List.cons_ne_nil _ _
  have hattributes := reads_attributes (M := Attribute.Quotes) hne (distinct_strings m)
    (fun a s ha => ha.name) (fun s _ fuel span _ => reads_quoted fuel) (by omega : _ ≤ fuel)
  rw [hsplit]
  refine hattributes.bind (by simp) fun attrs hattrs => .expect (by decide) fun _ => ?_
  have hclose {name : Text} (hname : name = m.name) :
      Reads (do
        let _ ← expect .semicolon
        (attrs.foldlM (m := Except ParseError) headAttribute { name } : Except ParseError Metadata)) [.mark .semicolon]
        (fun _ => True) (· = { m with imports := [] }) := by
    rw [hname]
    exact .expect (by decide) fun _ => .lifted (foldlM_strings hm hattrs) rfl
  cases hempty : m.name.isEmpty with
  | true =>
    refine .misses (by simp) (.neg (by decide) (.given (hclose ?_)))
    exact (List.isEmpty_iff.mp hempty).symm
  | false =>
    rw [hempty] at hf
    simp only [Bool.false_eq_true, if_false, Part.size_cons, Part.size_nil] at hf ⊢
    refine .sees (fun _ _ => ?_) (.pos rfl ?_)
    · obtain ⟨n, ns, hcut, -⟩ := Text.join_cut (Text.byte '.') m.name
      rw [Part.front, Part.spell_append, Part.spell_cons, Part.lexemes, Part.pathLexemes, hcut]
      rfl
    · exact (reads_path (by omega)).bind (by simp) fun name hname => hclose hname

/-- What a module that was read from the tokens of another one has in common with it. -/
structure Rewrites (m' m : Module) : Prop where
  head : Canonical.headLines (m'.metadata.getD {}) = Canonical.headLines (m.metadata.getD {})
  body : ∃ b' b, m'.root = some b' ∧ m.root = some b ∧ List.Forall₂ Redeclares b'.body b.body

theorem reads_moduleOf {m : Module} {fuel : Nat} (hm : m.Formed) (h : ∀ p ∈ m.parts, p.Rereadable)
    (hf : 8 * Part.size m.parts + 2 ≤ fuel) : Reads (moduleOf fuel) m.parts (· = .endOfFile) (Rewrites · m) := by
  obtain ⟨d, hmetadata, hversion⟩ := hm.head
  obtain ⟨b, hroot, hbody⟩ := hm.body
  have hparts : m.parts = d.parts ++ b.body.flatMap (Stmt.declarationParts []) := by
    rw [Module.parts, hroot, hmetadata]
    rfl
  rw [hparts] at h hf ⊢
  rw [List.forall_mem_append, List.forall_mem_flatMap] at h
  rw [Part.size_append] at hf
  refine (reads_moduleHead hversion (by omega)).bind (fun _ _ => trivial) ?_
  rintro d' rfl
  refine .place fun place => (reads_declarations hbody h.2 (by omega)).last (fun _ hk => hk) fun body hsame => .pure ?_
  refine ⟨?_, ⟨place.span, body⟩, b, rfl, hroot, hsame⟩
  rw [hmetadata]
  rfl

end Parser

theorem Module.canonicalText_rewritten {m' m : Module} {t : Text} (hm : m.Formed) (hsource : ∀ p ∈ m.parts, p.isSource)
    (h : Parser.Rewrites m' m) (ht : canonicalText (some m) = .ok t) : canonicalText (some m') = .ok t := by
  obtain ⟨d, hmetadata, -⟩ := hm.head
  obtain ⟨b₀, hroot₀, hbody⟩ := hm.body
  obtain ⟨hhead, b', b, hroot', hroot, hsame⟩ := h
  obtain rfl : b₀ = b := Option.some.inj (hroot₀.symm.trans hroot)
  have hparts : m.parts = d.parts ++ b₀.body.flatMap (Stmt.declarationParts []) := by
    rw [Module.parts, hroot, hmetadata]
    rfl
  rw [hparts, List.forall_mem_append, List.forall_mem_flatMap] at hsource
  obtain ⟨ls, hls, -⟩ := Canonical.topLines_written hbody hsource.2 .absent
  have hlines (n : Canonical.Names) : Canonical.topLines n .absent b'.body = .ok ls := by
    rw [Parser.topLines_redeclared hsame hbody (fun _ => rfl), hls]
  simp only [canonicalText, hroot, hls] at ht
  simp only [canonicalText, hroot', hlines, hhead]
  exact ht

/-- Whatever was parsed has a canonical text, and parsing this again and writing it leaves it as it is, if no less-than
sign follows a generic name, all types are operands, and the floats are read back. -/
theorem Module.canonicalText_reparse {source : Text} {m : Module} (h : parse source = .ok m) :
    ∃ t, canonicalText (some m) = .ok t ∧
      ((∀ p ∈ m.parts, p.isClear ∧ p.isPlain ∧ ∀ x ∈ p.floats, x.ReadsBack) →
        ∃ m', parse t = .ok m' ∧ canonicalText (some m') = .ok t) := by
  obtain ⟨hm, hsource⟩ := formed_parse h
  obtain ⟨t, ht, yt⟩ := canonicalText_written hm hsource
  refine ⟨t, ht, fun hparts => ?_⟩
  have hrereadable : ∀ p ∈ m.parts, p.Rereadable :=
    fun p hp => ⟨hsource p hp, (hparts p hp).1, (hparts p hp).2.1, (hparts p hp).2.2⟩
  obtain ⟨ts, hts, hspelled⟩ := yt.yields.spells [] ⟨1, 1, 0⟩
  obtain ⟨us, vs, rfl, hus, hvs⟩ := Spelled.append hspelled
  obtain ⟨last, ws, rfl, hlast, -, hws⟩ := hvs.cons
  obtain rfl := hws.nil
  have hfuel : 8 * Part.size m.parts + 2 ≤ Parser.fuelFor (us ++ [last]) := by
    rw [Parser.fuelFor, List.length_append, hus.length_eq, Part.size]
    omega
  have hend : Parser.headKind [last] = .endOfFile := hlast
  obtain ⟨m', hrun, hsame⟩ := (Parser.reads_moduleOf hm hrereadable hfuel).run hus hend
  refine ⟨m', ?_, canonicalText_rewritten hm hsource hsame ht⟩
  have htokens : tokenize [] t = .ok (us ++ [last]) := hts
  rw [parse, htokens]
  change ofTokens (us ++ [last]) = _
  rw [ofTokens, StateT.run', hrun]
  rfl

/-- Is a source text parsed, and its canonical text too? -/
def Module.isReparsed (source : Text) : Bool :=
  match parse source with
  | .ok m =>
    match canonicalText (some m) with
    | .ok t => (parse t).isOk
    | .error _ => false
  | .error _ => false

-- A type in parentheses is written without them, and so is a generic name on the left of a less-than sign.
example : Module.isReparsed "module; const x: (a + b) = 1;" = false := by decide +kernel
example : Module.isReparsed "module; fn f() \x7b let v = (vec3) < x; \x7d" = false := by decide +kernel
example : Module.isReparsed "module; fn f() \x7b let v = vec3[f32](x); \x7d" = true := by decide +kernel

end Shading
