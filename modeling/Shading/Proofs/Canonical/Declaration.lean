import Shading.Proofs.Canonical.Statement
import Shading.Proofs.Parser.Result

/-! The canonical text of a module that the parser gives has the tokens of the module's parts. -/
namespace Shading

namespace Text

/-- The pieces of a text make up the text. -/
theorem join_cut (b : UInt8) (t : Text) :
    ∃ piece pieces, cut b t = piece :: pieces ∧ t = piece ++ pieces.flatMap (b :: ·) := by
  induction t with
  | nil => exact ⟨[], [], rfl, rfl⟩
  | cons c t ih =>
    obtain ⟨piece, pieces, hcut, ht⟩ := ih
    rw [cut]
    by_cases hc : c = b
    · exact ⟨[], piece :: pieces, by rw [if_pos hc, hcut], by rw [hc, ht]; rfl⟩
    · refine ⟨c :: piece, pieces, by rw [if_neg hc, hcut], ?_⟩
      rw [List.cons_append, ← ht]

end Text

namespace Canonical

open Lexer

theorem path_yields {t : Text} (h : (Part.path t).isSource) : Yields t (Part.path t).lexemes := by
  obtain ⟨n, ns, hcut, ht⟩ := Text.join_cut (Text.byte '.') t
  rw [Part.isSource, hcut, List.all_cons, Bool.and_eq_true] at h
  have hmembers : (ns.map fun x => (⟨x, {}⟩ : Name)).all fun x => Lexer.isName x.text := by
    rw [List.all_map]
    exact h.2
  obtain ⟨yn, soft⟩ := yields_members hmembers
  have hall := (Yields.name h.1).append yn soft
  rw [List.flatMap_map] at hall
  rw [Part.lexemes, Part.pathLexemes, hcut]
  exact hall.of_eq ht

variable {slots : List Slot} {attrs : List Text}

/-- A declaration has lines behind attributes that are written in front of it. -/
def DeclaredAs (s : Stmt) (attrs : List Text) (slots : List Slot) : Prop :=
  ∃ ls, (∀ n, declaration n attrs s = .ok ls) ∧ Spread ls (Part.spell (s.declarationParts slots))

theorem item_yields {i : ImportItem} (h : ∀ p ∈ i.parts, p.isSource) :
    Yields (if i.rename.isEmpty then i.name else i.name ++ " as " ++ i.rename) (Part.spell i.parts) := by
  rw [ImportItem.parts, List.forall_mem_cons] at h
  rw [ImportItem.parts]
  cases hempty : i.rename.isEmpty with
  | true => exact (Yields.name h.1).cast rfl
  | false =>
    rw [hempty, if_neg (by decide), List.forall_mem_cons, List.forall_mem_singleton] at h
    have has : YieldsAlways " as " [TokenKind.lexeme .kwAs] := keyword_always (k := .kwAs) (by decide)
    have hitem := (Yields.name h.1).tail (Tail.before has rfl (Yields.name h.2.2))
    exact (hitem.of_eq (List.append_assoc ..)).cast rfl

theorem import_written {s : Span} {name : Text} {items : List ImportItem} (ha : SpellsEach attrs (slots.map Slot.parts))
    (h : ∀ p ∈ (Stmt.importFrom s name items).declarationParts slots, p.isSource) :
    DeclaredAs (.importFrom s name items) attrs slots := by
  refine ⟨_, fun n => by rw [declaration], ?_⟩
  simp only [Stmt.declarationParts, List.forall_mem_append, List.forall_mem_cons] at h
  obtain ⟨-, -, h⟩ := h
  have himport : YieldsAlways "import " [TokenKind.lexeme .kwImport] := .keyword (k := .kwImport) (by decide)
  rw [Stmt.declarationParts, Part.spell_append]
  refine (attributeLine_spread ha).append (.one ?_)
  unfold importLine
  cases items with
  | nil =>
    have hpath := path_yields (h _ List.mem_cons_self)
    exact ((himport.before hpath).tail semicolon_tail).cast (by simp [Part.lexemes])
  | cons i items =>
    simp only [List.isEmpty_cons, Bool.false_eq_true, if_false, List.forall_mem_append, List.forall_mem_cons] at h ⊢
    obtain ⟨hitems, -, hpath, -⟩ := h
    rw [Part.forall_separate (fun _ => rfl), List.forall_mem_map] at hitems
    have heach : ∀ is : List ImportItem, (∀ i ∈ is, ∀ p ∈ i.parts, p.isSource) →
        SpellsEach (is.map fun i => if i.rename.isEmpty then i.name else i.name ++ " as " ++ i.rename)
          (is.map ImportItem.parts) := by
      intro is his
      induction is with
      | nil => exact .nil
      | cons i is ih =>
        rw [List.forall_mem_cons] at his
        exact .cons (item_yields his.1) (ih his.2)
    have hfrom : YieldsAlways " from " [TokenKind.lexeme .kwFrom] := keyword_always (k := .kwFrom) (by decide)
    have hline := ((himport.before (heach _ hitems).join).tail
      (Tail.before hfrom rfl (path_yields hpath))).tail semicolon_tail
    refine (hline.of_eq ?_).cast ?_
    · simp only [List.append_assoc]
    · simp [Part.lexemes]

theorem option_written {s : Span} {d : OptionDecl} (ha : SpellsEach attrs (slots.map Slot.parts))
    (h : ∀ p ∈ (Stmt.option s d).declarationParts slots, p.isSource) : DeclaredAs (.option s d) attrs slots := by
  simp only [Stmt.declarationParts, List.forall_mem_append, List.forall_mem_cons] at h
  obtain ⟨-, -, hname, -, htype, hdefault, -⟩ := h
  obtain ⟨type, ht, yt⟩ := expr_written (source_type htype).1 0
  obtain ⟨default, hd, yd⟩ := optional_written equal_always rfl source_expr hdefault
  have hoption : YieldsAlways "option " [TokenKind.lexeme .kwOption] := .keyword (k := .kwOption) (by decide)
  have hline := (((hoption.before (Yields.name hname)).tail (Tail.before colon_always rfl yt)).tail yd).tail semicolon_tail
  have hall : Yields ("option " ++ d.name ++ ": " ++ type ++ default ++ ";") _ :=
    hline.of_eq (by simp only [List.append_assoc])
  refine ⟨_, fun n => ?_, ((attributeLine_spread ha).append (.one hall)).cast ?_⟩
  · simp only [declaration, ht, hd, bind, Except.bind]
    rfl
  · simp [Stmt.declarationParts, Part.lexemes]

/-- More attributes behind those that are written in front. -/
theorem spells_more {ts : List Text} {more : List Slot} (ha : SpellsEach attrs (slots.map Slot.parts))
    (h : SpellsEach ts (more.map Slot.parts)) : SpellsEach (attrs ++ ts) ((slots ++ more).map Slot.parts) := by
  rw [List.map_append]
  exact ha.append h

theorem allSource_right {more : List Slot} (h : ∀ p ∈ Slot.bracketed (slots ++ more), p.isSource) :
    Slot.AllSource more := (List.forall_mem_append.mp ((Slot.allSource_iff _).mp h)).2

theorem const_written {s : Span} {d : ConstDecl} (he : d.exported.GivenOr true)
    (ha : SpellsEach attrs (slots.map Slot.parts))
    (h : ∀ p ∈ (Stmt.const s d).declarationParts slots, p.isSource) : DeclaredAs (.const s d) attrs slots := by
  simp only [Stmt.declarationParts, List.forall_mem_append] at h
  obtain ⟨ts, hts, yts⟩ := flag_written he (allSource_right h.1)
  obtain ⟨t, ht, yt⟩ := constant_written h.2
  refine ⟨_, fun n => ?_, (attributeLine_spread (spells_more ha yts)).append (.one yt) |>.cast ?_⟩
  · simp only [declaration, hts, ht, bind, Except.bind]
    rfl
  · simp [Stmt.declarationParts]

theorem alias_written {s : Span} {d : AliasDecl} (he : d.exported.GivenOr true)
    (ha : SpellsEach attrs (slots.map Slot.parts))
    (h : ∀ p ∈ (Stmt.alias s d).declarationParts slots, p.isSource) : DeclaredAs (.alias s d) attrs slots := by
  simp only [Stmt.declarationParts, List.forall_mem_append, List.forall_mem_cons] at h
  obtain ⟨hslots, -, hname, -, htarget, -⟩ := h
  obtain ⟨ts, hts, yts⟩ := flag_written he (allSource_right hslots)
  obtain ⟨target, ht, yt⟩ := expr_written (source_type htarget).1 0
  have halias : YieldsAlways "alias " [TokenKind.lexeme .kwAlias] := .keyword (k := .kwAlias) (by decide)
  have hline := ((halias.before (Yields.name hname)).tail (Tail.before equal_always rfl yt)).tail semicolon_tail
  have hall : Yields ("alias " ++ d.name ++ " = " ++ target ++ ";") _ := hline.of_eq (by simp only [List.append_assoc])
  refine ⟨_, fun n => ?_, ((attributeLine_spread (spells_more ha yts)).append (.one hall)).cast ?_⟩
  · simp only [declaration, hts, ht, bind, Except.bind]
    rfl
  · simp [Stmt.declarationParts, Part.lexemes]

/-- A name with its type, behind attributes on the same line. -/
theorem typed_yields {ts : List Text} {name type : Text} {ks : List Lexeme} (ha : SpellsEach ts (slots.map Slot.parts))
    (hname : Lexer.isName name) (yt : Yields type ks) :
    Yields (attributed ts (name ++ ": " ++ type))
      (Part.spell (Slot.bracketed slots) ++ ((.identifier, name) :: TokenKind.lexeme .colon :: ks)) := by
  have hline := (Yields.name hname).tail (Tail.before colon_always rfl yt)
  exact attributed_yields ha ((hline.of_eq (List.append_assoc ..)).cast rfl)

theorem structMember_written {m : StructMember} (hm : m.Formed) (h : ∀ p ∈ m.parts, p.isSource) :
    ∃ t, (∀ n, structMember n m = .ok t) ∧ Yields t (Part.spell m.parts) := by
  simp only [StructMember.parts, List.forall_mem_append, List.forall_mem_cons] at h
  obtain ⟨hslots, hname, -, htype, -⟩ := h
  rw [Slot.allSource_iff] at hslots
  obtain ⟨hslots, hlocation⟩ := List.forall_mem_append.mp hslots
  obtain ⟨hcond, hbuiltin⟩ := List.forall_mem_append.mp hslots
  obtain ⟨cs, hcs, ycs⟩ : ∃ ts, (∀ n, (if m.cond.isAbsent then pure [] else do
      pure ["cond(" ++ (← expr n 0 m.cond) ++ ")"]) = Except.ok ts) ∧
      SpellsEach ts ((Slot.ofExpr "cond" m.cond).map Slot.parts) := by
    unfold Slot.ofExpr at *
    cases habsent : m.cond.isAbsent with
    | true => exact ⟨[], fun n => rfl, .nil⟩
    | false =>
      rw [habsent] at hcond
      obtain ⟨t, ht, yt⟩ := argument_written hcond
      exact ⟨_, fun n => by simp only [ht]; rfl, yt⟩
  obtain ⟨bs, hbs, ybs⟩ := given_written Builtin.text hm.1 hbuiltin
  obtain ⟨ls, hls, yls⟩ := given_written ofUInt32 hm.2 hlocation
  obtain ⟨type, ht, yt⟩ := expr_written (source_type htype).1 0
  refine ⟨_, fun n => ?_, (typed_yields (spells_more (spells_more ycs ybs) yls) hname yt).cast ?_⟩
  · have hcond := hcs n
    simp only [structMember, hbs, hls, ht]
    cases habsent : m.cond.isAbsent with
    | true =>
      rw [habsent] at hcond
      cases hcond
      rfl
    | false =>
      rw [habsent] at hcond
      cases hexpr : expr n 0 m.cond with
      | error e =>
        rw [hexpr] at hcond
        cases hcond
      | ok t =>
        rw [hexpr] at hcond
        cases hcond
        rfl
  · simp [StructMember.parts, Part.lexemes]

theorem externalVar_written {v : External} (hv : v.Formed) (h : ∀ p ∈ v.parts, p.isSource) :
    ∃ t, (∀ n, externalVar n v = .ok t) ∧ Yields t (Part.spell v.parts) := by
  simp only [External.parts, List.forall_mem_append, List.forall_mem_cons] at h
  obtain ⟨hslots, hname, -, htype, -⟩ := h
  rw [Slot.allSource_iff] at hslots
  obtain ⟨hset, hbinding⟩ := List.forall_mem_append.mp hslots
  obtain ⟨ss, hss, yss⟩ := given_written ofUInt32 hv.1 hset
  obtain ⟨bs, hbs, ybs⟩ := given_written ofUInt32 hv.2 hbinding
  obtain ⟨type, ht, yt⟩ := expr_written (source_type htype).1 0
  refine ⟨_, fun n => ?_, (typed_yields (spells_more yss ybs) hname yt).cast ?_⟩
  · simp only [externalVar, hss, hbs, ht, bind, Except.bind]
    rfl
  · simp [External.parts, Part.lexemes]

theorem struct_written {s : Span} {d : StructDecl} (he : d.exported.GivenOr true) (hl : d.layout.Given)
    (hm : ∀ m ∈ d.members, m.Formed) (ha : SpellsEach attrs (slots.map Slot.parts))
    (h : ∀ p ∈ (Stmt.struct s d).declarationParts slots, p.isSource) : DeclaredAs (.struct s d) attrs slots := by
  simp only [Stmt.declarationParts, List.forall_mem_append, List.forall_mem_cons] at h
  obtain ⟨hslots, -, hname, hmembers⟩ := h
  rw [List.append_assoc] at hslots
  obtain ⟨hexported, hlayout⟩ := List.forall_mem_append.mp (allSource_right hslots)
  rw [Part.forall_braces (fun _ => rfl), Part.forall_separate (fun _ => rfl), List.forall_mem_map] at hmembers
  obtain ⟨es, hes, yes⟩ := flag_written he hexported
  obtain ⟨ls, hls, yls⟩ := given_written Layout.text hl hlayout
  obtain ⟨ms, hms, yms⟩ := mapM_spells fun m hmem => structMember_written (hm m hmem) (hmembers m hmem)
  have hstruct : YieldsAlways "struct " [TokenKind.lexeme .kwStruct] := .keyword (k := .kwStruct) (by decide)
  have hbody := Spread.cons (hstruct.before (Yields.name hname)) (braces_written yms.lines)
  refine ⟨_, fun n => ?_, ((attributeLine_spread (spells_more (spells_more ha yes) yls)).append hbody).cast ?_⟩
  · simp only [declaration, hes, hls, hms, bind, Except.bind]
    rfl
  · simp [Stmt.declarationParts, Part.lexemes]

theorem external_written {s : Span} {set : Attr UInt32} {vars : List External} (hset : set.Given)
    (hv : ∀ v ∈ vars, v.Formed) (ha : SpellsEach attrs (slots.map Slot.parts))
    (h : ∀ p ∈ (Stmt.external s set vars).declarationParts slots, p.isSource) :
    DeclaredAs (.external s set vars) attrs slots := by
  simp only [Stmt.declarationParts, List.forall_mem_append, List.forall_mem_cons] at h
  obtain ⟨hslots, -, hvars⟩ := h
  rw [Part.forall_braces (fun _ => rfl), Part.forall_separate (fun _ => rfl), List.forall_mem_map] at hvars
  obtain ⟨ss, hss, yss⟩ := given_written ofUInt32 hset (allSource_right hslots)
  obtain ⟨vs, hvs, yvs⟩ := mapM_spells fun v hmem => externalVar_written (hv v hmem) (hvars v hmem)
  have hexternal : Yields "external" [TokenKind.lexeme .kwExternal] := Yields.word (t := "external") (by decide)
  have hbody := Spread.cons hexternal (braces_written yvs.lines)
  refine ⟨_, fun n => ?_, ((attributeLine_spread (spells_more ha yss)).append hbody).cast ?_⟩
  · simp only [declaration, hss, hvs, bind, Except.bind]
    rfl
  · simp [Stmt.declarationParts, Part.lexemes]

theorem workgroup_written {a : Attr (UInt32 × UInt32 × UInt32)} (ha : a.Gathered)
    (h : Slot.AllSource (Slot.ofWorkgroup a)) :
    ∃ ts, (∀ n, workgroup n a = .ok ts) ∧ SpellsEach ts ((Slot.ofWorkgroup a).map Slot.parts) := by
  obtain ⟨e, value⟩ := a
  obtain ⟨hvalue, rfl | ⟨i, t, args, rfl, hcount⟩⟩ := ha
  · cases hvalue
    exact ⟨[], fun n => rfl, .nil⟩
  · obtain ⟨-, hargs⟩ := h _ List.mem_cons_self
    obtain ⟨ts, hts, yts⟩ := exprs_written hargs
    have hne : args ≠ [] := by
      rintro rfl
      cases hcount
    refine ⟨["workgroup(" ++ Text.join ", " ts ++ ")"], fun n => by simp only [workgroup, hts]; rfl, .cons ?_ .nil⟩
    exact slot_yields "workgroup" (by decide) hne yts

theorem param_written {p : FnParam} (h : ∀ q ∈ p.parts, q.isSource) :
    ∃ t, (∀ n, (do return p.name ++ ": " ++ (← expr n 0 p.type)) = Except.ok t) ∧ Yields t (Part.spell p.parts) := by
  simp only [FnParam.parts, List.forall_mem_cons] at h
  obtain ⟨hname, -, htype, -⟩ := h
  obtain ⟨type, ht, yt⟩ := expr_written (source_type htype).1 0
  have hline := (Yields.name hname).tail (Tail.before colon_always rfl yt)
  refine ⟨p.name ++ ": " ++ type, fun n => by simp only [ht]; rfl, (hline.of_eq (List.append_assoc ..)).cast ?_⟩
  simp [FnParam.parts, Part.lexemes]

theorem isVoidType_of_source {e : Expr} (h : e.isAbsent = false → e.Sourced) : isVoidType e = false := by
  cases e with
  | typeRef i t =>
    have hsource := h rfl
    cases hsource
  | _ => rfl

theorem function_written {s : Span} {h : FnHead} {body : List Stmt} (hh : h.Formed) (hb : ∀ x ∈ body, x.Formed)
    (ha : SpellsEach attrs (slots.map Slot.parts))
    (hs : ∀ p ∈ (Stmt.function s h body).declarationParts slots, p.isSource) :
    DeclaredAs (.function s h body) attrs slots := by
  simp only [Stmt.declarationParts, List.forall_mem_append, List.forall_mem_cons] at hs
  obtain ⟨hslots, -, hname, -, hparams, -, hresult, hbody⟩ := hs
  have hown := allSource_right hslots
  simp only [FnHead.slots] at hown
  obtain ⟨hown, hexported⟩ := List.forall_mem_append.mp hown
  obtain ⟨hown, hdepth⟩ := List.forall_mem_append.mp hown
  obtain ⟨hown, hearly⟩ := List.forall_mem_append.mp hown
  obtain ⟨hentry, hgroup⟩ := List.forall_mem_append.mp hown
  rw [Part.forall_separate (fun _ => rfl), List.forall_mem_map] at hparams
  rw [Part.forall_braces (fun _ => rfl), Stmt.allParts_eq, List.forall_mem_flatMap] at hbody
  obtain ⟨ts₁, h₁, y₁⟩ := given_written Stage.text hh.stage hentry
  obtain ⟨ts₂, h₂, y₂⟩ := workgroup_written hh.workgroup hgroup
  obtain ⟨ts₃, h₃, y₃⟩ := flag_written hh.earlyTests hearly
  obtain ⟨ts₄, h₄, y₄⟩ := given_written DepthWrite.text hh.depthWrite hdepth
  obtain ⟨ts₅, h₅, y₅⟩ := flag_written hh.exported hexported
  obtain ⟨ps, hps, yps⟩ := mapM_spells fun p hp => param_written (hparams p hp)
  obtain ⟨result, hr, yr⟩ := optional_written arrow_always rfl source_type hresult
  obtain ⟨ls, hls, yls⟩ := allLines_written fun x hx => lines_written (hb x hx) (hbody x hx) false
  have hvoid : isVoidType h.result = false :=
    isVoidType_of_source ((Part.forall_optional (P := fun p => p.isSource) (fun _ => rfl) _ _ _).mp hresult)
  have hfn : YieldsAlways "fn " [TokenKind.lexeme .kwFn] := .keyword (k := .kwFn) (by decide)
  have hline := ((hfn.before (Yields.name hname)).tail (Tail.always (yields_parens yps.join) rfl)).tail yr
  have hall : Yields ("fn " ++ h.name ++ "(" ++ Text.join ", " ps ++ ")" ++ result) _ :=
    hline.of_eq (by simp only [List.append_assoc])
  have hattrs := spells_more ha (spells_more (spells_more (spells_more (spells_more y₁ y₂) y₃) y₄) y₅)
  refine ⟨_, fun n => ?_, ((attributeLine_spread hattrs).append (.cons hall (braces_written yls))).cast ?_⟩
  · simp only [declaration, functionLines, h₁, h₂, h₃, h₄, h₅, hps, hvoid, hr, hls]
    simp only [bind, Except.bind, pure, Except.pure, Bool.false_eq_true, if_false, List.append_assoc]
  · simp [Stmt.declarationParts, FnHead.slots, Part.lexemes]

theorem source_slots {s : Stmt} (slots : List Slot) (hd : s.Declared) (h : ∀ p ∈ s.declarationParts slots, p.isSource) :
    Slot.AllSource slots := by
  have hleft {more : List Slot} (h : ∀ p ∈ Slot.bracketed (slots ++ more), p.isSource) : Slot.AllSource slots :=
    (List.forall_mem_append.mp ((Slot.allSource_iff _).mp h)).1
  cases hd with
  | importFrom | option => exact (Slot.allSource_iff _).mp (List.forall_mem_append.mp h).1
  | struct =>
    rw [Stmt.declarationParts, List.append_assoc slots] at h
    exact hleft (List.forall_mem_append.mp h).1
  | _ => exact hleft (List.forall_mem_append.mp h).1

/-- A declaration that the parser gives has lines, and these have the tokens of its parts. -/
theorem declared_written {s : Stmt} (slots : List Slot) (hd : s.Declared) (ha : SpellsEach attrs (slots.map Slot.parts))
    (h : ∀ p ∈ s.declarationParts slots, p.isSource) : DeclaredAs s attrs slots := by
  cases hd with
  | importFrom => exact import_written ha h
  | option => exact option_written ha h
  | const he => exact const_written he ha h
  | «alias» he => exact alias_written he ha h
  | struct he hl _ hm => exact struct_written he hl hm ha h
  | external hset hv => exact external_written hset hv ha h
  | function hh hb => exact function_written hh hb ha h

theorem atTop_written {s : Stmt} (hd : s.AtTop) (h : ∀ p ∈ s.declarationParts [], p.isSource) : DeclaredAs s [] [] := by
  obtain hd | ⟨i, c, d, rfl, hd⟩ := hd
  · exact declared_written [] hd .nil h
  · have hcond : Slot.AllSource [⟨"cond", [c]⟩] := source_slots _ hd h
    obtain ⟨t, ht, yt⟩ := argument_written hcond
    obtain ⟨ls, hls, yls⟩ := declared_written [⟨"cond", [c]⟩] hd yt h
    exact ⟨ls, fun n => by simp only [declaration, ht, bind, Except.bind]; exact hls n, yls⟩

theorem topLines_written {body : List Stmt} (hd : ∀ s ∈ body, s.AtTop)
    (h : ∀ s ∈ body, ∀ p ∈ s.declarationParts [], p.isSource) (previous : Stmt) :
    ∃ ls, (∀ n, topLines n previous body = .ok ls) ∧ Spread ls (Part.spell (body.flatMap (Stmt.declarationParts []))) := by
  induction body generalizing previous with
  | nil => exact ⟨[], fun n => by rw [topLines], .nil⟩
  | cons s body ih =>
    rw [List.forall_mem_cons] at hd h
    obtain ⟨front, hfront, yfront⟩ := atTop_written hd.1 h.1
    obtain ⟨ls, hls, yls⟩ := ih hd.2 h.2 s
    have hempty : Spread [[]] [] := .one YieldsAlways.nil.yields
    refine ⟨(if sameGroup previous s then front else [] :: front) ++ ls, fun n => ?_, ?_⟩
    · rw [topLines]
      · simp only [hfront, hls]
        rfl
      · rintro i rfl
        obtain hd | ⟨j, c, d, heq, -⟩ := hd.1
        · cases hd
        · cases heq
    · rw [List.flatMap_cons, Part.spell_append]
      refine Spread.append ?_ yls
      split
      · exact yfront
      · exact hempty.append yfront

/-- An attribute of a module's head. -/
def quoted (s : Text × Text) : Text := s.1 ++ "(" ++ Literal.quote s.2 ++ ")"

theorem headLines_eq (m : Metadata) :
    headLines m = attributeLine (m.strings.map quoted) ++
      [("module" : Text) ++ (if m.name.isEmpty then [] else (" " : Text) ++ m.name) ++ ";"] := by
  have hattrs : ["nzsl_version(" ++ Literal.quote m.versionText ++ ")"] ++
      (if m.author.isEmpty then [] else [("author" : Text) ++ "(" ++ Literal.quote m.author ++ ")"]) ++
      (if m.description.isEmpty then [] else [("desc" : Text) ++ "(" ++ Literal.quote m.description ++ ")"]) ++
      (if m.license.isEmpty then [] else [("license" : Text) ++ "(" ++ Literal.quote m.license ++ ")"]) =
        m.strings.map quoted := by
    unfold Metadata.strings
    cases ha : m.author.isEmpty <;> cases hd : m.description.isEmpty <;> cases hl : m.license.isEmpty <;>
      simp only [List.filter_cons, ha, hd, hl] <;> rfl
  rw [← hattrs]
  rfl

theorem headLines_spread {m : Metadata} (h : ∀ p ∈ m.parts, p.isSource) : Spread (headLines m) (Part.spell m.parts) := by
  simp only [Metadata.parts, List.forall_mem_cons, List.forall_mem_append] at h
  obtain ⟨-, hstrings, -, -, hname, -⟩ := h
  rw [Part.forall_separate (fun _ => rfl), List.forall_mem_map] at hstrings
  have heach : ∀ ss : List (Text × Text), (∀ s ∈ ss, Lexer.isName s.1) → SpellsEach (ss.map quoted)
      (ss.map fun s => [.name s.1, .mark .leftParen, .string s.2, .mark .rightParen]) := by
    intro ss hss
    induction ss with
    | nil => exact .nil
    | cons s ss ih =>
      rw [List.forall_mem_cons] at hss
      have hstring := yields_parens (YieldsAlways.string s.2).yields
      have hattr := (Yields.name hss.1).tail (Tail.always hstring rfl)
      have hall : Yields (quoted s) _ := hattr.of_eq (by simp only [quoted, List.append_assoc])
      refine .cons (hall.cast ?_) (ih hss.2)
      simp [Part.lexemes]
  have hattrs := heach m.strings fun s hs => hstrings s hs _ List.mem_cons_self
  have hne : m.strings.map quoted ≠ [] := List.cons_ne_nil _ _
  have hmodule : Yields "module" [TokenKind.lexeme .kwModule] := Yields.word (t := "module") (by decide)
  have hline : Tail (if m.name.isEmpty then [] else (" " : Text) ++ m.name)
      (Part.spell (if m.name.isEmpty then [] else [.path m.name])) := by
    split
    · exact .nil
    · rename_i hempty
      rw [if_neg hempty, List.forall_mem_singleton] at hname
      exact (Tail.before .space rfl (path_yields hname)).cast (by simp)
  rw [headLines_eq, attributeLine, if_neg (by simpa using hne)]
  refine ((Spread.one (Yields.bracketed hattrs.join).yields).append
    (.one ((hmodule.tail hline).tail semicolon_tail))).cast ?_
  simp [Metadata.parts, Part.lexemes]

end Canonical

/-- A module that the parser gives has a canonical text, and this has the tokens of the module's parts. -/
theorem Module.canonicalText_written {m : Module} (hm : m.Formed) (h : ∀ p ∈ m.parts, p.isSource) :
    ∃ t, canonicalText (some m) = .ok t ∧ Lexer.YieldsAlways t (Part.spell m.parts) := by
  obtain ⟨b, hroot, hbody⟩ := hm.body
  obtain ⟨d, hmetadata, -⟩ := hm.head
  have hparts : m.parts = d.parts ++ b.body.flatMap (Stmt.declarationParts []) := by
    rw [Module.parts, hroot, hmetadata]
    rfl
  rw [hparts, List.forall_mem_append, List.forall_mem_flatMap] at h
  obtain ⟨ls, hls, yls⟩ := Canonical.topLines_written hbody h.2 .absent
  have hhead := Canonical.headLines_spread h.1
  refine ⟨(Canonical.headLines d ++ ls).flatMap fun l => l ++ "\n", ?_, ?_⟩
  · simp only [canonicalText, hroot, hmetadata, hls]
    rfl
  · rw [hparts, Part.spell_append]
    exact (hhead.append yls).always

end Shading
