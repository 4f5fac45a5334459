import Shading.Glsl
import Shading.Proofs.Glsl.Postorder
import Shading.Proofs.Module.Specialized

/-! The order of the definitions in a shader. Structures stand before whatever is made of them, and functions before
those that call them. -/
namespace Shading

namespace Specialization

variable {s : Specialization}

end Specialization

namespace Glsl

/-- A call of one function that is there stands in the body of another one. -/
def Calls (s : Specialization) (f g : FunctionDecl) : Prop :=
  g ∈ s.functions ∧ ∃ i j args, .expr (.call i (.function j g.head.id) args) ∈ f.nodes

section

variable {settings lowerings : CheckSettings} {m r : Module} {s : Specialization}

end

section

variable {settings lowerings : CheckSettings} {m r : Module} {s : Specialization}

end

section

variable {α β : Type} {c : Context} {σ σ' : State}

theorem bind_ok {x : Glsl α} {f : α → Glsl β} {b : β} :
    (x >>= f) c σ = .ok (b, σ') ↔ ∃ a σ₁, x c σ = .ok (a, σ₁) ∧ f a c σ₁ = .ok (b, σ') := run_bind_ok

/-- Something writes lines, starting from some state. -/
def Writes (c : Context) (x : Glsl (List Text)) (lines : List Text) : Prop := ∃ σ σ', x c σ = .ok (lines, σ')

/-- A structure that is named in a type has got its name. -/
theorem elementName_struct {names : List (Int × Text)} {r : Record Ty} {n : Text} :
    elementName names (.struct r) = .ok n ↔ names.lookup r.id = some n := by
  rw [elementName]
  cases names.lookup r.id <;> simp

/-- A name stands behind the type that it is declared with, and in front of the sizes of arrays. -/
theorem declaration_ok {t : Ty} {name decl : Text} (h : declaration t name c σ = .ok (.ok decl, σ')) :
    σ'.structs = σ.structs ∧ ∃ type, elementName σ.structs t.innermost = .ok type ∧
      decl = type ++ " " ++ name ++ arraySuffix t := by
  obtain ⟨u, σ₁, hnote, h⟩ := bind_ok.mp h
  cases hnote
  obtain ⟨σ₂, σ₃, hget, h⟩ := bind_ok.mp h
  cases hget
  obtain ⟨heq, hσ⟩ := Prod.mk.inj (Except.ok.inj h)
  subst hσ
  dsimp only at heq
  cases htype : elementName σ.structs t.innermost with
  | error e =>
    rw [htype] at heq
    cases heq
  | ok type =>
    rw [htype] at heq
    cases heq
    exact ⟨rfl, type, rfl, rfl⟩

/-- The declaration of a member. -/
def DeclaresMember (names : List (Int × Text)) (m : Text × Ty) (line : Text) : Prop :=
  ∃ type, elementName names m.2.innermost = .ok type ∧ line = type ++ " " ++ escape m.1 ++ arraySuffix m.2 ++ ";"

theorem memberLines_ok {struct : Text} {ms : List (Text × Ty)} {lines : List Text}
    (h : memberLines struct ms c σ = .ok (lines, σ')) :
    σ'.structs = σ.structs ∧ List.Forall₂ (DeclaresMember σ.structs) ms lines := by
  induction ms generalizing lines σ with
  | nil =>
    cases h
    exact ⟨rfl, .nil⟩
  | cons m ms ih =>
    obtain ⟨name, t⟩ := m
    obtain ⟨form, σ₁, hform, h⟩ := bind_ok.mp h
    cases form with
    | error e =>
      obtain ⟨u, σ₂, hthrow, -⟩ := bind_ok.mp h
      cases hthrow
    | ok decl =>
      obtain ⟨d, σ₂, hpure, h⟩ := bind_ok.mp h
      cases hpure
      obtain ⟨rest, σ₃, hrest, hlast⟩ := bind_ok.mp h
      cases hlast
      obtain ⟨hstructs, type, htype, rfl⟩ := declaration_ok hform
      obtain ⟨hstructs', hdeclared⟩ := ih hrest
      rw [hstructs] at hstructs' hdeclared
      exact ⟨hstructs', .cons ⟨type, htype, rfl⟩ hdeclared⟩

theorem structBlock_ok {d : StructDecl} {lines : List Text} (h : structBlock d c σ = .ok (lines, σ')) :
    σ'.structs = σ.structs ∧ ∃ members, List.Forall₂ (DeclaresMember σ.structs) (recordOf d).members members ∧
      lines = block ("struct " ++ (σ.structs.lookup d.id).getD [] ++ " ") members [closing ++ ";", []] := by
  obtain ⟨σ₁, σ₂, hget, h⟩ := bind_ok.mp h
  cases hget
  obtain ⟨members, σ₃, hmembers, hlast⟩ := bind_ok.mp h
  cases hlast
  obtain ⟨hstructs, hdeclared⟩ := memberLines_ok hmembers
  exact ⟨hstructs, members, hdeclared, rfl⟩

/-- Lines are the blocks of some structures, one after the other. Those with a member of unknown length have none. -/
def Lays (c : Context) (names : List (Int × Text)) (ds : List StructDecl) (lines : List Text) : Prop :=
  ∃ bs : List (StructDecl × List Text), bs.map (·.1) = (ds.filter fun d => !hasRuntimeArray (recordOf d)) ∧
    lines = bs.flatMap (·.2) ∧
    ∀ b ∈ bs, ∃ σ σ', σ.structs = names ∧ structBlock b.1 c σ = .ok (b.2, σ')

namespace Lays

variable {names : List (Int × Text)} {ds ds' : List StructDecl} {lines lines' : List Text}

theorem none : Lays c names [] [] := ⟨[], rfl, rfl, fun _ hb => absurd hb List.not_mem_nil⟩

theorem append (h : Lays c names ds lines) (h' : Lays c names ds' lines') :
    Lays c names (ds ++ ds') (lines ++ lines') := by
  obtain ⟨bs, hbs, rfl, hwritten⟩ := h
  obtain ⟨bs', hbs', rfl, hwritten'⟩ := h'
  refine ⟨bs ++ bs', ?_, List.flatMap_append.symm, List.forall_mem_append.mpr ⟨hwritten, hwritten'⟩⟩
  rw [List.map_append, hbs, hbs', List.filter_append]

theorem block {d : StructDecl} (hd : hasRuntimeArray (recordOf d) = false) (h : structBlock d c σ = .ok (lines, σ')) :
    Lays c σ.structs [d] lines := by
  refine ⟨[(d, lines)], ?_, ?_, fun b hb => ?_⟩
  · rw [List.filter_singleton, hd]
    rfl
  · exact (List.append_nil lines).symm
  · rw [List.mem_singleton.mp hb]
    exact ⟨σ, σ', rfl, h⟩

theorem unwritten {d : StructDecl} (hd : hasRuntimeArray (recordOf d) = true) : Lays c names [d] [] := by
  refine ⟨[], ?_, rfl, fun _ hb => absurd hb List.not_mem_nil⟩
  rw [List.filter_singleton, hd]
  rfl

end Lays

/-- Structures one after the other, each of which is written in its order. -/
theorem structLines_foldlM {depth : Nat} {ds : List StructDecl} {written written' : List Int}
    {lines lines' : List Text}
    (hone : ∀ {d written written' lines σ σ'}, structLines depth d written c σ = .ok ((lines, written'), σ') →
      σ'.structs = σ.structs ∧ ∃ new, Lays c σ.structs new lines ∧
        ∀ order, postorder (·.id) (contained c.source) depth d (written, order) = (written', order ++ new))
    (h : (ds.foldlM (fun (lines, written) d => do
      let (more, written) ← structLines depth d written
      return (lines ++ more, written)) (lines, written) : Glsl (List Text × List Int)) c σ =
        .ok ((lines', written'), σ')) :
    σ'.structs = σ.structs ∧ ∃ new more, lines' = lines ++ more ∧ Lays c σ.structs new more ∧
      ∀ order, postorderAll (·.id) (contained c.source) depth ds (written, order) = (written', order ++ new) := by
  induction ds generalizing lines written σ with
  | nil =>
    cases h
    exact ⟨rfl, [], [], (List.append_nil _).symm, .none, fun order => by rw [List.append_nil]; rfl⟩
  | cons d ds ih =>
    rw [List.foldlM_cons] at h
    obtain ⟨⟨lines₁, written₁⟩, σ₁, hfirst, h⟩ := bind_ok.mp h
    obtain ⟨⟨more, written₂⟩, σ₂, hd, hpure⟩ := bind_ok.mp hfirst
    cases hpure
    obtain ⟨hstructs, new, hlays, horder⟩ := hone hd
    obtain ⟨hstructs', new', more', rfl, hlays', horder'⟩ := ih h
    rw [hstructs] at hstructs' hlays'
    refine ⟨hstructs', new ++ new', more ++ more', List.append_assoc .., hlays.append hlays', fun order => ?_⟩
    rw [postorderAll, List.foldl_cons, horder order, ← List.append_assoc]
    exact horder' (order ++ new)

/-- A structure is written after all that it is made of. -/
theorem structLines_ok {depth : Nat} {d : StructDecl} {written written' : List Int} {lines : List Text}
    (h : structLines depth d written c σ = .ok ((lines, written'), σ')) :
    σ'.structs = σ.structs ∧ ∃ new, Lays c σ.structs new lines ∧
      ∀ order, postorder (·.id) (contained c.source) depth d (written, order) = (written', order ++ new) := by
  induction depth generalizing d written written' lines σ σ' with
  | zero =>
    cases h
    exact ⟨rfl, [], .none, fun order => by rw [List.append_nil]; rfl⟩
  | succ depth ih =>
    rw [structLines] at h
    split at h
    · next hmarked =>
      cases h
      refine ⟨rfl, [], .none, fun order => ?_⟩
      rw [postorder, if_pos hmarked, List.append_nil]
    · next hnew =>
      obtain ⟨c', σ₁, hread, h⟩ := bind_ok.mp h
      cases hread
      obtain ⟨⟨before, written₁⟩, σ₂, hfold, h⟩ := bind_ok.mp h
      obtain ⟨hstructs, new, more, rfl, hlays, horder⟩ := structLines_foldlM ih hfold
      have hpostorder (order : List StructDecl) :
          postorder (·.id) (contained c.source) (depth + 1) d (written, order) = (written₁, order ++ (new ++ [d])) := by
        rw [postorder, if_neg hnew, ← List.append_assoc]
        have hnext := horder order
        rw [postorderAll] at hnext
        rw [hnext]
      dsimp only at h
      split at h
      · next hruntime =>
        cases h
        refine ⟨hstructs, new ++ [d], ?_, hpostorder⟩
        have happend := hlays.append (.unwritten hruntime)
        rwa [List.append_nil] at happend
      · next hsized =>
        obtain ⟨block, σ₃, hblock, hpure⟩ := bind_ok.mp h
        cases hpure
        obtain ⟨hstructs', -⟩ := structBlock_ok hblock
        refine ⟨hstructs'.trans hstructs, new ++ [d], ?_, hpostorder⟩
        have hlast := Lays.block (Bool.eq_false_iff.mpr hsized) hblock
        rw [hstructs] at hlast
        exact hlays.append hlast

/-- All structures are written, each after all that it is made of. -/
theorem allStructLines_ok {lines : List Text} (h : allStructLines c σ = .ok (lines, σ')) :
    ∃ ds, Lays c σ.structs ds lines ∧
      ds = (postorderAll (·.id) (contained c.source) (c.source.structs.length + 1) c.source.structs ([], [])).2 := by
  obtain ⟨c', σ₁, hread, h⟩ := bind_ok.mp h
  cases hread
  obtain ⟨⟨all, written⟩, σ₂, hfold, hpure⟩ := bind_ok.mp h
  cases hpure
  obtain ⟨-, new, more, rfl, hlays, horder⟩ := structLines_foldlM structLines_ok hfold
  exact ⟨new, hlays, by rw [horder]; rfl⟩

/-- What each step keeps is kept by all of them. -/
theorem forM_keeps {P : State → Prop} {f : α → Glsl PUnit} {as : List α} {u : PUnit}
    (hf : ∀ a ∈ as, ∀ v σ σ', f a c σ = .ok (v, σ') → P σ → P σ') (h : (as.forM f) c σ = .ok (u, σ')) (hσ : P σ) :
    P σ' := by
  induction as generalizing σ with
  | nil =>
    cases h
    exact hσ
  | cons a as ih =>
    rw [List.forall_mem_cons] at hf
    obtain ⟨v, σ₁, hfirst, h⟩ := bind_ok.mp h
    exact ih hf.2 h (hf.1 v σ σ₁ hfirst hσ)

/-- Something gets a name. -/
theorem freshName_ok {identifier : Text} {f : Text → State → State} {u : PUnit}
    (h : (do
      let name ← freshName identifier
      modify (f name) : Glsl PUnit) c σ = .ok (u, σ')) : ∃ name namer, σ' = f name { σ with namer } := by
  obtain ⟨name, σ₁, hname, hlast⟩ := bind_ok.mp h
  cases hname
  cases hlast
  exact ⟨_, _, rfl⟩

/-- Only structures that are there have names. -/
def NamesStructs (s : Specialization) (σ : State) : Prop := ∀ k ∈ σ.structs, ∃ d ∈ s.structs, d.id = k.1

theorem nameDeclarations_ok {reached : List FunctionDecl} {u : PUnit} (h : nameDeclarations reached c {} = .ok (u, σ')) :
    NamesStructs c.source σ' := by
  obtain ⟨v₁, σ₁, hreserve, h⟩ := bind_ok.mp h
  cases hreserve
  obtain ⟨c', σ₂, hread, h⟩ := bind_ok.mp h
  cases hread
  obtain ⟨v₃, σ₃, hstructs, h⟩ := bind_ok.mp h
  obtain ⟨v₄, σ₄, hconstants, h⟩ := bind_ok.mp h
  obtain ⟨v₅, σ₅, hvars, hfunctions⟩ := bind_ok.mp h
  have hnamed : NamesStructs c.source σ₃ := by
    refine forM_keeps (fun d hd v σ σ' hstep hσ => ?_) hstructs fun _ hk => absurd hk List.not_mem_nil
    obtain ⟨name, namer, rfl⟩ := freshName_ok hstep
    exact List.forall_mem_cons.mpr ⟨⟨d, hd, rfl⟩, hσ⟩
  replace hnamed : NamesStructs c.source σ₄ := by
    refine forM_keeps (fun x _ v σ σ' hstep hσ => ?_) hconstants hnamed
    obtain ⟨name, namer, rfl⟩ := freshName_ok hstep
    exact hσ
  replace hnamed : NamesStructs c.source σ₅ := by
    refine forM_keeps (fun x _ v σ σ' hstep hσ => ?_) hvars hnamed
    obtain ⟨name, namer, rfl⟩ := freshName_ok hstep
    exact hσ
  refine forM_keeps (fun f _ v σ σ' hstep hσ => ?_) hfunctions hnamed
  obtain ⟨name, namer, rfl⟩ := freshName_ok hstep
  exact hσ

/-- What is written for each element of a list. -/
theorem mapM_ok {f : α → Glsl β} {as : List α} {written : List β} (h : as.mapM f c σ = .ok (written, σ')) :
    ∃ bs : List (α × β), bs.map (·.1) = as ∧ bs.map (·.2) = written ∧
      ∀ b ∈ bs, ∃ σ σ', f b.1 c σ = .ok (b.2, σ') := by
  induction as generalizing written σ with
  | nil =>
    cases h
    exact ⟨[], rfl, rfl, fun _ hb => absurd hb List.not_mem_nil⟩
  | cons a as ih =>
    rw [List.mapM_cons] at h
    obtain ⟨first, σ₁, hfirst, h⟩ := bind_ok.mp h
    obtain ⟨rest, σ₂, hrest, hpure⟩ := bind_ok.mp h
    cases hpure
    obtain ⟨bs, rfl, rfl, hwritten⟩ := ih hrest
    exact ⟨(a, first) :: bs, rfl, rfl, List.forall_mem_cons.mpr ⟨⟨σ, σ₁, hfirst⟩, hwritten⟩⟩

end

/-- A shader in its parts. -/
structure Parts where
  structs : List (StructDecl × List Text)
  constants : List Text
  externals : List Text
  interface : List Text
  functions : List (FunctionDecl × List Text)
  main : List Text

namespace Parts

/-- The parts one after the other. -/
def lines (v : Version) (p : Parts) : List Text :=
  [Text.ofString "#version " ++ v.text, []] ++ precisionLines v ++ p.structs.flatMap (·.2) ++ p.constants ++
    p.externals ++ p.interface ++ p.functions.flatMap (·.2) ++ p.main

/-- The definitions in the parts are those of the structures and functions, and whatever else there is comes from
the declarations of other kinds, from the entry point and from the program's own `main`. -/
structure WrittenFor (p : Parts) (c : Context) (entry : FunctionDecl) : Prop where
  structs : ∀ b ∈ p.structs, Writes c (structBlock b.1) b.2
  constants : Writes c constantsLines p.constants
  externals : Writes c (externalsLines (p.functions.map (·.1))) p.externals
  interface : Writes c (Glsl.interface entry) p.interface
  functions : ∀ b ∈ p.functions, Writes c (functionLines b.1) b.2
  main : Writes c (mainLines entry) p.main

end Parts

/-- Everything that the members of a structure are made of is there. -/
def Complete (s : Specialization) (d : StructDecl) : Prop :=
  ∀ f ∈ d.members, ∀ x, f.type.denoted.innermost = .struct x → ∃ e ∈ s.structs, e.id = x.id

variable {c : Context} {σ : State}

theorem mem_of_lookup {ks : List (Int × Text)} {id : Int} {n : Text} (h : ks.lookup id = some n) : (id, n) ∈ ks := by
  obtain ⟨before, after, rfl, -⟩ := List.lookup_eq_some_iff.mp h
  exact List.mem_append_right _ List.mem_cons_self

/-- The structures that the members of a written structure are made of are there. -/
theorem complete_of_structBlock {d : StructDecl} {σ' : State} {lines : List Text} (hσ : NamesStructs c.source σ)
    (h : structBlock d c σ = .ok (lines, σ')) : Complete c.source d := by
  intro f hf x hx
  obtain ⟨-, members, hdeclared, -⟩ := structBlock_ok h
  have hmember : (f.name, f.type.denoted) ∈ (recordOf d).members := List.mem_map_of_mem hf
  obtain ⟨line, -, type, htype, -⟩ := exists_of_forall₂ hdeclared.flip hmember
  rw [hx, elementName_struct] at htype
  exact hσ _ (mem_of_lookup htype)

/-- A shader that is written consists of its parts. -/
theorem shaderLines_ok {entry : FunctionDecl} {lines : List Text} {σ' : State}
    (h : shaderLines entry c {} = .ok (lines, σ')) :
    ∃ p : Parts, lines = p.lines c.version ∧ p.WrittenFor c entry ∧ p.functions.map (·.1) = reachable c.source entry ∧
      p.structs.map (·.1) =
        ((postorderAll (·.id) (contained c.source) (c.source.structs.length + 1) c.source.structs ([], [])).2.filter
          fun d => !hasRuntimeArray (recordOf d)) ∧
      ∀ d ∈ p.structs.map (·.1), Complete c.source d := by
  obtain ⟨c', σ₀, hread, h⟩ := bind_ok.mp h
  cases hread
  obtain ⟨u, σ₁, hnames, h⟩ := bind_ok.mp h
  obtain ⟨structs, σ₂, hstructs, h⟩ := bind_ok.mp h
  obtain ⟨constants, σ₃, hconstants, h⟩ := bind_ok.mp h
  obtain ⟨externals, σ₄, hexternals, h⟩ := bind_ok.mp h
  obtain ⟨stageVars, σ₅, hinterface, h⟩ := bind_ok.mp h
  obtain ⟨functions, σ₆, hfunctions, h⟩ := bind_ok.mp h
  obtain ⟨main, σ₇, hmain, h⟩ := bind_ok.mp h
  obtain ⟨σ₈, σ₉, hget, h⟩ := bind_ok.mp h
  cases hget
  obtain ⟨ds, ⟨bs, hbs, rfl, hwritten⟩, hds⟩ := allStructLines_ok hstructs
  obtain ⟨fs, hfs, rfl, hbodies⟩ := mapM_ok hfunctions
  have hlines : lines = (Parts.mk bs constants externals stageVars fs main).lines c.version := by
    dsimp only at h
    split at h
    · obtain ⟨v, σ₁₀, hfail, -⟩ := bind_ok.mp h
      cases hfail
    · cases h
      rfl
  refine ⟨⟨bs, constants, externals, stageVars, fs, main⟩, hlines, ?_, hfs, hds ▸ hbs, fun d hd => ?_⟩
  · refine ⟨fun b hb => ?_, ⟨_, _, hconstants⟩, ?_, ⟨_, _, hinterface⟩, hbodies, ⟨_, _, hmain⟩⟩
    · obtain ⟨σ, σ', -, hblock⟩ := hwritten b hb
      exact ⟨σ, σ', hblock⟩
    · rw [hfs]
      exact ⟨_, _, hexternals⟩
  · obtain ⟨b, hb, rfl⟩ := List.mem_map.mp hd
    obtain ⟨σ, σ', hσ, hblock⟩ := hwritten b hb
    have hnamed : NamesStructs c.source σ := by
      unfold NamesStructs
      rw [hσ]
      exact nameDeclarations_ok hnames
    exact complete_of_structBlock hnamed hblock

/-- What a shader is made from. -/
theorem generate_ok {m : Option Module} {target : Settings} {text : Text} (h : generate m target = .ok text) :
    ∃ (source : Specialization) (entry : FunctionDecl) (lines : List Text) (σ : State),
      Specialization.ofModule m { reduceLoops := true, values := target.values } = .ok source ∧
      entryPoint ⟨target, source⟩ = .ok entry ∧ shaderLines entry ⟨target, source⟩ {} = .ok (lines, σ) ∧
      text = lines.flatMap (· ++ [Text.byte '\n']) := by
  obtain ⟨source, hsource, h⟩ := bind_eq_ok h
  obtain ⟨entry, hentry, h⟩ := bind_eq_ok h
  obtain ⟨⟨lines, σ⟩, hlines, h⟩ := bind_eq_ok h
  cases h
  exact ⟨source, entry, lines, σ, hsource, hentry, hlines, rfl⟩

/-- No member of a structure is made of a structure with a member of unknown length. -/
def BuffersApart (r : Module) : Prop :=
  ∀ d ∈ r.records, hasRuntimeArray d = true → ∀ e ∈ r.records, ∀ f ∈ e.members, f.2.innermost ≠ .struct d

section

variable {settings : CheckSettings} {m r : Module} {s : Specialization}

end

-- Shaders of modules without imports, whose options have their defaults.

/-- A checked module, what is read of it for a shader, and the shader with the state in which it is finished. -/
structure Reading where
  parsed : Module
  checked : Module
  source : Specialization
  entry : FunctionDecl
  lines : List Text
  state : State

def Reading.text (x : Reading) : Text := x.lines.flatMap (· ++ [Text.byte '\n'])

def Reading.ofText (source : Text) : Option Reading := do
  let m ← (Module.parse source).toOption
  let r ← (m.check {}).toOption
  if r.keys.length + 1 < Serial.limit then
    let s ← (Specialization.ofModule (some r) { reduceLoops := true }).toOption
    let entry ← (entryPoint ⟨{}, s⟩).toOption
    let (lines, σ) ← (shaderLines entry ⟨{}, s⟩ {}).toOption
    return ⟨m, r, s, entry, lines, σ⟩
  none

theorem Reading.of_text {source : Text} {x : Reading} (h : ofText source = some x) :
    Module.parse source = .ok x.parsed ∧ x.parsed.ChecksTo {} x.checked ∧
      Specialization.ofModule (some x.checked) { reduceLoops := true } = .ok x.source ∧
      entryPoint ⟨{}, x.source⟩ = .ok x.entry ∧ shaderLines x.entry ⟨{}, x.source⟩ {} = .ok (x.lines, x.state) ∧
      generate (some x.checked) {} = .ok x.text := by
  obtain ⟨m, hm, h⟩ := Option.bind_eq_some_iff.mp h
  obtain ⟨r, hr, h⟩ := Option.bind_eq_some_iff.mp h
  split at h
  · next hroom =>
    obtain ⟨s, hs, h⟩ := Option.bind_eq_some_iff.mp h
    obtain ⟨entry, hentry, h⟩ := Option.bind_eq_some_iff.mp h
    obtain ⟨⟨lines, σ⟩, hlines, h⟩ := Option.bind_eq_some_iff.mp h
    cases h
    have hparse := ok_of_toOption hm
    have hsource := ok_of_toOption hs
    have hentry := ok_of_toOption hentry
    have hlines := ok_of_toOption hlines
    have hchecks : m.ChecksTo {} r := by
      refine ⟨⟨source, hparse⟩, fun x hx => ?_, rfl, fun name v hv => ?_, ok_of_toOption hr, hroom⟩
      · cases hx
      · cases hv
    refine ⟨hparse, hchecks, hsource, hentry, hlines, ?_⟩
    unfold generate
    rw [hsource]
    dsimp only [bind, Except.bind]
    rw [hentry]
    dsimp only
    rw [hlines]
    rfl
  · cases h

/-- Is no structure with a member of unknown length inside another one? -/
def buffersApart (r : Module) : Bool :=
  r.records.all fun d => !hasRuntimeArray d || r.records.all fun e => e.members.all fun f =>
    match f.2.innermost with
    | .struct x => x.id != d.id
    | _ => true

theorem buffersApart_iff {r : Module} (h : buffersApart r = true) : BuffersApart r := by
  intro d hd hruntime e he f hf hstruct
  have hall := List.all_eq_true.mp h d hd
  rw [hruntime, Bool.not_true, Bool.false_or] at hall
  have hapart := List.all_eq_true.mp (List.all_eq_true.mp hall e he) f hf
  rw [hstruct] at hapart
  simp at hapart

/-- Structures inside each other, one of which is a buffer only, and functions that call each other. Parameters and
local variables are named like functions and like what the generator names. -/
def orderText : Text := Text.join "\n" [
  "module;",
  "option deep: bool = true;",
  "struct Inner \x7b a: f32 \x7d",
  "[layout(std430)]",
  "struct Items \x7b count: u32, inners: dyn_array[Inner] \x7d",
  "[cond(deep)]",
  "struct Outer \x7b inners: array[Inner, 2] \x7d",
  "struct Pixel \x7b [location(0)] color: vec3[f32] \x7d",
  "fn once(x: f32) -> f32 \x7b return x; \x7d",
  "fn unused(x: f32) -> f32 \x7b return x; \x7d",
  "[cond(deep)]",
  "fn twice(x: f32) -> f32 \x7b const once_1 = 2.0; return once(once(x)) * once_1; \x7d",
  "[entry(frag)]",
  "fn main(_nzslInput: Pixel) -> Pixel",
  "\x7b",
  "  let x = once(2.0);",
  "  let once = twice(x).xxx;",
  "  _nzslInput.color = once;",
  "  return _nzslInput;",
  "\x7d"]

/-- A call that stands under a condition that does not hold, of a function that is not there. -/
def hiddenText : Text := Text.join "\n" [
  "module;",
  "option deep: bool = false;",
  "[cond(deep)]",
  "fn hidden() \x7b \x7d",
  "[entry(frag)]",
  "fn main() \x7b const if (deep) \x7b hidden(); \x7d \x7d"]

/-- Does the entry point call a function that the shader does not mention? -/
def Reading.omits (x : Reading) : Bool :=
  x.source.result.rootStmt.nodes.any fun n => match n with
    | .stmt (.function _ head _) => x.entry.callees.contains head.id && !decide (head.name <:+: x.text)
    | _ => false

/-- What is read of the two samples. -/
theorem samples_read :
    ((Reading.ofText orderText).any (fun x => buffersApart x.checked && x.state.namer.used.length ≤ UInt32.size) &&
      (Reading.ofText hiddenText).any fun x => buffersApart x.checked && x.omits) = true := by decide +kernel

theorem order_read : ∃ x, Reading.ofText orderText = some x ∧ BuffersApart x.checked ∧
    x.state.namer.used.length ≤ UInt32.size := by
  obtain ⟨x, hx, hboth⟩ := (Option.any_eq_true ..).mp (Bool.and_eq_true_iff.mp samples_read).1
  obtain ⟨hbuffers, hfew⟩ := Bool.and_eq_true_iff.mp hboth
  exact ⟨x, hx, buffersApart_iff hbuffers, of_decide_eq_true hfew⟩

end Glsl

end Shading
