import Shading.Proofs.Module.Specialized
import Shading.Proofs.Spirv.Assembly
import Shading.Proofs.Spirv.Calling

/-! The calls in the functions of a module are those of its source. -/
namespace Shading

/-- What is not computed when a program runs has no calls in the body of a function. -/
def FunctionDecl.CallsAtRun (c : Constants) (f : FunctionDecl) : Prop := ∀ n ∈ f.nodes, n.CallsAtRun c

namespace Spirv

/-- The code of a function of the source, which calls the functions that the source calls, in the same order. -/
structure Written (source : Specialization) (functions : List Function) (f : Function) (code : List Instruction) :
    Prop where
  head : ∃ result type rest, code = ⟨.opFunction, [result, f.id, 0, type]⟩ :: rest
  called : (called code).map some =
    ((Stmt.liveAll source.constants f.decl.body).flatMap Expr.issued).map fun id =>
      (function? functions id).map Function.id

theorem Code.Silent.frame {α : Type} {x : Code α} (h : Code.Silent x) {c : Context} {s s' : State} {a : α}
    (hs : x c s = .ok (a, s')) :
    s.draft.Calls s'.draft [] ∧ s'.pool.builder.functions = s.pool.builder.functions := by
  obtain ⟨_, rfl, ⟨numbers, hcalls, hnumbers⟩, hfunctions⟩ := h c s a s' hs
  rw [List.map_eq_nil_iff.mp hnumbers] at hcalls
  exact ⟨hcalls, hfunctions⟩

theorem silent_close (isVoid : Bool) : Code.Silent (Code.close (if isVoid then Draft.leave else Draft.unreachable)) := by
  apply Code.closed_silent.get.bind
  intro s
  split
  · cases isVoid with
    | true => exact Code.silent_drafted (Drafting.silent_emit (by decide) _)
    | false => exact Code.silent_drafted (Drafting.silent_emit (by decide) _)
  · exact Code.closed_silent.pure ()

/-- A function starts with an instruction that says its number, and calls nothing at first. -/
theorem called_start (id result type : UInt32) (b : Builder) :
    called (Draft.start id result type b).1.instructions = [] := by
  rw [Draft.called_instructions]
  rfl

theorem Draft.Calls.of_start {id result type : UInt32} {b : Builder} {d : Draft} {ids : List UInt32}
    (h : (Draft.start id result type b).1.Calls d ids) :
    Spirv.called d.instructions = ids ∧ ∃ rest, d.instructions = ⟨.opFunction, [result, id, 0, type]⟩ :: rest := by
  constructor
  · rw [h.called, called_start, List.nil_append]
  · obtain ⟨more, hmore⟩ := h.head
    have hhead : d.head.toList = ⟨.opFunction, [result, id, 0, type]⟩ :: more := hmore.symm
    rw [Draft.instructions, hhead]
    exact ⟨_, rfl⟩

theorem calls_body {c : Context} {f : Function} (types : List UInt32) {s s' : State}
    (hf : f.decl.CallsAtRun c.source.constants) (h : body f types c s = .ok ((), s')) :
    ∃ d numbers, s.draft.Calls d numbers ∧
      numbers.map some = ((Stmt.liveAll c.source.constants f.decl.body).flatMap Expr.issued).map c.number? ∧
      s'.pool.builder.functions.toList = s.pool.builder.functions.toList ++ d.instructions := by
  have hbody : ∀ s ∈ f.decl.body, ∀ n ∈ s.nodes, n.CallsAtRun c.source.constants := fun s hs =>
    Stmt.nodes_child hf hs
  obtain ⟨_, s₁, hname, h⟩ := Code.bind_ok.mp h
  obtain ⟨_, s₂, hparams, h⟩ := Code.bind_ok.mp h
  obtain ⟨_, s₃, hstatements, h⟩ := Code.bind_ok.mp h
  obtain ⟨_, s₄, hclose, h⟩ := Code.bind_ok.mp h
  obtain ⟨_, s₅, hfinish, h⟩ := Code.bind_ok.mp h
  cases h
  cases hfinish
  obtain ⟨hcalls₁, hfunctions₁⟩ := (Code.closed_giveName Code.closed_silent _ _).frame hname
  obtain ⟨hcalls₂, hfunctions₂⟩ := (closed_parameters Code.closed_silent _).frame hparams
  obtain ⟨_, rfl, ⟨numbers, hcalls₃, hnumbers⟩, hfunctions₃⟩ := Code.calls_statements _ c hbody _ _ _ hstatements
  obtain ⟨hcalls₄, hfunctions₄⟩ := (silent_close _).frame hclose
  refine ⟨s₄.draft, numbers, ?_, hnumbers, ?_⟩
  · have hall := ((hcalls₁.trans hcalls₂).trans hcalls₃).trans hcalls₄
    rwa [List.append_nil, List.nil_append, List.nil_append] at hall
  · have hsame : s₄.pool.builder.functions = s.pool.builder.functions := by
      rw [hfunctions₄, hfunctions₃, hfunctions₂, hfunctions₁]
    change (s₄.pool.builder.functions ++ s₄.draft.instructions.toArray).toList = _
    rw [hsame, Array.toList_append]

theorem functions_formed {α : Type} {x : Pooling α} (h : Pooling.Adds x) {span : Span} {obstacle : FormError → Obstacle}
    {p p' : Pool} {a : α} (hx : formed span obstacle x p = .ok (a, p')) : p'.builder.functions = p.builder.functions :=
  (adds_formed h span obstacle p a p' hx).functions

theorem code_function {c : Context} (hloop : c.loop = none) {f : Function} {p p' : Pool}
    (h : function c f p = .ok ((), p')) :
    ∃ code, (f.decl.CallsAtRun c.source.constants → Written c.source c.functions f code) ∧
      p'.builder.functions.toList = p.builder.functions.toList ++ code := by
  by_cases hf : f.decl.CallsAtRun c.source.constants
  · obtain ⟨result, p₁, hresult, h⟩ := bind_ok.mp h
    obtain ⟨types, p₂, htypes, h⟩ := bind_ok.mp h
    obtain ⟨type, p₃, htype, h⟩ := bind_ok.mp h
    obtain ⟨draft, p₄, hdraft, h⟩ := bind_ok.mp h
    cases hdraft
    obtain ⟨_, _, hget, h⟩ := bind_ok.mp h
    cases hget
    obtain ⟨pool, p₅, hrun, h⟩ := bind_ok.mp h
    cases h
    obtain ⟨hrun, -⟩ := liftM_ok hrun
    obtain ⟨s, hbody, rfl⟩ := run_ok hrun
    have hadds := Pooling.adds_mapM (fun p : FnParam => adds_formed (Pooling.adds_typeId p.type.denoted) p.span
      (.inParameter p.name)) _ p₁ types p₂ htypes
    have hsame : p₃.builder.functions = p.builder.functions := by
      rw [functions_formed (Pooling.adds_functionType _ _) htype, hadds.functions,
        functions_formed (Pooling.adds_typeId _) hresult]
    obtain ⟨d, numbers, hcalls, hnumbers, hfunctions⟩ := calls_body types hf hbody
    obtain ⟨hcalled, rest, hrest⟩ := hcalls.of_start
    refine ⟨d.instructions, fun _ => ⟨⟨_, _, rest, hrest⟩, ?_⟩, ?_⟩
    · rw [hcalled]
      exact hnumbers
    · rw [hfunctions, ← hsame]
  · obtain ⟨⟨code, hcode⟩, -⟩ := emits_function hloop h
    refine ⟨code.instructions, fun h => (hf h).elim, ?_⟩
    rw [hcode.functions, List.flatMap_singleton]

/-- The function that the pipeline calls for an entry point calls nothing else. -/
theorem code_entry {c : Context} {f : Function} {p p' : Pool} (h : entry c f p = .ok ((), p')) :
    ∃ code, called code = [f.id] ∧ p'.builder.functions.toList = p.builder.functions.toList ++ code := by
  obtain ⟨void, p₁, hvoid, h⟩ := bind_ok.mp h
  obtain ⟨id, p₂, hid, h⟩ := bind_ok.mp h
  cases hid
  obtain ⟨type, p₃, htype, h⟩ := bind_ok.mp h
  obtain ⟨draft, p₄, hdraft, h⟩ := bind_ok.mp h
  cases hdraft
  obtain ⟨_, _, hget, h⟩ := bind_ok.mp h
  cases hget
  obtain ⟨pool, p₅, hrun, h⟩ := bind_ok.mp h
  cases h
  obtain ⟨hrun, -⟩ := liftM_ok hrun
  obtain ⟨s, hwrapper, rfl⟩ := run_ok hrun
  have hsame : p₃.builder.functions = p.builder.functions :=
    (adds_unlocated (Pooling.adds_functionType _ _) _ type p₃ htype).functions.trans
      (adds_unlocated Pooling.adds_voidId p void p₁ hvoid).functions
  unfold Code.wrapper at hwrapper
  obtain ⟨taken, s₁, htake, h⟩ := Code.bind_ok.mp hwrapper
  obtain ⟨type', s₂, htype', h⟩ := Code.bind_ok.mp h
  obtain ⟨result, s₃, hcall, h⟩ := Code.bind_ok.mp h
  obtain ⟨given, s₄, hgive, h⟩ := Code.bind_ok.mp h
  obtain ⟨_, s₅, hleave, h⟩ := Code.bind_ok.mp h
  obtain ⟨number, s₆, hfinish, h⟩ := Code.bind_ok.mp h
  obtain ⟨_, _, hread, hdeclare⟩ := Code.bind_ok.mp h
  cases hread
  cases hfinish
  obtain ⟨hcalls₁, hfunctions₁⟩ := (Code.closed_takeParameter Code.closed_silent _ _).frame htake
  obtain ⟨hcalls₂, hfunctions₂⟩ := (Code.closed_unplaced Code.closed_silent (Pooling.adds_typeId _)).frame htype'
  obtain ⟨hcalls₄, hfunctions₄⟩ := (Code.closed_giveResult Code.closed_silent _ _ _).frame hgive
  obtain ⟨hcalls₅, hfunctions₅⟩ := (Code.silent_drafted (Drafting.silent_emit (by decide) _)).frame hleave
  obtain ⟨hcalls₃, hfunctions₃⟩ := Drafting.calls_call type' f.id taken.2 s₂.draft s₂.pool.builder
  cases hcall
  have hdeclared := (Code.appends_declareEntry _ _ _ _ c _ _ _ hdeclare).functions
  have hall := (((hcalls₁.trans hcalls₂).trans hcalls₃).trans hcalls₄).trans hcalls₅
  rw [List.append_nil, List.append_nil, List.nil_append, List.nil_append] at hall
  refine ⟨s₅.draft.instructions, hall.of_start.1, ?_⟩
  rw [hdeclared]
  change (s₅.pool.builder.functions ++ s₅.draft.instructions.toArray).toList = _
  rw [Array.toList_append, hfunctions₅, hfunctions₄]
  change (Draft.call type' f.id taken.2 s₂.draft s₂.pool.builder).2.functions.toList ++ _ = _
  rw [hfunctions₃, hfunctions₂, hfunctions₁, ← hsame]

/-- What is known of the code of each function is known of those that are added one after another. -/
theorem code_forM {g : Function → StateT Pool (Except BackendError) Unit} {R : Function → List Instruction → Prop}
    (hg : ∀ f p p', g f p = .ok ((), p') →
      ∃ code, R f code ∧ p'.builder.functions.toList = p.builder.functions.toList ++ code)
    (fs : List Function) {p p' : Pool} (h : fs.forM g p = .ok ((), p')) :
    ∃ codes, List.Forall₂ R fs codes ∧ p'.builder.functions.toList = p.builder.functions.toList ++ codes.flatten := by
  induction fs generalizing p with
  | nil =>
    cases h
    exact ⟨[], .nil, (List.append_nil _).symm⟩
  | cons f fs ih =>
    rw [List.forM_eq_forM, List.forM_cons] at h
    obtain ⟨_, q, hf, hfs⟩ := bind_ok.mp h
    obtain ⟨code, hcode, hq⟩ := hg f p q hf
    obtain ⟨codes, hcodes, hp'⟩ := ih hfs
    refine ⟨code :: codes, .cons hcode hcodes, ?_⟩
    rw [hp', hq, List.flatten_cons, List.append_assoc]

theorem entryPoints_ok {stages : List Stage} {fs es : List Function} (h : entryPoints stages fs = .ok es) :
    es.Sublist fs := by
  unfold entryPoints at h
  dsimp only at h
  split at h
  · cases h
  · split at h
    all_goals
      split at h
      · cases h
      · cases h
        exact List.filter_sublist

theorem map_decl_numbered (decls : List FunctionDecl) (b : Builder) :
    (numbered decls b).1.map Function.decl = decls := by
  induction decls generalizing b with
  | nil => rfl
  | cons decl decls ih => exact congrArg (decl :: ·) (ih { b with next := b.next + 1 })

/-- In a module that is generated, each function calls what its source calls, in the same order, if its types and
constants call nothing. What a compound assignment writes to is computed twice. -/
theorem calls_generated {m : Option Module} {settings : Settings} {words : List UInt32}
    (h : generate m settings = .ok words) :
    ∃ (source : Specialization) (functions emitted entries : List Function) (pool : Pool)
      (outside : List Instruction) (codes wrappers : List (List Instruction)),
      Specialization.ofModule m settings.lowerings = .ok source ∧ functions.map Function.decl = source.functions ∧
      emitted.Sublist functions ∧ entries.Sublist functions ∧
      assemble m settings = .ok pool ∧ pool.builder.words = words ∧
      pool.builder.instructions = outside ++ codes.flatten ++ wrappers.flatten ∧
      (∀ i ∈ outside, i.opcode.isBound = false) ∧
      List.Forall₂ (fun f code => f.decl.CallsAtRun source.constants → Written source functions f code) emitted codes ∧
      List.Forall₂ (fun f code => called code = [f.id]) entries wrappers := by
  obtain ⟨pool, hassemble, hwords⟩ := bind_eq_ok h
  cases hwords
  obtain ⟨source, extended, b, b', functions, emitted, entries, globals, buffers, middle, hsource, hpreamble, hnumbered,
    hentries, hresources, hemitted, hfunctions, hwrappers⟩ := assemble_steps hassemble
  obtain ⟨codes, hcodes, hmiddle⟩ := code_forM (fun f p p' h => code_function rfl h) _ hfunctions
  obtain ⟨wrappers, hcalled, hpool⟩ := code_forM (fun f p p' h => code_entry h) _ hwrappers
  have hdecls := map_decl_numbered source.functions b
  rw [hnumbered] at hdecls
  obtain ⟨source', start, buffers', -, hassembled⟩ := assemble_ok hassemble
  obtain ⟨fs, hemits⟩ := hassembled.all_emits
  obtain ⟨n, hgrows, -⟩ := hemits.grows
  have hnone : buffers.pool.builder.functions.toList = [] := by
    obtain ⟨k, hadds⟩ := adds_preamble settings source.result { version := settings.version }
    have hnumbers := congrArg Builder.functions (numbered_eq source.functions b)
    have hextends := extends_mapM (extends_global settings source) _ _ _ _ hresources
    rw [hpreamble] at hadds
    rw [hnumbered] at hnumbers
    rw [hextends.functions, hnumbers.trans hadds.functions]
  rw [hnone, List.nil_append] at hmiddle
  refine ⟨source, functions, emitted, entries, pool, pool.builder.declarations, codes, wrappers, hsource, hdecls,
    hemitted, entryPoints_ok hentries, hassemble, rfl, ?_, ?_, hcodes, hcalled⟩
  · rw [Builder.instructions_eq, hpool, hmiddle, List.append_assoc]
  · intro i hi
    rcases hgrows.outside i hi with hi | hi
    · exact hassembled.outside i hi
    · exact hi

end Spirv

end Shading
