import Shading.Check
import Shading.Parser
import Shading.Proofs.Spirv.Pool
import Shading.Proofs.Spirv.Entry
import Shading.Proofs.Spirv.Statement
import Shading.Proofs.Spirv.Stream
import Shading.Proofs.Token.Lexing
import Shading.Spirv

/-! Whole modules: functions are added one after another, and each of them is well formed. -/
namespace Shading.Spirv

/-- Steps that add functions and what they need. -/
structure Pool.Emits (p p' : Pool) (fs : List FunctionCode) : Prop where
  grows : ∃ n, p.Grows p' n [] ∧ p.builder.size + n ≤ p'.builder.size
  functions : p'.builder.functions.toList = p.builder.functions.toList ++ fs.flatMap FunctionCode.instructions
  wellFormed : ∀ f ∈ fs, f.WellFormed
  /-- the labels of a function are numbers that were taken while it was written -/
  labels : ∀ f ∈ fs, ∃ first n, n ≤ p'.builder.size ∧ Drawn first n f.labels

namespace Pool.Emits

variable {p q r : Pool} {fs gs : List FunctionCode}

theorem size_le (h : p.Emits q fs) : p.builder.size ≤ q.builder.size := by
  obtain ⟨n, -, hsize⟩ := h.grows
  omega

theorem trans (h : p.Emits q fs) (h' : q.Emits r gs) : p.Emits r (fs ++ gs) := by
  obtain ⟨m, hgrows, hsize⟩ := h.grows
  obtain ⟨n, hgrows', hsize'⟩ := h'.grows
  refine ⟨⟨m + n, hgrows.trans hgrows', by omega⟩, ?_, ?_, ?_⟩
  · rw [h'.functions, h.functions, List.flatMap_append, List.append_assoc]
  · intro f hf
    rcases List.mem_append.mp hf with hf | hf
    · exact h.wellFormed f hf
    · exact h'.wellFormed f hf
  · intro f hf
    rcases List.mem_append.mp hf with hf | hf
    · obtain ⟨first, k, hk, hlabels⟩ := h.labels f hf
      exact ⟨first, k, Nat.le_trans hk h'.size_le, hlabels⟩
    · exact h'.labels f hf

theorem of_extends (h : p.Extends q) : p.Emits q [] :=
  ⟨h.grows, by rw [h.functions, List.flatMap_nil, List.append_nil], List.forall_mem_nil _, List.forall_mem_nil _⟩

theorem refl (p : Pool) : p.Emits p [] := of_extends (.refl p)

end Pool.Emits

/-- A function starts with its first block. -/
theorem writing_start {start p : Pool} {n : Nat} (hgrows : start.Grows p n [])
    (hsize : start.builder.size + n ≤ p.builder.size + 1) (hfunctions : p.builder.functions = start.builder.functions)
    (hplacings : p.builder.placings = start.builder.placings) (id result type : UInt32) :
    Writing start {} { p with builder := (Draft.start id result type p.builder).2 }
      (Draft.start id result type p.builder).1 := by
  refine ⟨⟨n + 1, Writing.grows_taken hgrows, ?_⟩, hfunctions, hplacings, ⟨_, [], rfl, rfl, List.forall_mem_nil _⟩,
    ?_, .start, List.forall_mem_nil _, ?_, by intro h; cases h⟩
  · rw [Draft.size_eq]
    show _ ≤ p.builder.size + 3 + 0 + 0
    omega
  · intro i hi
    exact absurd hi (Array.not_mem_empty i)
  · intro i hi
    exact absurd hi (Array.not_mem_empty i)

/-- A function that is at its end is added to the module. -/
theorem Writing.finish {start p : Pool} {d : Draft} (h : Writing start {} p d) (hended : d.terminated = true) :
    ∃ f, start.Emits { p with builder := (d.finish p.builder).2 } [f] := by
  obtain ⟨n, hgrows, hsize⟩ := h.grows
  obtain ⟨new, hnew, hdrawn⟩ := hgrows.drawn
  obtain ⟨head, params, hhead, hfunction, hparams⟩ := h.head
  have hblocks := h.blocks
  rw [hended] at hblocks
  have htargets : ∀ i ∈ d.body.toList, ∀ t ∈ i.targets, t = d.entry ∨ t ∈ labelsOf d.body.toList := by
    intro i hi t ht
    rcases h.targets i (Array.mem_toList_iff.mp hi) t ht with ht | ht
    · exact List.mem_cons.mp ht
    · cases ht
  obtain ⟨f, hf, hlabels, hinstructions⟩ := hblocks.functionCode hfunction hparams
    (fun i hi => h.vars i (Array.mem_toList_iff.mp hi)) htargets
  have hcode : f.instructions = d.instructions := by rw [hinstructions, Draft.instructions, hhead]
  have hfinal : (d.finish p.builder).2 = { p.builder with functions := p.builder.functions ++ d.instructions.toArray } := rfl
  have hfinalSize : (d.finish p.builder).2.size = p.builder.size + d.size := by
    simp only [hfinal, Builder.size_eq, Array.size_append, List.size_toArray, Draft.size]
    omega
  have hbound : start.builder.size + n ≤ (d.finish p.builder).2.size := by
    rw [hfinalSize]
    exact hsize
  refine ⟨f, ⟨n, ⟨hgrows.next, hgrows.outside, hgrows.lookup, new, hnew, hdrawn.of_append⟩, hbound⟩, ?_, ?_, ?_⟩
  · rw [hfinal, List.flatMap_singleton, hcode, ← h.functions]
    exact Array.toList_append
  · intro g hg
    rw [List.mem_singleton.mp hg]
    exact hf
  · intro g hg
    rw [List.mem_singleton.mp hg, hlabels]
    refine ⟨start.builder.next, n, Nat.le_trans (Nat.le_add_left _ _) hbound, ?_⟩
    rw [List.append_nil] at hdrawn
    exact (hdrawn.perm List.perm_append_comm).of_append

/-- The code of a function stands in the module. -/
def Emitted (start : Pool) (s : State) : Prop :=
  (∃ f, start.Emits s.pool [f]) ∧ s.pool.builder.placings = start.builder.placings

/-- A function that leads nowhere at its end is complete. -/
theorem ensures_finish {c : Context} {start : Pool} :
    Code.Ensures c (fun s => Writing start {} s.pool s.draft ∧ s.draft.terminated = true) Code.finish
      fun _ s => Emitted start s := by
  intro s id s' h hstep
  cases hstep
  obtain ⟨f, hf⟩ := h.1.finish h.2
  exact ⟨⟨f, hf⟩, h.1.placings⟩

theorem Emitted.appends {start : Pool} {s s' : State} (h : Emitted start s) (hadds : s.pool.Adds s'.pool []) :
    Emitted start s' := by
  obtain ⟨⟨f, hf⟩, hplacings⟩ := h
  exact ⟨⟨f, hf.trans (.of_extends (.of_adds hadds))⟩, hadds.placings.trans hplacings⟩

theorem closed_parameters {K : ∀ {α : Type}, Code α → Prop} (hK : Code.Closed @K) (params : List (FnParam × UInt32)) :
    K (parameters params) := by
  induction params with
  | nil => exact hK.pure ()
  | cons p params ih =>
    apply hK.bind (hK.parameter p.2)
    intro value
    apply hK.bind (Code.closed_pooled hK (Pooling.adds_pointerType _ _) _ _)
    intro pointer
    apply hK.bind (hK.declare pointer)
    intro id
    apply hK.bind (hK.store _ _)
    intro _
    have hlocal : K (modify fun s : State =>
        { s with locals := (p.1.id, ⟨id, StorageClass.function, p.1.type.denoted⟩) :: s.locals }) :=
      hK.modify (fun _ => rfl) fun _ => rfl
    apply hK.bind hlocal
    intro _
    exact hK.bind (Code.closed_giveName hK _ _) fun _ => ih

/-- The code of a function is outside loops. -/
theorem Context.within_nothing {c : Context} (h : c.loop = none) : c.Within {} := by
  intro l hl
  rw [h] at hl
  cases hl

/-- A function whose last block ends and leads nowhere. -/
theorem ensures_leave {c : Context} {start : Pool} {op : Opcode} (hop : op.isTerminator = true)
    (htargets : Instruction.targets ⟨op, []⟩ = []) :
    Code.Ensures c (fun s => Writing start {} s.pool s.draft) (Code.drafted (Draft.emit op []))
      fun _ s => Writing start {} s.pool s.draft ∧ s.draft.terminated = true := by
  intro s a s' hs hstep
  have hnamed : ∀ t ∈ Instruction.targets ⟨op, []⟩, Outline.Names {} t := by
    rw [htargets]
    exact List.forall_mem_nil _
  have hwriting : Writing start (Outline.finished {}) s'.pool s'.draft :=
    Code.writes_drafted (Drafting.writes_leave hop hnamed) start s a s' hs hstep
  exact ⟨hwriting.running, hwriting.ended rfl⟩

theorem ensures_close {c : Context} {start : Pool} (isVoid : Bool) :
    Code.Ensures c (fun s => Writing start {} s.pool s.draft)
      (Code.close (if isVoid then Draft.leave else Draft.unreachable))
      fun _ s => Writing start {} s.pool s.draft ∧ s.draft.terminated = true := by
  intro s a s' hs hstep
  obtain ⟨_, _, hget, hstep⟩ := Code.bind_ok.mp hstep
  cases hget
  cases hended : s.draft.terminated with
  | true =>
    rw [hended] at hstep
    cases hstep
    exact ⟨hs, hended⟩
  | false =>
    rw [hended] at hstep
    cases isVoid with
    | true => exact ensures_leave rfl rfl s a s' hs hstep
    | false => exact ensures_leave rfl rfl s a s' hs hstep

theorem ensures_body {c : Context} (hloop : c.loop = none) {start : Pool} (f : Function) (types : List UInt32) :
    Code.Ensures c (fun s => Writing start {} s.pool s.draft) (body f types) fun _ s => Emitted start s := by
  have hwithin := Context.within_nothing hloop
  refine Code.Ensures.bind (Code.closed_giveName Code.closed_keeps _ _ c _ hwithin start) fun _ => ?_
  refine Code.Ensures.bind (closed_parameters Code.closed_keeps _ c _ hwithin start) fun _ => ?_
  refine Code.Ensures.bind (Code.keeps_statements _ c _ hwithin start) fun _ => ?_
  refine Code.Ensures.bind (ensures_close _) fun _ => ?_
  exact Code.Ensures.bind ensures_finish fun id s a s' hs hstep => by
    cases hstep
    exact hs

theorem ensures_wrapper {c : Context} (hloop : c.loop = none) {start : Pool} (f : Function) :
    Code.Ensures c (fun s => Writing start {} s.pool s.draft) (Code.wrapper f) fun _ s => Emitted start s := by
  have hwithin := Context.within_nothing hloop
  unfold Code.wrapper
  dsimp only
  refine Code.Ensures.bind (Code.closed_takeParameter Code.closed_keeps _ _ c _ hwithin start) fun taken => ?_
  refine Code.Ensures.bind (Code.closed_unplaced Code.closed_keeps (Pooling.adds_typeId _) c _ hwithin start) fun type => ?_
  refine Code.Ensures.bind (Code.keeps_result rfl _ _ c _ hwithin start) fun result => ?_
  refine Code.Ensures.bind (Code.closed_giveResult Code.closed_keeps _ _ _ c _ hwithin start) fun given => ?_
  refine Code.Ensures.bind (ensures_leave rfl rfl) fun _ => ?_
  refine Code.Ensures.bind ensures_finish fun id => ?_
  intro s u s' hs hstep
  obtain ⟨_, _, hread, hstep⟩ := Code.bind_ok.mp hstep
  cases hread
  exact hs.appends (Code.appends_declareEntry _ _ _ _ c s u s' hstep)

theorem adds_formed {α : Type} {x : Pooling α} (h : Pooling.Adds x) (span : Span) (obstacle : FormError → Obstacle) :
    Pooling.Adds (formed span obstacle x) := by
  intro p a p' hx
  exact h p a p' (mapError_ok.mp hx)

theorem run_ok {c : Context} {p p' : Pool} {d : Draft} {code : Code Unit} (h : run c p d code = .ok p') :
    ∃ s, code c { pool := p, draft := d } = .ok ((), s) ∧ s.pool = p' := by
  cases hcode : code c { pool := p, draft := d } with
  | error e =>
    simp only [run, hcode] at h
    cases h
  | ok r =>
    simp only [run, hcode] at h
    cases h
    exact ⟨r.2, rfl, rfl⟩

/-- What is lifted leaves the module as it is. -/
theorem liftM_ok {α : Type} {x : Except BackendError α} {p p' : Pool} {a : α}
    (h : (liftM x : StateT Pool (Except BackendError) α) p = .ok (a, p')) : x = .ok a ∧ p' = p := by
  cases x with
  | error e => cases h
  | ok b =>
    cases h
    exact ⟨rfl, rfl⟩

theorem emits_function {c : Context} (hloop : c.loop = none) {f : Function} {p p' : Pool}
    (h : function c f p = .ok ((), p')) :
    (∃ code, p.Emits p' [code]) ∧ p'.builder.placings = p.builder.placings := by
  obtain ⟨result, p₁, hresult, h⟩ := bind_ok.mp h
  obtain ⟨types, p₂, htypes, h⟩ := bind_ok.mp h
  obtain ⟨type, p₃, htype, h⟩ := bind_ok.mp h
  obtain ⟨draft, p₄, hdraft, h⟩ := bind_ok.mp h
  cases hdraft
  obtain ⟨_, _, hget, h⟩ := bind_ok.mp h
  cases hget
  obtain ⟨pool, p₅, hrun, h⟩ := bind_ok.mp h
  cases h
  obtain ⟨hrun, -⟩ := liftM_ok hrun
  obtain ⟨s, hbody, rfl⟩ := run_ok hrun
  have hadds : p.Adds p₃ [] :=
    ((adds_formed (Pooling.adds_typeId _) _ _ p result p₁ hresult).trans
      (Pooling.adds_mapM (fun _ => adds_formed (Pooling.adds_typeId _) _ _) _ p₁ types p₂ htypes)).trans
      (adds_formed (Pooling.adds_functionType _ _) _ _ p₂ type p₃ htype)
  obtain ⟨⟨n, hgrows, hsize⟩, hfunctions, hplacings⟩ := hadds
  have hstart := writing_start hgrows (Nat.le_succ_of_le hsize) hfunctions hplacings f.id result type
  exact ensures_body hloop f types _ _ _ hstart hbody

/-- Code for which nothing can be pointed at. -/
theorem adds_unlocated {α : Type} {x : Pooling α} (h : Pooling.Adds x) :
    Pooling.Adds (fun p => (x p).mapError BackendError.unlocated : StateT Pool (Except BackendError) α) := by
  intro p a p' hx
  exact h p a p' (mapError_ok.mp hx)

theorem emits_entry {c : Context} (hloop : c.loop = none) {f : Function} {p p' : Pool} (h : entry c f p = .ok ((), p')) :
    (∃ code, p.Emits p' [code]) ∧ p'.builder.placings = p.builder.placings := by
  obtain ⟨void, p₁, hvoid, h⟩ := bind_ok.mp h
  obtain ⟨id, p₂, hid, h⟩ := bind_ok.mp h
  cases hid
  obtain ⟨type, p₃, htype, h⟩ := bind_ok.mp h
  obtain ⟨draft, p₄, hdraft, h⟩ := bind_ok.mp h
  cases hdraft
  obtain ⟨_, _, hget, h⟩ := bind_ok.mp h
  cases hget
  obtain ⟨pool, p₅, hrun, h⟩ := bind_ok.mp h
  cases h
  obtain ⟨hrun, -⟩ := liftM_ok hrun
  obtain ⟨s, hwrapper, rfl⟩ := run_ok hrun
  obtain ⟨⟨m, hgrows, hsize⟩, hfunctions, hplacings⟩ := adds_unlocated Pooling.adds_voidId p void p₁ hvoid
  obtain ⟨⟨n, hgrows', hsize'⟩, hfunctions', hplacings'⟩ :=
    adds_unlocated (Pooling.adds_functionType _ _) _ type p₃ htype
  -- the number of the function is taken before its first instruction
  obtain ⟨new, hnew, hdrawn⟩ := (Writing.grows_taken hgrows).drawn
  have htaken : p.Grows (Writing.taken p₁) (m + 1) [] :=
    ⟨(Writing.grows_taken hgrows).next, hgrows.outside, hgrows.lookup, new, hnew, hdrawn.of_cons⟩
  have hsameSize : (Writing.taken p₁).builder.size = p₁.builder.size := rfl
  have hstart := writing_start (htaken.trans hgrows') (by
    change (Writing.taken p₁).builder.size + n ≤ _ at hsize'
    omega) (hfunctions'.trans hfunctions) (hplacings'.trans hplacings) p₁.builder.next void type
  exact ensures_wrapper hloop f _ _ _ hstart hwrapper

/-- A resource is declared after what says where its parts are. -/
theorem global_ok {settings : Settings} {source : Specialization} {v : External} {s s' : Buffers} {g : Int × Place}
    (h : global settings source v s = .ok (g, s')) :
    ∃ storage block s₁, resource? settings source v.type.denoted = some (storage, block) ∧ block s = .ok ((), s₁) ∧
      ∃ id, declareResource settings v storage s₁ = .ok (id, s') := by
  unfold global at h
  split at h
  · cases h
  · rename_i storage block hresource
    cases hdeclare : ((do
      block
      declareResource settings v storage : Buffering UInt32) s) with
    | error e =>
      simp only [hdeclare] at h
      cases h
    | ok r =>
      simp only [hdeclare] at h
      cases h
      obtain ⟨_, s₁, hblock, hresult⟩ := bind_ok.mp hdeclare
      exact ⟨storage, block, s₁, hresource, hblock, r.1, hresult⟩

theorem adds_declareResource {settings : Settings} {v : External} {storage id : UInt32} {s s' : Buffers}
    (h : declareResource settings v storage s = .ok (id, s')) :
    s.pool.Adds s'.pool [] ∧ s'.placed = s.placed := by
  obtain ⟨pointer, s₁, hpointer, h⟩ := bind_ok.mp h
  obtain ⟨pool, hpool, rfl⟩ := Buffering.pooled_ok hpointer
  obtain ⟨pool', hbuilt, rfl⟩ := Buffering.pooled_ok h
  have hdeclare : Build.Adds (do
      let id ← Builder.global pointer storage
      Builder.decorate id Decoration.descriptorSet [v.set.value.getD 0]
      Builder.decorate id Decoration.binding [v.binding.value.getD 0]
      if settings.debug then Builder.name id v.name
      return id) := by
    apply (Build.numbers_global _ _).adds.bind
    intro id
    apply (Build.adds_decorate (by decide) _ _).bind
    intro _
    apply (Build.adds_decorate (by decide) _ _).bind
    intro _
    split
    · exact (Build.adds_debugName rfl).bind fun _ => Build.adds_pure id
    · exact Build.adds_pure id
  exact ⟨(Pooling.adds_pointerTo _ _ _ _ _ hpool).trans (Pooling.adds_build hdeclare _ _ _ hbuilt), rfl⟩

theorem extends_global (settings : Settings) (source : Specialization) (v : External) :
    Buffering.Extends (global settings source v) := by
  intro s g s' h
  obtain ⟨storage, block, s₁, hresource, hblock, id, hdeclare⟩ := global_ok h
  have hextends : Buffering.Extends block := by
    unfold resource? at hresource
    split at hresource
    · cases hresource
      exact Buffering.extends_declareBlock _ _ _
    · cases hresource
      exact Buffering.extends_declareBlock _ _ _
    · cases hresource
      exact Buffering.extends_pure ()
    · cases hresource
  exact (hextends s () s₁ hblock).trans (.of_adds (adds_declareResource hdeclare).1)

/-- Functions are added one after another. -/
theorem emits_forM {g : Function → StateT Pool (Except BackendError) Unit}
    (hg : ∀ f p p', g f p = .ok ((), p') → (∃ code, p.Emits p' [code]) ∧ p'.builder.placings = p.builder.placings)
    (fs : List Function) {p p' : Pool} (h : fs.forM g p = .ok ((), p')) :
    (∃ codes, p.Emits p' codes) ∧ p'.builder.placings = p.builder.placings := by
  induction fs generalizing p with
  | nil =>
    cases h
    exact ⟨⟨[], .refl _⟩, rfl⟩
  | cons f fs ih =>
    rw [List.forM_eq_forM, List.forM_cons] at h
    obtain ⟨_, q, hf, hfs⟩ := bind_ok.mp h
    obtain ⟨⟨code, hcode⟩, hplacings⟩ := hg f p q hf
    obtain ⟨⟨codes, hcodes⟩, hplacings'⟩ := ih hfs
    exact ⟨⟨_, hcode.trans hcodes⟩, hplacings'.trans hplacings⟩

theorem adds_preamble (settings : Settings) (m : Module) : Build.Adds (preamble settings m) := by
  apply (Build.adds_capability _).bind
  intro _
  apply (Build.adds_forM Build.adds_capability _).bind
  intro _
  apply (Build.numbers_extInstImport _).adds.bind
  intro extended
  apply (Build.adds_setMemoryModel _ _).bind
  intro _
  have hsource : Build.Adds (sourceInfo m) := by
    unfold sourceInfo
    dsimp only
    split
    · exact (Build.numbers_string _).adds.bind fun file => Build.adds_debugString rfl
    · exact (Build.adds_pure 0).bind fun file => Build.adds_debugString rfl
  split
  · exact hsource.bind fun _ => Build.adds_pure extended
  · exact Build.adds_pure extended

/-- Functions get numbers before their code is written. -/
theorem numbered_eq (decls : List FunctionDecl) (b : Builder) :
    (numbered decls b).2 = { b with next := (numbered decls b).2.next } := by
  induction decls generalizing b with
  | nil => rfl
  | cons decl decls ih =>
    have hrest := ih { b with next := b.next + 1 }
    exact hrest

/-- How a module is put together: what comes before the resources, the resources, and the functions. -/
structure Assembled (settings : Settings) (source : Specialization) (start : Pool) (buffers : Buffers) (pool : Pool) :
    Prop where
  outside : ∀ i ∈ start.builder.declarations, i.opcode.isBound = false
  placings : start.builder.placings = []
  types : start.types = []
  functions : start.builder.functions = #[]
  resources : ∃ globals, source.externals.mapM (global settings source) { pool := start } = .ok (globals, buffers)
  emits : ∃ codes, buffers.pool.Emits pool codes
  kept : pool.builder.placings = buffers.pool.builder.placings

/-- What surrounds the code of a function of a module. -/
def contextOf (settings : Settings) (source : Specialization) (extended : UInt32) (functions entries : List Function)
    (globals : List (Int × Place)) (f : Function) : Context :=
  { settings, source, functions, extended, name := f.decl.head.name, globals
    stages := stagesOf (entries.map fun e => (stageOf e, reached functions e)) f }

/-- The steps in which a module is put together. -/
theorem assemble_steps {m : Option Module} {settings : Settings} {pool : Pool} (h : assemble m settings = .ok pool) :
    ∃ (source : Specialization) (extended : UInt32) (b b' : Builder) (functions emitted entries : List Function)
      (globals : List (Int × Place)) (buffers : Buffers) (middle : Pool),
      Specialization.ofModule m settings.lowerings = .ok source ∧
      preamble settings source.result { version := settings.version } = (extended, b) ∧
      numbered source.functions b = (functions, b') ∧ entryPoints settings.stages functions = .ok entries ∧
      source.externals.mapM (global settings source) { pool := { builder := b', debug := settings.debug } } =
        .ok (globals, buffers) ∧
      emitted.Sublist functions ∧
      emitted.forM (fun f => function (contextOf settings source extended functions entries globals f) f) buffers.pool =
        .ok ((), middle) ∧
      entries.forM (fun f => entry (contextOf settings source extended functions entries globals f) f) middle =
        .ok ((), pool) := by
  unfold assemble at h
  dsimp only at h
  split at h
  · cases h
  · obtain ⟨source, hsource, h⟩ := bind_eq_ok h
    obtain ⟨entries, hentries, h⟩ := bind_eq_ok h
    obtain ⟨⟨globals, buffers⟩, hresources, h⟩ := bind_eq_ok h
    obtain ⟨⟨_, final⟩, hcode, h⟩ := bind_eq_ok h
    cases h
    obtain ⟨_, middle, hfunctions, hwrappers⟩ := bind_ok.mp hcode
    exact ⟨source, _, _, _, _, _, entries, globals, buffers, middle, hsource, rfl, rfl, hentries, hresources,
      List.filter_sublist, hfunctions, hwrappers⟩

theorem assemble_ok {m : Option Module} {settings : Settings} {pool : Pool} (h : assemble m settings = .ok pool) :
    ∃ source start buffers, Specialization.ofModule m settings.lowerings = .ok source ∧
      Assembled settings source start buffers pool := by
  obtain ⟨source, extended, b, b', functions, emitted, entries, globals, buffers, middle, hsource, hpreamble, hnumbered,
    -, hresources, -, hfunctions, hentries⟩ := assemble_steps h
  obtain ⟨k, hadds⟩ := adds_preamble settings source.result { version := settings.version }
  have hnumbers := numbered_eq source.functions b
  rw [hpreamble] at hadds
  rw [hnumbered] at hnumbers
  dsimp only at hadds hnumbers
  obtain ⟨⟨codes, hcodes⟩, hkept⟩ := emits_forM (fun _ _ _ hf => emits_function rfl hf) _ hfunctions
  obtain ⟨⟨codes', hcodes'⟩, hkept'⟩ := emits_forM (fun _ _ _ hf => emits_entry rfl hf) _ hentries
  refine ⟨source, _, buffers, hsource, ?_, ?_, rfl, ?_, ⟨globals, hresources⟩, ⟨_, hcodes.trans hcodes'⟩,
    hkept'.trans hkept⟩
  · intro i hi
    have hdeclarations : b'.declarations = b.declarations := by rw [hnumbers]; rfl
    change i ∈ b'.declarations at hi
    rw [hdeclarations] at hi
    rcases hadds.outside i hi with hi | hi
    · simp [Builder.mem_declarations] at hi
    · exact hi
  · show b'.placings = []
    rw [hnumbers]
    exact hadds.placings
  · show b'.functions = #[]
    rw [hnumbers]
    exact hadds.functions

theorem extends_mapM {α β : Type} {f : α → StateT Buffers (Except BackendError) β} (hf : ∀ a, Buffering.Extends (f a))
    (xs : List α) : Buffering.Extends (xs.mapM f) := by
  induction xs with
  | nil => exact Buffering.extends_pure []
  | cons x xs ih =>
    rw [List.mapM_cons]
    apply (hf x).bind
    intro y
    exact ih.bind fun ys => Buffering.extends_pure (y :: ys)

theorem Assembled.all_emits {settings : Settings} {source : Specialization} {start pool : Pool} {buffers : Buffers}
    (h : Assembled settings source start buffers pool) : ∃ codes, start.Emits pool codes := by
  obtain ⟨globals, hresources⟩ := h.resources
  obtain ⟨codes, hcodes⟩ := h.emits
  have hextends := extends_mapM (extends_global settings source) _ _ _ _ hresources
  exact ⟨_, (Pool.Emits.of_extends hextends).trans hcodes⟩

/-- Each instruction takes at least one word. -/
theorem size_le_length_words (b : Builder) : b.size ≤ b.words.length := by
  have hcode : ∀ is : List Instruction, is.length ≤ (is.flatMap Instruction.encode).length := by
    intro is
    induction is with
    | nil => exact Nat.le_refl 0
    | cons i is ih =>
      rw [List.flatMap_cons, List.length_append, Instruction.encode_eq]
      simp only [List.length_cons]
      omega
  have hall := hcode b.instructions
  simp only [Builder.words, encode, List.length_cons]
  unfold Builder.size
  omega

/-- The instructions that are put together for a module are functions and what stands outside them. Each function is cut
into blocks as it should be, and what branches and merges name is the label of exactly one block of the same function, as
long as there are enough numbers. These instructions are read back from the words, unless one of them is too long. -/
theorem functions_wellFormed {m : Option Module} {settings : Settings} {words : List UInt32}
    (h : generate m settings = .ok words) :
    ∃ (pool : Pool) (code : ModuleCode), assemble m settings = .ok pool ∧ pool.builder.words = words ∧
      pool.builder.instructions = code.instructions ∧
      pool.builder.functions.toList = code.functions.flatMap FunctionCode.instructions ∧ code.WellFormed ∧
      (words.length < 2 ^ 32 → ∀ f ∈ code.functions, ∀ b ∈ f.blocks, ∀ t ∈ b.targets, f.labels.count t = 1) ∧
      ((∀ i ∈ code.instructions, i.operands.length ≤ 65534) →
        decode words = .ok (pool.builder.header, code.instructions)) := by
  obtain ⟨pool, hassemble, hwords⟩ := bind_eq_ok h
  cases hwords
  obtain ⟨source, start, buffers, -, hassembled⟩ := assemble_ok hassemble
  obtain ⟨fs, hemits⟩ := hassembled.all_emits
  obtain ⟨n, hgrows, -⟩ := hemits.grows
  have hfunctions : pool.builder.functions.toList = fs.flatMap FunctionCode.instructions := by
    rw [hemits.functions, hassembled.functions]
    rfl
  have hinstructions : pool.builder.instructions =
      pool.builder.declarations ++ fs.flatMap FunctionCode.instructions := by
    rw [Builder.instructions_eq, hfunctions]
  refine ⟨pool, ⟨pool.builder.declarations, fs⟩, hassemble, rfl, hinstructions, hfunctions, ⟨?_, hemits.wellFormed⟩,
    ?_, ?_⟩
  · intro i hi
    rcases hgrows.outside i hi with hi | hi
    · exact hassembled.outside i hi
    · exact hi
  · intro hlength f hf b hb t ht
    obtain ⟨first, k, hk, hdrawn⟩ := hemits.labels f hf
    have hsize := size_le_length_words pool.builder
    have hnodup := hdrawn.nodup (by omega)
    exact List.count_eq_one_of_mem hnodup ((hemits.wellFormed f hf).targets b hb t ht)
  · intro hfits
    rw [Builder.words_eq, hinstructions]
    exact decode_encode hfits _

/-- The module of a source that can be checked. -/
def checkedSource (source : Text) : Option Module := do
  let m ← (Module.parse source).toOption
  (m.check {}).toOption

/-- Choices in a condition, an index and an argument, and code behind the end of a block. -/
def branchingText : Text := Text.join "\n" [
  "module;",
  "fn scale(x: i32) -> i32",
  "\x7b",
  "  if (x > 1) return x;",
  "  else { return -x; let late = x; }",
  "\x7d",
  "[entry(frag)] fn main()",
  "\x7b",
  "  let v = vec2[i32](1, 2);",
  "  let n = 0;",
  "  while (n < (n > 5 ? 3 : 4))",
  "  \x7b",
  "    if (scale(n > 1 ? n : 5) > v[n == 1 ? 0 : 1]) { break; n = 5; }",
  "    continue;",
  "    n += 1;",
  "  \x7d",
  "  discard;",
  "  n = 6;",
  "\x7d"]

theorem functions_wellFormed_branching :
    ∃ words, generate (checkedSource branchingText) {} = .ok words ∧ words.length < 2 ^ 32 ∧
      ∃ (pool : Pool) (code : ModuleCode), assemble (checkedSource branchingText) {} = .ok pool ∧
        pool.builder.words = words ∧ pool.builder.instructions = code.instructions ∧
        pool.builder.functions.toList = code.functions.flatMap FunctionCode.instructions ∧ code.WellFormed ∧
        ∀ f ∈ code.functions, ∀ b ∈ f.blocks, ∀ t ∈ b.targets, f.labels.count t = 1 := by
  have hrun : ((generate (checkedSource branchingText) {}).toOption.map fun words => decide (words.length < 2 ^ 32)) =
      some true := by decide +kernel
  cases hwords : generate (checkedSource branchingText) {} with
  | error e =>
    rw [hwords] at hrun
    cases hrun
  | ok words =>
    rw [hwords] at hrun
    have hlength : words.length < 2 ^ 32 := by simpa [Except.toOption] using hrun
    obtain ⟨pool, code, hpool, hwords', hinstructions, hfunctions, hformed, htargets, -⟩ := functions_wellFormed hwords
    exact ⟨words, rfl, hlength, pool, code, hpool, hwords', hinstructions, hfunctions, hformed, htargets hlength⟩

end Shading.Spirv
