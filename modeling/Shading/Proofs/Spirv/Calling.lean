import Shading.Proofs.Spirv.Callees

/-! The code of expressions and statements calls what its source calls, in the order in which it is computed. -/
namespace Shading.Spirv.Code

variable {α : Type} {c : Context} {ids : List Int}

theorem calls_choice (info : ExprInfo) {condition accepted rejected : Code UInt32} {xs ys zs : List Int}
    (hc : Calls c condition xs) (ha : Calls c accepted ys) (hr : Calls c rejected zs) :
    Calls c (choice info condition accepted rejected) (xs ++ ys ++ zs) := by
  have hfresh : Silent (drafted Draft.fresh) := silent_drafted Drafting.calls_fresh
  have hmeet (pointer value merge label : UInt32) : Silent (drafted do
      Draft.store pointer value
      Draft.branch merge
      Draft.label label) :=
    silent_drafted ((Drafting.silent_emit (by decide) _).bind fun _ =>
      (Drafting.silent_emit (by decide) _).bind fun _ => Drafting.calls_label label)
  rw [List.append_assoc]
  apply hc.bind
  intro condition
  apply (closed_pointerTo closed_silent _ _ _ _).then
  intro pointer
  apply (closed_silent.declare pointer).then
  intro temporary
  apply hfresh.then
  intro accept
  apply hfresh.then
  intro reject
  apply hfresh.then
  intro merge
  have hfork : Silent (drafted do
      Draft.selectionMerge merge 0
      Draft.branchConditional condition accept reject
      Draft.label accept) :=
    silent_drafted ((Drafting.silent_emit (by decide) _).bind fun _ =>
      (Drafting.silent_emit (by decide) _).bind fun _ => Drafting.calls_label accept)
  apply hfork.then
  intro _
  apply ha.bind
  intro value
  apply (hmeet temporary value merge reject).then
  intro _
  apply hr.then
  intro value
  apply (hmeet temporary value merge merge).bind
  intro _
  exact closed_load closed_silent _ _

/-- An assignment computes what it reads only if it is a compound one. -/
theorem calls_assigned (op : AssignOp) (span : Span) (lt rt : Ty) {current : Code UInt32} (h : Calls c current ids)
    (value : UInt32) : Calls c (assigned op span lt rt current value) (if op.binary?.isSome then ids else []) := by
  unfold assigned
  cases op.binary? with
  | none => exact closed_silent.pure value c
  | some b => exact h.then fun old => closed_binary closed_silent _ _ _ _ _ _ _

theorem calls_storeTo {place : Code (Option Place)} (h : Finds c place ids) (span : Span) (new : UInt32) :
    Calls c (do
      match ← place with
      | some p => drafted (Draft.store p.pointer new)
      | none => fail span .notAssignable
      return new) ids := by
  apply h.then
  · intro p
    exact (closed_silent.store _ _).bind fun _ => closed_silent.pure new
  · apply Adds.bind (P := fun _ _ => False) (adds_fail _ _)
    exact fun _ _ h => h.elim

theorem memberOf_ok {r : Record Ty} {e : Expr} {s s' : State} {m : Nat × Ty} (h : memberOf r e c s = .ok (m, s')) :
    ∃ v, e.evaluate c.source.constants.get? = .ok v := by
  obtain ⟨_, _, hread, h⟩ := bind_ok.mp h
  cases hread
  obtain ⟨found, s₁, hfound, -⟩ := bind_ok.mp h
  cases hvalue : e.evaluate c.source.constants.get? with
  | ok v => exact ⟨v, rfl⟩
  | error err =>
    simp only [Constants.memberOf, hvalue] at hfound
    cases hfound

/-- The index of a member is known. -/
theorem calls_memberOf (r : Record Ty) {e : Expr} (h : ∀ v, e.evaluate c.source.constants.get? = .ok v → e.callees = []) :
    Calls c (memberOf r e) e.issued := by
  intro s m s' hs
  obtain ⟨v, hv⟩ := memberOf_ok hs
  rw [Expr.issued_eq_nil (h v hv)]
  exact closed_memberOf closed_silent r e c s m s' hs

/-- Indices that are all known. -/
theorem issuedAll_literalIndices {k : Constants} {es : List Expr}
    (h : ∀ e ∈ es, ∀ v, e.evaluate k.get? = .ok v → e.callees = [])
    (hlength : (literalIndices k es).length = es.length) : Expr.issuedAll es = [] := by
  induction es with
  | nil => rfl
  | cons e es ih =>
    rw [literalIndices] at hlength
    rw [List.forall_mem_cons] at h
    cases hvalue : e.evaluate k.get? with
    | error err =>
      rw [hvalue] at hlength
      cases hlength
    | ok v =>
      rw [hvalue] at hlength
      rw [Expr.issuedAll, Expr.issued_eq_nil (h.1 v hvalue), List.nil_append]
      apply ih h.2
      split at hlength
      · split at hlength
        · cases hlength
        · exact Nat.succ.inj hlength
      · cases hlength

/-- The length of an array is read from the place that all indices but the last lead to. -/
theorem issued_arraySize {i j : ExprInfo} {base last : Expr} {indices args : List Expr}
    (hargs : ∀ e ∈ args, e.callees = []) (hlast : indices.getLast? = some last) :
    (Expr.intrinsic i .size (.index j base indices :: args)).issued =
      base.issued ++ (Expr.issuedAll (indices.take (indices.length - 1)) ++ last.issued) := by
  have hrest : Expr.issuedAll args = [] := by
    rw [Expr.issuedAll_eq, List.flatMap_eq_nil_iff]
    exact fun e he => Expr.issued_eq_nil (hargs e he)
  obtain ⟨front, rfl⟩ := List.getLast?_eq_some_iff.mp hlast
  rw [Expr.issued, Expr.issuedAll, hrest, List.append_nil, Expr.issued, List.length_append, List.length_singleton,
    Nat.add_sub_cancel, List.take_left]
  simp only [Expr.issuedAll_eq, List.flatMap_append, List.flatMap_singleton]

mutual

theorem calls_value : ∀ e : Expr, (∀ n ∈ e.nodes, n.CallsAtRun c.source.constants) → Calls c (value e) e.issued
  | .literal i v, _ => by
    rw [value]
    exact closed_constant closed_silent v _ c
  | .const i id, _ => by
    rw [value]
    apply closed_silent.read.then
    intro k
    split
    · exact closed_constant closed_silent _ _ c
    · exact adds_fail _ _
  | .var i id, _ => by
    rw [value]
    exact (closed_variablePlace closed_silent i id).bind (fun p => closed_load closed_silent p _) c
  | .index i base indices, h => by
    have hbase := Expr.nodes_child h List.mem_cons_self
    have hindices : ∀ e ∈ indices, ∀ n ∈ e.nodes, n.CallsAtRun c.source.constants :=
      fun e he => Expr.nodes_child h (List.mem_cons_of_mem _ he)
    have hknown := h _ (Expr.mem_nodes_self rfl)
    have hchain (t : Ty) : Calls c (chain i.span indices.length t indices) (Expr.issuedAll indices) := by
      have hall := calls_chain i.span indices.length t indices hindices hknown
      rwa [List.take_length] at hall
    rw [value, Expr.issued]
    apply (calls_place base hbase).bind
    · intro p
      apply (hchain p.type).then
      intro _
      exact (closed_part closed_silent _ _ _ _).bind fun p => closed_load closed_silent p _
    · apply (calls_value base hbase).bind
      intro whole
      apply (closed_typeId closed_silent _ _).then
      intro type
      apply Adds.bind adds_read
      rintro _ _ ⟨rfl, rfl⟩
      dsimp only
      split
      · rename_i hlength
        rw [issuedAll_literalIndices hknown hlength]
        exact closed_extract closed_silent _ _ _ _
      · apply (closed_pointerTo closed_silent _ _ _ _).then
        intro pointer
        apply (closed_silent.declare pointer).then
        intro temporary
        apply (closed_silent.store _ _).then
        intro _
        apply (hchain base.type).then
        intro _
        exact (closed_part closed_silent _ _ _ _).bind fun p => closed_silent.result rfl _ _
  | .swizzle i base selector, h => by
    rw [value, Expr.issued]
    apply (calls_value base (Expr.nodes_child h List.mem_cons_self)).then
    intro source
    exact (closed_typeId closed_silent _ _).bind fun type => closed_swizzle closed_silent _ _ _ _ _
  | .binary i op l r, h => by
    have hr := Expr.nodes_child h (List.mem_cons_of_mem _ List.mem_cons_self)
    rw [value, Expr.issued]
    apply (calls_value l (Expr.nodes_child h List.mem_cons_self)).bind
    intro left
    exact (calls_value r hr).then fun right => closed_binary closed_silent _ _ _ _ _ _ _
  | .unary i op e, h => by
    rw [value, Expr.issued]
    apply (calls_value e (Expr.nodes_child h List.mem_cons_self)).then
    intro operand
    exact closed_unary closed_silent _ _ _ _
  | .assign i op l r, h => by
    have hl := Expr.nodes_child h List.mem_cons_self
    have hnew := calls_value r (Expr.nodes_child h (List.mem_cons_of_mem _ List.mem_cons_self))
    have hplace := calls_place l hl
    have hassigned := fun t => calls_assigned op i.span t r.type (calls_value l hl)
    rw [Expr.issued, List.append_assoc]
    cases l with
    | swizzle j base selector =>
      rw [value]
      apply hnew.bind
      intro new
      apply (hassigned _ new).bind
      intro new
      split
      · rw [Expr.issued]
        apply (calls_place base (Expr.nodes_child hl List.mem_cons_self)).then
        · intro p
          exact (closed_storeComponents closed_silent _ _ _ _).bind fun _ => closed_silent.pure new
        · apply Adds.bind (P := fun _ _ => False) (adds_fail _ _)
          exact fun _ _ h => h.elim
      · exact calls_storeTo hplace _ _
    | _ =>
      simp only [value]
      apply hnew.bind
      intro new
      exact (hassigned _ new).bind fun new => calls_storeTo hplace _ new
  | .cast i target args, h => by
    have htarget := h _ (Expr.mem_nodes_self rfl)
    rw [value, Expr.issued, Expr.issued_eq_nil htarget, List.nil_append]
    apply (closed_typeId closed_silent _ _).then
    intro type
    apply (calls_values args fun e he => Expr.nodes_child h (List.mem_cons_of_mem _ he)).then
    intro parts
    exact closed_cast closed_silent _ _ _ _
  | .ternary i c t f, h => by
    rw [value, Expr.issued]
    apply calls_choice i (calls_value c (Expr.nodes_child h List.mem_cons_self))
    · exact calls_value t (Expr.nodes_child h (List.mem_cons_of_mem _ List.mem_cons_self))
    · exact calls_value f (Expr.nodes_child h (List.mem_cons_of_mem _ (List.mem_cons_of_mem _ List.mem_cons_self)))
  | .call i target args, h => by
    have hargs := calls_values args fun e he => Expr.nodes_child h (List.mem_cons_of_mem _ he)
    cases target with
    | function j id =>
      rw [value, Expr.issued]
      apply Adds.bind adds_read
      rintro _ _ ⟨rfl, rfl⟩
      split
      · exact adds_fail _ _
      · rename_i f hf
        apply hargs.bind
        intro ids
        apply (closed_typeId closed_silent _ _).then
        intro type
        apply calls_drafted (Drafting.calls_call type f.id ids)
        simp [Node.callee?, Context.number?, hf]
    | _ =>
      simp only [value]
      exact adds_fail _ _
  | .intrinsic i f args, h => by
    have hargs := calls_values args fun e he => Expr.nodes_child h he
    have hsize := calls_arraySize i args
    by_cases hf : f = .size
    · subst hf
      exact hsize h
    · rw [value, Expr.issued]
      · apply hargs.then
        intro parts
        exact (closed_typeId closed_silent _ _).bind fun type => closed_intrinsic closed_silent _ _ _ _ _
      · exact fun _ _ _ _ h => absurd h hf
      · exact hf
  | .absent, _ | .name .., _ | .member .., _ | .method .., _ | .function .., _ | .intrinsicRef .., _
  | .structRef .., _ | .typeRef .., _ => by
    simp only [value]
    exact adds_fail _ _

theorem calls_arraySize (i : ExprInfo) : ∀ args : List Expr,
    (∀ n ∈ (Expr.intrinsic i .size args).nodes, n.CallsAtRun c.source.constants) →
      Calls c (value (.intrinsic i .size args)) (Expr.intrinsic i .size args).issued
  | [], _ => by
    simp only [value]
    exact adds_fail _ _
  | arg :: args, h => by
    cases arg with
    | index j base indices =>
      have hindex := Expr.nodes_child h List.mem_cons_self
      have hbase := Expr.nodes_child hindex List.mem_cons_self
      have hindices : ∀ e ∈ indices, ∀ n ∈ e.nodes, n.CallsAtRun c.source.constants :=
        fun e he => Expr.nodes_child hindex (List.mem_cons_of_mem _ he)
      have hknown := hindex _ (Expr.mem_nodes_self rfl)
      have hrest := h _ (Expr.mem_nodes_self rfl)
      have hchain := fun n t => calls_chain i.span n t indices hindices hknown
      rw [value]
      split
      · exact adds_fail _ _
      · rename_i last hlast
        have hall : (Expr.intrinsic i .size (.index j base indices :: args)).issued =
            base.issued ++ (Expr.issuedAll (indices.take (indices.length - 1)) ++ last.issued) :=
          issued_arraySize hrest hlast
        have hlength : ∀ p : Place, Calls c (match p.type.container? with
            | none => fail i.span .sizeTarget
            | some r => do
              let (member, _) ← memberOf r last
              let type ← typeId i.type i.span
              drafted (Draft.arrayLength type p.pointer member.toUInt32)) last.issued := by
          intro p
          split
          · exact adds_fail _ _
          · apply (calls_memberOf _ (hknown last (List.mem_of_getLast? hlast))).then
            intro _
            exact (closed_typeId closed_silent _ _).bind fun type => closed_silent.result rfl _ _
        rw [hall]
        apply (calls_place base hbase).bind
        · intro p
          dsimp only
          split
          · rename_i hone
            rw [hone]
            exact (closed_silent.pure p).then hlength
          · apply (hchain _ _).bind
            intro _
            exact (closed_part closed_silent _ _ _ _).then hlength
        · exact adds_fail _ _
    | _ =>
      simp only [value]
      exact adds_fail _ _

theorem calls_values : ∀ es : List Expr, (∀ e ∈ es, ∀ n ∈ e.nodes, n.CallsAtRun c.source.constants) →
    Calls c (values es) (Expr.issuedAll es)
  | [], _ => by
    rw [values]
    exact closed_silent.pure [] c
  | e :: es, h => by
    rw [List.forall_mem_cons] at h
    rw [values, Expr.issuedAll]
    apply (calls_value e h.1).bind
    intro id
    exact (calls_values es h.2).then fun ids => closed_silent.pure _

theorem calls_place : ∀ e : Expr, (∀ n ∈ e.nodes, n.CallsAtRun c.source.constants) → Finds c (place? e) e.issued
  | .var i id, _ => by
    rw [place?]
    exact (closed_map closed_silent (closed_variablePlace closed_silent i id)).adds fun p => by cases p <;> rfl
  | .index i base indices, h => by
    have hchain (t : Ty) : Calls c (chain i.span indices.length t indices) (Expr.issuedAll indices) := by
      have hall := calls_chain i.span indices.length t indices
        (fun e he => Expr.nodes_child h (List.mem_cons_of_mem _ he)) (h _ (Expr.mem_nodes_self rfl))
      rwa [List.take_length] at hall
    rw [place?]
    apply Adds.bind (calls_place base (Expr.nodes_child h List.mem_cons_self))
    rintro (_ | p) _ rfl
    · exact adds_pure rfl
    · apply Adds.bind (hchain p.type)
      rintro ⟨t, ids⟩ _ rfl
      apply Adds.map
      apply (closed_part closed_silent _ _ _ _).adds
      intro p
      simp [Expr.issued]
  | .swizzle i base selector, h => by
    rw [place?]
    split
    · exact adds_pure rfl
    · apply Adds.bind (calls_place base (Expr.nodes_child h List.mem_cons_self))
      rintro (_ | p) _ rfl
      · exact adds_pure rfl
      · apply Adds.map
        apply (closed_componentPlace closed_silent _ _ _).adds
        intro p
        simp [Expr.issued]
  | .absent, _ | .name .., _ | .const .., _ | .literal .., _ | .binary .., _ | .unary .., _ | .assign .., _
  | .cast .., _ | .ternary .., _ | .member .., _ | .call .., _ | .method .., _ | .intrinsic .., _ | .function .., _
  | .intrinsicRef .., _ | .structRef .., _ | .typeRef .., _ => by
    simp only [place?]
    exact adds_pure rfl

theorem calls_chain (span : Span) : ∀ (n : Nat) (t : Ty) (es : List Expr),
    (∀ e ∈ es, ∀ n ∈ e.nodes, n.CallsAtRun c.source.constants) →
    (∀ e ∈ es, ∀ v, e.evaluate c.source.constants.get? = .ok v → e.callees = []) →
      Calls c (chain span n t es) (Expr.issuedAll (es.take n))
  | 0, t, es, _, _ => by
    rw [chain]
    exact closed_silent.pure _ c
  | n + 1, t, [], _, _ => by
    rw [chain]
    · exact closed_silent.pure _ c
    · exact Nat.succ_ne_zero n
  | n + 1, t, e :: es, h, hknown => by
    rw [List.forall_mem_cons] at h hknown
    have hrest := fun t => calls_chain span n t es h.2 hknown.2
    have he := calls_value e h.1
    have hlast : ∀ (id : UInt32) (t : Ty), Calls c (do
        let (t, ids) ← chain span n t es
        return (t, id :: ids)) (Expr.issuedAll (es.take n)) :=
      fun id t => (hrest t).then fun _ => closed_silent.pure _
    rw [chain, List.take_succ_cons, Expr.issuedAll]
    split
    · apply (calls_memberOf _ hknown.1).bind
      intro _
      apply (closed_constant closed_silent _ _).then
      intro id
      exact (closed_silent.pure _).then fun index => hlast index.1 index.2
    · apply he.bind
      intro id
      apply (closed_elementOf closed_silent _ _).then
      intro inner
      exact (closed_silent.pure _).then fun index => hlast index.1 index.2

end

theorem adds_liftM {x : Except BackendError α} : Adds c (liftM x : Code α) fun a ids => x = .ok a ∧ ids = [] := by
  intro s a s' hs
  cases x with
  | error e => cases hs
  | ok b =>
    cases hs
    exact ⟨[], ⟨rfl, rfl⟩, .refl c s⟩

theorem calls_declareVariable (span : Span) (d : VarDecl) (h : ∀ n ∈ d.init.nodes, n.CallsAtRun c.source.constants) :
    Calls c (declareVariable span d) d.init.issued := by
  unfold declareVariable
  apply (closed_pointerTo closed_silent _ _ _ _).then
  intro pointer
  apply (closed_silent.declare pointer).then
  intro id
  apply (closed_giveName closed_silent id d.name).then
  intro _
  dsimp only
  have hlast : ∀ place, Silent (modify fun s : State => { s with locals := (d.id, place) :: s.locals }) := by
    intro place
    apply closed_silent.modify
    · exact fun _ => rfl
    · exact fun _ => rfl
  split
  · apply (calls_value _ h).then
    intro init
    exact (closed_silent.store _ _).bind fun _ => hlast _
  · rename_i habsent
    cases hinit : d.init with
    | absent => exact hlast _ c
    | _ => simp [hinit, Expr.isPresent, Expr.isAbsent] at habsent

theorem calls_selection {condition : Code UInt32} {accepted : Code Unit} {rejected : Option (Code Unit)}
    {xs ys zs : List Int} (hc : Calls c condition xs) (ha : Calls c accepted ys) (hr : ∀ code ∈ rejected, Calls c code zs)
    (hnone : rejected = none → zs = []) : Calls c (selection condition accepted rejected) (xs ++ ys ++ zs) := by
  have hfresh : Silent (drafted Draft.fresh) := silent_drafted Drafting.calls_fresh
  have hlabel (id : UInt32) : Silent (drafted (Draft.label id)) := silent_drafted (Drafting.calls_label id)
  have hlead (id : UInt32) : Silent (drafted (Draft.branchOn id)) := silent_drafted (Drafting.silent_branchOn id)
  rw [List.append_assoc]
  apply hc.bind
  intro condition
  apply hfresh.then
  intro accept
  apply hfresh.then
  intro merge
  have hfork (reject : UInt32) : Silent (drafted do
      Draft.selectionMerge merge 0
      Draft.branchConditional condition accept reject
      Draft.label accept) :=
    silent_drafted ((Drafting.silent_emit (by decide) _).bind fun _ =>
      (Drafting.silent_emit (by decide) _).bind fun _ => Drafting.calls_label accept)
  cases rejected with
  | none =>
    rw [hnone rfl]
    apply (closed_silent.pure merge).then
    intro reject
    apply (hfork reject).then
    intro _
    apply ha.bind
    intro _
    exact ((hlead merge).bind fun _ => (closed_silent.pure ()).bind fun _ => hlabel merge) c
  | some code =>
    apply hfresh.then
    intro reject
    apply (hfork reject).then
    intro _
    apply ha.bind
    intro _
    apply (hlead merge).then
    intro _
    apply (hlabel reject).then
    intro _
    apply (hr code rfl).then
    intro _
    exact (hlead merge).bind fun _ => hlabel merge

theorem calls_looped {body : Code Unit} {l : Loop} (h : Calls { c with loop := some l } body ids) :
    Calls c (withReader (fun c => { c with loop := some l }) body) ids := by
  intro s a s' hs
  obtain ⟨_, rfl, hdraft, hfunctions⟩ := h s a s' hs
  exact ⟨_, rfl, hdraft, hfunctions⟩

theorem calls_repetition (unroll : Option Unroll) {condition : Code UInt32} {body : Code Unit} {xs ys : List Int}
    (hc : Calls c condition xs) (hbody : ∀ l, Calls { c with loop := some l } body ys) :
    Calls c (repetition unroll condition body) (xs ++ ys) := by
  have hfresh : Silent (drafted Draft.fresh) := silent_drafted Drafting.calls_fresh
  have hbranch (target : UInt32) : Drafting.Calls (Draft.branch target) [] := Drafting.silent_emit (by decide) _
  apply hfresh.then
  intro header
  apply hfresh.then
  intro test
  apply hfresh.then
  intro start
  apply hfresh.then
  intro next
  apply hfresh.then
  intro merge
  have hopen : Silent (drafted do
      Draft.branch header
      Draft.label header
      Draft.loopMerge merge next (loopControl unroll)
      Draft.branch test
      Draft.label test) :=
    silent_drafted ((hbranch header).bind fun _ => (Drafting.calls_label header).bind fun _ =>
      (Drafting.silent_emit (by decide) _).bind fun _ => (hbranch test).bind fun _ => Drafting.calls_label test)
  apply hopen.then
  intro _
  apply hc.bind
  intro condition
  have hstart : Silent (drafted do
      Draft.branchConditional condition start merge
      Draft.label start) :=
    silent_drafted ((Drafting.silent_emit (by decide) _).bind fun _ => Drafting.calls_label start)
  apply hstart.then
  intro _
  apply (calls_looped (hbody ⟨merge, next⟩)).then
  intro _
  exact silent_drafted ((Drafting.silent_branchOn next).bind fun _ => (Drafting.calls_label next).bind fun _ =>
    (hbranch header).bind fun _ => Drafting.calls_label merge)

/-- A block ends with a branch to a block of the loop around the code. -/
theorem silent_branchLoop {span : Span} {obstacle : Obstacle} (target : Loop → UInt32) :
    Silent (do
      match (← read).loop with
      | some l => drafted (Draft.branch (target l))
      | none => fail span obstacle) := by
  apply closed_silent.read.bind
  intro c
  split
  · exact silent_drafted (Drafting.silent_emit (by decide) _)
  · exact closed_fail closed_silent _ _

mutual

theorem calls_statement : ∀ (s : Stmt) (c : Context), (∀ n ∈ s.nodes, n.CallsAtRun c.source.constants) →
    Calls c (statement s) ((s.live c.source.constants).flatMap Expr.issued)
  | .expr _ e, c, h => by
    rw [statement, Stmt.live, List.flatMap_singleton]
    exact (calls_value e (Stmt.nodes_own h List.mem_cons_self)).then fun _ => closed_silent.pure ()
  | .letVar span d, c, h => by
    rw [statement, Stmt.live, List.flatMap_singleton]
    exact calls_declareVariable span d (Stmt.nodes_own h (List.mem_cons_of_mem _ List.mem_cons_self))
  | .const .., c, _ | .alias .., c, _ | .option .., c, _ | .importFrom .., c, _ | .noOp _, c, _ => by
    rw [statement]
    exact closed_silent.pure () c
  | .branch _ true arms otherwise, c, h => by
    have hotherwise := calls_statement otherwise c
      (Stmt.nodes_child h (List.mem_append_right _ List.mem_cons_self))
    have harms : ∀ a ∈ arms, ∀ n ∈ a.2.nodes, n.CallsAtRun c.source.constants :=
      fun a ha => Stmt.nodes_child h (List.mem_append_left _ (List.mem_map_of_mem ha))
    rw [statement]
    apply Adds.bind adds_read
    rintro _ _ ⟨rfl, rfl⟩
    apply Adds.bind adds_liftM
    rintro n _ ⟨hn, rfl⟩
    rw [Stmt.live, hn]
    dsimp only
    split
    · exact calls_selectedArm n arms _ harms
    · split
      · exact hotherwise
      · rename_i habsent
        cases otherwise with
        | absent => exact closed_silent.pure () _
        | _ => simp [Stmt.isAbsent] at habsent
  | .branch _ false arms otherwise, c, h => by
    have hotherwise := calls_statement otherwise c
      (Stmt.nodes_child h (List.mem_append_right _ List.mem_cons_self))
    have harms : ∀ a ∈ arms, (∀ n ∈ a.1.nodes, n.CallsAtRun c.source.constants) ∧
        ∀ n ∈ a.2.nodes, n.CallsAtRun c.source.constants := fun a ha =>
      ⟨Stmt.nodes_own h (List.mem_map_of_mem ha), Stmt.nodes_child h (List.mem_append_left _ (List.mem_map_of_mem ha))⟩
    rw [statement, Stmt.live, List.flatMap_append]
    have hlast := calls_branches (if otherwise.isAbsent then none else some (statement otherwise))
      ((otherwise.live c.source.constants).flatMap Expr.issued) arms c harms (by
        intro code hcode
        split at hcode
        · cases hcode
        · cases hcode
          exact hotherwise) (by
        intro hnone
        cases otherwise with
        | absent => rfl
        | _ => simp [Stmt.isAbsent] at hnone)
    cases arms with
    | nil => exact hlast
    | cons => exact hlast
  | .conditional _ cond body, c, h => by
    have hbody := calls_statement body c (Stmt.nodes_child h List.mem_cons_self)
    rw [statement]
    apply Adds.bind adds_read
    rintro _ _ ⟨rfl, rfl⟩
    apply Adds.bind adds_liftM
    rintro holds _ ⟨hholds, rfl⟩
    rw [Stmt.live, hholds]
    cases holds with
    | true => exact hbody
    | false => exact closed_silent.pure () _
  | .loop _ cond unroll body, c, h => by
    rw [statement, Stmt.live, List.flatMap_cons]
    apply calls_repetition
    · exact calls_value cond (Stmt.nodes_own h (List.mem_cons_of_mem _ List.mem_cons_self))
    · exact fun l => calls_statement body { c with loop := some l } (Stmt.nodes_child h List.mem_cons_self)
  | .returnWith _ e, c, h => by
    have he := calls_value e (Stmt.nodes_own h List.mem_cons_self)
    have hleave {op : Opcode} (hop : op ≠ .opFunctionCall) (operands : List UInt32) :
        Silent (drafted (Draft.emit op operands)) := silent_drafted (Drafting.silent_emit hop operands)
    cases e with
    | absent =>
      rw [statement]
      exact hleave (by decide) _ c
    | _ =>
      rw [statement, Stmt.live, List.flatMap_singleton]
      · exact he.then fun result => hleave (by decide) _
      · simp
  | .discard span, c, _ => by
    have hkill : Silent (drafted Draft.kill) := silent_drafted (Drafting.silent_emit (by decide) _)
    rw [statement]
    apply closed_silent.read.then
    intro k
    dsimp only
    split
    · exact ((closed_fail closed_silent _ _).bind fun _ => hkill) c
    · exact hkill c
  | .breakLoop span, c, _ => by
    rw [statement]
    exact silent_branchLoop (·.merge) c
  | .continueLoop span, c, _ => by
    rw [statement]
    exact silent_branchLoop (·.next) c
  | .multi _ body, c, h => by
    rw [statement, Stmt.live]
    exact calls_statements body c fun s hs => Stmt.nodes_child h hs
  | .scoped _ body, c, h => by
    rw [statement, Stmt.live]
    exact calls_statement body c (Stmt.nodes_child h List.mem_cons_self)
  | .absent, _, _ | .struct .., _, _ | .function .., _, _ | .external .., _, _ | .forRange .., _, _
  | .forEach .., _, _ => by
    simp only [statement]
    exact adds_fail _ _

theorem calls_statements : ∀ (ss : List Stmt) (c : Context),
    (∀ s ∈ ss, ∀ n ∈ s.nodes, n.CallsAtRun c.source.constants) →
      Calls c (statements ss) ((Stmt.liveAll c.source.constants ss).flatMap Expr.issued)
  | [], c, _ => by
    rw [statements]
    exact closed_silent.pure () c
  | s :: ss, c, h => by
    rw [List.forall_mem_cons] at h
    rw [statements, Stmt.liveAll, List.flatMap_append]
    exact (calls_statement s c h.1).bind fun _ => calls_statements ss c h.2

theorem calls_selectedArm : ∀ (n : Nat) (arms : List (Expr × Stmt)) (c : Context),
    (∀ a ∈ arms, ∀ n ∈ a.2.nodes, n.CallsAtRun c.source.constants) →
      Calls c (selectedArm n arms) ((Stmt.liveArm c.source.constants n arms).flatMap Expr.issued)
  | _, [], c, _ => by
    rw [selectedArm, Stmt.liveArm]
    exact closed_silent.pure () c
  | 0, (_, s) :: _, c, h => by
    rw [selectedArm, Stmt.liveArm]
    exact calls_statement s c (h _ List.mem_cons_self)
  | n + 1, _ :: arms, c, h => by
    rw [selectedArm, Stmt.liveArm]
    exact calls_selectedArm n arms c fun a ha => h a (List.mem_cons_of_mem _ ha)

theorem calls_branches (last : Option (Code Unit)) (ids : List Int) : ∀ (arms : List (Expr × Stmt)) (c : Context),
    (∀ a ∈ arms, (∀ n ∈ a.1.nodes, n.CallsAtRun c.source.constants) ∧
      ∀ n ∈ a.2.nodes, n.CallsAtRun c.source.constants) →
    (∀ code ∈ last, Calls c code ids) → (last = none → ids = []) →
      Calls c (branches last arms)
        ((Stmt.liveArms c.source.constants arms).flatMap Expr.issued ++ if arms.isEmpty then [] else ids)
  | [], c, _, _, _ => by
    rw [branches]
    exact closed_silent.pure () c
  | (e, s) :: arms, c, h, hlast, hnone => by
    rw [List.forall_mem_cons] at h
    have hrest := calls_branches last ids arms c h.2 hlast hnone
    rw [branches, Stmt.liveArms, List.flatMap_append, List.flatMap_cons, List.append_assoc]
    apply calls_selection (calls_value e h.1.1) (calls_statement s c h.1.2)
    · intro code hcode
      cases arms with
      | nil => exact hlast code hcode
      | cons =>
        cases hcode
        exact hrest
    · intro hrejected
      cases arms with
      | nil => exact hnone hrejected
      | cons => cases hrejected

end

end Shading.Spirv.Code
