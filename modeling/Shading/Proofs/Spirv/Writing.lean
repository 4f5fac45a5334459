import Shading.Proofs.Spirv.Pool
import Shading.Spirv.Draft

/-! Functions that are being written. Whatever is written next, what stands is cut into blocks, and the labels
that it names are those of blocks that stand or are still to come. -/
namespace Shading.Spirv

namespace Draft

/-- The labels of the blocks that stand. -/
def labels (d : Draft) : List UInt32 := d.entry :: labelsOf d.body.toList

/-- How many instructions there are. -/
def size (d : Draft) : Nat := d.instructions.length

theorem size_eq (d : Draft) : d.size = d.head.size + d.vars.size + d.body.size + 2 := by
  simp only [size, instructions, List.length_append, Array.length_toList, List.length_singleton]
  omega

end Draft

/-- What is promised about the blocks of a function that is being written. -/
structure Outline where
  /-- labels of blocks that stand -/
  placed : List UInt32 := []
  /-- labels of blocks that are still to come -/
  pending : List UInt32 := []
  /-- Is the last block at its end? -/
  ended : Bool := false
  /-- numbers that were taken for instructions that are still to come -/
  spare : Nat := 0

namespace Outline

/-- Some block has that label, or will have it. -/
def Names (o : Outline) (l : UInt32) : Prop := l ∈ o.placed ∨ l ∈ o.pending

/-- Nothing is promised about the end of the last block. -/
def running (o : Outline) : Outline := { o with ended := false }

/-- The last block is at its end. -/
def finished (o : Outline) : Outline := { o with ended := true }

end Outline

/-- A function is being written, which was started in the pool `start`. -/
structure Writing (start : Pool) (o : Outline) (p : Pool) (d : Draft) : Prop where
  grows : ∃ n, start.Grows p n (d.labels ++ o.pending) ∧
    start.builder.size + n ≤ p.builder.size + d.size + o.pending.length + o.spare
  functions : p.builder.functions = start.builder.functions
  placings : p.builder.placings = start.builder.placings
  head : ∃ i params, d.head.toList = i :: params ∧ i.opcode = .opFunction ∧
    ∀ j ∈ params, j.opcode = .opFunctionParameter
  vars : ∀ i ∈ d.vars, i.opcode = .opVariable
  blocks : Blocks d.body.toList d.terminated
  placed : ∀ l ∈ o.placed, l ∈ d.labels
  targets : ∀ i ∈ d.body, ∀ t ∈ i.targets, t ∈ d.labels ∨ t ∈ o.pending
  ended : o.ended = true → d.terminated = true

namespace Writing

variable {start p p' : Pool} {o : Outline} {d : Draft}

theorem running (h : Writing start o p d) : Writing start o.running p d :=
  ⟨h.grows, h.functions, h.placings, h.head, h.vars, h.blocks, h.placed, h.targets, by intro h; cases h⟩

/-- Numbers that were taken for instructions need not be used. -/
theorem spare {k : Nat} (h : Writing start { o with spare := k } p d) (hk : k ≤ o.spare) : Writing start o p d := by
  obtain ⟨n, hgrows, hsize⟩ := h.grows
  refine ⟨⟨n, hgrows, ?_⟩, h.functions, h.placings, h.head, h.vars, h.blocks, h.placed, h.targets, h.ended⟩
  dsimp only at hsize
  omega

/-- Blocks that stand need not be known. -/
theorem forget {placed : List UInt32} (h : Writing start { o with placed } p d) (hplaced : ∀ l ∈ o.placed, l ∈ placed) :
    Writing start o p d :=
  ⟨h.grows, h.functions, h.placings, h.head, h.vars, h.blocks, fun l hl => h.placed l (hplaced l hl), h.targets, h.ended⟩

theorem named {l : UInt32} (h : Writing start o p d) (hl : o.Names l) : l ∈ d.labels ∨ l ∈ o.pending := by
  rcases hl with hl | hl
  · exact .inl (h.placed l hl)
  · exact .inr hl

/-- Something is added outside functions. -/
theorem pool (h : Writing start o p d) (hadds : p.Adds p' []) : Writing start o p' d := by
  obtain ⟨n, hgrows, hsize⟩ := h.grows
  obtain ⟨⟨m, hgrows', hsize'⟩, hfunctions, hplacings⟩ := hadds
  refine ⟨⟨n + m, hgrows.trans hgrows', by omega⟩, ?_, ?_, h.head, h.vars, h.blocks, h.placed, h.targets, h.ended⟩
  · rw [hfunctions, h.functions]
  · rw [hplacings, h.placings]

/-- The pool after a number was taken. -/
def taken (p : Pool) : Pool := { p with builder := { p.builder with next := p.builder.next + 1 } }

theorem grows_taken {n : Nat} {ids : List UInt32} (h : start.Grows p n ids) :
    start.Grows (taken p) (n + 1) (p.builder.next :: ids) := by
  have hnext : (taken p).builder.next = p.builder.next + 1 := rfl
  have hgrows : p.Grows (taken p) 1 [p.builder.next] :=
    ⟨hnext, fun _ h => .inl h, fun _ _ h => h, [], rfl, .first_step _⟩
  exact h.trans hgrows

/-- A number is taken for the label of a block that is still to come. -/
theorem draw (h : Writing start o p d) :
    Writing start { o with pending := p.builder.next :: o.pending } (taken p) d := by
  obtain ⟨n, hgrows, hsize⟩ := h.grows
  refine ⟨⟨n + 1, ?_, ?_⟩, h.functions, h.placings, h.head, h.vars, h.blocks, h.placed, ?_, h.ended⟩
  · have hgrows' := grows_taken hgrows
    obtain ⟨new, hnew, hdrawn⟩ := hgrows'.drawn
    exact ⟨hgrows'.next, hgrows'.outside, hgrows'.lookup, new, hnew, hdrawn.perm (by grind)⟩
  · have hsame : (taken p).builder.size = p.builder.size := rfl
    dsimp only
    rw [hsame, List.length_cons]
    omega
  · intro i hi t ht
    rcases h.targets i hi t ht with ht | ht
    · exact .inl ht
    · exact .inr (List.mem_cons_of_mem _ ht)

/-- A number is taken for an instruction. -/
theorem take (h : Writing start o p d) : Writing start { o with spare := o.spare + 1 } (taken p) d := by
  obtain ⟨n, hgrows, hsize⟩ := h.grows
  refine ⟨⟨n + 1, ?_, ?_⟩, h.functions, h.placings, h.head, h.vars, h.blocks, h.placed, h.targets, h.ended⟩
  · have hgrows' := grows_taken hgrows
    obtain ⟨new, hnew, hdrawn⟩ := hgrows'.drawn
    exact ⟨hgrows'.next, hgrows'.outside, hgrows'.lookup, new, hnew, hdrawn.of_cons⟩
  · have hsame : (taken p).builder.size = p.builder.size := rfl
    dsimp only
    rw [hsame]
    omega

/-- A parameter is added. -/
theorem parameter {i : Instruction} (h : Writing start { o with spare := o.spare + 1 } p d)
    (hi : i.opcode = .opFunctionParameter) : Writing start o p { d with head := d.head.push i } := by
  obtain ⟨n, hgrows, hsize⟩ := h.grows
  obtain ⟨f, params, hhead, hf, hparams⟩ := h.head
  refine ⟨⟨n, hgrows, ?_⟩, h.functions, h.placings, ⟨f, params ++ [i], ?_, hf, ?_⟩, h.vars, h.blocks, h.placed,
    h.targets, h.ended⟩
  · simp only [Draft.size_eq, Array.size_push] at hsize ⊢
    omega
  · rw [Array.toList_push, hhead]
    rfl
  · intro j hj
    rcases List.mem_append.mp hj with hj | hj
    · exact hparams j hj
    · rw [List.mem_singleton.mp hj]
      exact hi

/-- A variable is added. -/
theorem declare {i : Instruction} (h : Writing start { o with spare := o.spare + 1 } p d) (hi : i.opcode = .opVariable) :
    Writing start o p { d with vars := d.vars.push i } := by
  obtain ⟨n, hgrows, hsize⟩ := h.grows
  refine ⟨⟨n, hgrows, ?_⟩, h.functions, h.placings, h.head, ?_, h.blocks, h.placed, h.targets, h.ended⟩
  · simp only [Draft.size_eq, Array.size_push] at hsize ⊢
    omega
  · intro j hj
    rcases Array.mem_push.mp hj with hj | rfl
    · exact h.vars j hj
    · exact hi

/-- Instructions other than labels are added. -/
theorem extend {is : List Instruction} {body : Array Instruction} {ended : Bool} (h : Writing start o p d)
    (hbody : body.toList = d.body.toList ++ is) (hblocks : Blocks (d.body.toList ++ is) ended) (hne : is ≠ [])
    (hlabels : ∀ i ∈ is, i.opcode ≠ .opLabel) (htargets : ∀ i ∈ is, ∀ t ∈ i.targets, o.Names t) :
    Writing start { o with ended, spare := o.spare - 1 } p { d with body, terminated := ended } := by
  obtain ⟨n, hgrows, hsize⟩ := h.grows
  have hsame : Draft.labels { d with body, terminated := ended } = d.labels := by
    simp only [Draft.labels, hbody, labelsOf_append, labelsOf_eq_nil hlabels, List.append_nil]
  have hlength : body.size = d.body.size + is.length := by
    rw [← Array.length_toList, hbody, List.length_append, Array.length_toList]
  have hpos := List.length_pos_iff.mpr hne
  refine ⟨⟨n, by rw [hsame]; exact hgrows, ?_⟩, h.functions, h.placings, h.head, h.vars, ?_, ?_, ?_, fun h => h⟩
  · simp only [Draft.size_eq] at hsize ⊢
    omega
  · rw [hbody]
    exact hblocks
  · rw [hsame]
    exact h.placed
  · intro i hi t ht
    rw [hsame]
    rw [← Array.mem_toList_iff, hbody] at hi
    rcases List.mem_append.mp hi with hi | hi
    · exact h.targets i (Array.mem_toList_iff.mp hi) t ht
    · exact h.named (htargets i hi t ht)

/-- A block goes on. -/
theorem step {i : Instruction} (h : Writing start o p d) (hopen : d.terminated = false) (hi : i.opcode.isStep = true) :
    Writing start { o with ended := false, spare := o.spare - 1 } p
      { d with body := d.body.push i, terminated := false } := by
  have hblocks := h.blocks
  rw [hopen] at hblocks
  apply h.extend Array.toList_push (.step hblocks hi) (List.cons_ne_nil i [])
  · intro j hj
    rw [List.mem_singleton.mp hj]
    exact Opcode.ne_label_of_isStep hi
  · intro j hj t ht
    rw [List.mem_singleton.mp hj, Instruction.targets_eq_nil_of_isStep hi] at ht
    cases ht

/-- A block ends. -/
theorem leave {i : Instruction} (h : Writing start o p d) (hopen : d.terminated = false)
    (hi : i.opcode.isTerminator = true) (htargets : ∀ t ∈ i.targets, o.Names t) :
    Writing start { o with ended := true, spare := o.spare - 1 } p
      { d with body := d.body.push i, terminated := true } := by
  have hblocks := h.blocks
  rw [hopen] at hblocks
  apply h.extend Array.toList_push (.leave hblocks hi) (List.cons_ne_nil i [])
  · intro j hj
    rw [List.mem_singleton.mp hj]
    exact Opcode.ne_label_of_isTerminator hi
  · intro j hj
    rw [List.mem_singleton.mp hj]
    exact htargets

/-- A block ends with a branch to blocks that meet again. -/
theorem fork {m i : Instruction} (h : Writing start o p d) (hopen : d.terminated = false)
    (hm : m.opcode.isMerge = true) (hi : i.opcode.isBranch = true) (htargets : ∀ t ∈ m.targets ++ i.targets, o.Names t) :
    Writing start { o with ended := true, spare := o.spare - 1 } p
      { d with body := (d.body.push m).push i, terminated := true } := by
  have hblocks := h.blocks
  rw [hopen] at hblocks
  have hbody : ((d.body.push m).push i).toList = d.body.toList ++ [m, i] := by
    rw [Array.toList_push, Array.toList_push, List.append_assoc]
    rfl
  apply h.extend hbody (.fork hblocks hm hi) (List.cons_ne_nil m [i])
  · intro j hj
    simp only [List.mem_cons, List.not_mem_nil, or_false] at hj
    rcases hj with rfl | rfl
    · exact Opcode.ne_label_of_isMerge hm
    · exact Opcode.ne_label_of_isTerminator (Opcode.isTerminator_of_isBranch hi)
  · intro j hj t ht
    simp only [List.mem_cons, List.not_mem_nil, or_false] at hj
    apply htargets t
    rcases hj with rfl | rfl
    · exact List.mem_append_left _ ht
    · exact List.mem_append_right _ ht

/-- A block starts whose label was taken before. -/
theorem place {l : UInt32} {before after : List UInt32} (h : Writing start o p d) (hended : d.terminated = true)
    (hpending : o.pending = before ++ l :: after) :
    Writing start { o with placed := l :: o.placed, pending := before ++ after, ended := false } p
      { d with body := d.body.push ⟨.opLabel, [l]⟩, terminated := false } := by
  obtain ⟨n, hgrows, hsize⟩ := h.grows
  obtain ⟨new, hnew, hdrawn⟩ := hgrows.drawn
  have hblocks := h.blocks
  rw [hended] at hblocks
  have hlabels : Draft.labels { d with body := d.body.push ⟨.opLabel, [l]⟩, terminated := false } = d.labels ++ [l] := by
    simp [Draft.labels]
  refine ⟨⟨n, ⟨hgrows.next, hgrows.outside, hgrows.lookup, new, hnew, ?_⟩, ?_⟩, h.functions, h.placings, h.head, h.vars,
    ?_, ?_, ?_, by intro h; cases h⟩
  · apply hdrawn.perm
    rw [hlabels, hpending]
    grind
  · rw [hpending] at hsize
    simp only [Draft.size_eq, Array.size_push, List.length_append, List.length_cons] at hsize ⊢
    omega
  · rw [Array.toList_push]
    exact .label l hblocks
  · intro k hk
    rw [hlabels]
    rcases List.mem_cons.mp hk with rfl | hk
    · exact List.mem_append_right _ (List.mem_singleton_self k)
    · exact List.mem_append_left _ (h.placed k hk)
  · intro i hi t ht
    rw [hlabels]
    rcases Array.mem_push.mp hi with hi | rfl
    · rcases h.targets i hi t ht with ht | ht
      · exact .inl (List.mem_append_left _ ht)
      · rw [hpending] at ht
        simp only [List.mem_append, List.mem_cons, List.not_mem_nil, or_false] at ht ⊢
        grind
    · cases ht

end Writing

namespace Drafting

variable {α β : Type} {o : Outline}

/-- Steps that lead from one outline to another. -/
def Writes (o : Outline) (x : Drafting α) (o' : α → Outline) : Prop :=
  ∀ start p d, Writing start o p d →
    Writing start (o' (x d p.builder).1.1) { p with builder := (x d p.builder).2 } (x d p.builder).1.2

theorem writes_pure (a : α) : Writes o (pure a) fun _ => o := fun _ _ _ h => h

theorem Writes.bind {x : Drafting α} {f : α → Drafting β} {mid : α → Outline} {last : β → Outline}
    (hx : Writes o x mid) (hf : ∀ a, Writes (mid a) (f a) last) : Writes o (x >>= f) last :=
  fun start p d h => hf _ start _ _ (hx start p d h)

/-- A number for the label of a block that is still to come. -/
theorem writes_fresh : Writes o Draft.fresh fun id => { o with pending := id :: o.pending } :=
  fun _ _ _ h => h.draw

/-- A number for an instruction. -/
theorem writes_take : Writes o Draft.fresh fun _ => { o with spare := o.spare + 1 } :=
  fun _ _ _ h => h.take

theorem writes_parameter (type : UInt32) : Writes o (Draft.parameter type) fun _ => o :=
  fun _ _ _ h => h.take.parameter rfl

theorem writes_declare (pointer : UInt32) : Writes o (Draft.declare pointer) fun _ => o :=
  fun _ _ _ h => h.take.declare rfl

/-- A block starts whose label was taken before. -/
theorem writes_header {placed before after : List UInt32} {spare : Nat} (l : UInt32) :
    Writes ⟨placed, before ++ l :: after, true, spare⟩ (Draft.label l)
      fun _ => ⟨l :: placed, before ++ after, false, spare⟩ :=
  fun _ _ _ h => h.place (h.ended rfl) rfl

/-- Nothing more leads to a block that starts. -/
theorem writes_label {placed before after : List UInt32} {spare : Nat} (l : UInt32) :
    Writes ⟨placed, before ++ l :: after, true, spare⟩ (Draft.label l)
      fun _ => ⟨placed, before ++ after, false, spare⟩ :=
  fun start p d h => (writes_header l start p d h).forget fun _ hk => List.mem_cons_of_mem l hk

/-- Starts a block that nothing leads to, if the last one is at its end. -/
def resume : Drafting Unit := do
  if (← get).terminated then Draft.label (← Draft.fresh)

theorem resume_of_ended {d : Draft} (h : d.terminated = true) (b : Builder) :
    resume d b = (((), { d with body := d.body.push ⟨.opLabel, [b.next]⟩, terminated := false }),
      { b with next := b.next + 1 }) := by
  cases d
  cases h
  rfl

theorem resume_of_open {d : Draft} (h : d.terminated = false) (b : Builder) : resume d b = (((), d), b) := by
  cases d
  cases h
  rfl

theorem emit_eq (op : Opcode) (operands : List UInt32) (d : Draft) (b : Builder) :
    Draft.emit op operands d b =
      (((), { (resume d b).1.2 with
        body := (resume d b).1.2.body.push ⟨op, operands⟩, terminated := op.isTerminator }), (resume d b).2) := by
  cases d with
  | mk id head entry vars body terminated => cases terminated <;> rfl

theorem writing_resume {start p : Pool} {d : Draft} (h : Writing start o p d) :
    Writing start o.running { p with builder := (resume d p.builder).2 } (resume d p.builder).1.2 ∧
      (resume d p.builder).1.2.terminated = false := by
  cases hended : d.terminated with
  | true =>
    rw [resume_of_ended hended]
    have hplaced := @Writing.place _ _ _ _ p.builder.next [] o.pending h.draw hended rfl
    exact ⟨hplaced.forget fun _ hl => List.mem_cons_of_mem _ hl, rfl⟩
  | false =>
    rw [resume_of_open hended]
    exact ⟨h.running, hended⟩

/-- An instruction that computes. -/
theorem writes_emit {op : Opcode} (hop : op.isStep = true) (operands : List UInt32) :
    Writes o (Draft.emit op operands) fun _ => { o with ended := false, spare := o.spare - 1 } := by
  intro start p d h
  obtain ⟨hresumed, hopen⟩ := writing_resume h
  have hterminator : op.isTerminator = false := by
    have hbound := Opcode.isBound_of_isStep hop
    simp only [Opcode.isBound, Bool.or_eq_false_iff] at hbound
    exact hbound.1.1
  rw [emit_eq, hterminator]
  exact hresumed.step hopen hop

/-- The end of a block. -/
theorem writes_leave {op : Opcode} {operands : List UInt32} (hop : op.isTerminator = true)
    (htargets : ∀ t ∈ Instruction.targets ⟨op, operands⟩, o.Names t) :
    Writes o (Draft.emit op operands) fun _ => o.finished := by
  intro start p d h
  obtain ⟨hresumed, hopen⟩ := writing_resume h
  rw [emit_eq, hop]
  exact (hresumed.leave hopen hop htargets).spare (Nat.sub_le _ _)

/-- The end of a block whose branches meet again. -/
theorem writes_fork {m op : Opcode} {joins operands : List UInt32} (hm : m.isMerge = true) (hop : op.isBranch = true)
    (htargets : ∀ t ∈ Instruction.targets ⟨m, joins⟩ ++ Instruction.targets ⟨op, operands⟩, o.Names t) :
    Writes o (Draft.emit m joins >>= fun _ => Draft.emit op operands) fun _ => o.finished := by
  intro start p d h
  obtain ⟨hresumed, hopen⟩ := writing_resume h
  have hopen' : m.isTerminator = false := by
    simp only [Opcode.isMerge, List.contains_iff_mem, List.mem_cons, List.not_mem_nil, or_false] at hm
    rcases hm with rfl | rfl <;> rfl
  have hstep : (Draft.emit m joins >>= fun _ => Draft.emit op operands) d p.builder =
      (((), { (resume d p.builder).1.2 with
        body := ((resume d p.builder).1.2.body.push ⟨m, joins⟩).push ⟨op, operands⟩, terminated := true }),
        (resume d p.builder).2) := by
    change Draft.emit op operands (Draft.emit m joins d p.builder).1.2 (Draft.emit m joins d p.builder).2 = _
    rw [emit_eq m, emit_eq op, hopen', resume_of_open rfl, Opcode.isTerminator_of_isBranch hop]
  rw [hstep]
  exact (hresumed.fork hopen hm hop htargets).spare (Nat.sub_le _ _)

/-- A block ends with a branch to blocks that meet again, and the next one starts. -/
theorem writes_fork_label {m op : Opcode} {joins operands placed before after : List UInt32} {ended : Bool} {spare : Nat}
    (hm : m.isMerge = true) (hop : op.isBranch = true) (l : UInt32)
    (htargets : ∀ t ∈ Instruction.targets ⟨m, joins⟩ ++ Instruction.targets ⟨op, operands⟩, t ∈ before ++ l :: after) :
    Writes ⟨placed, before ++ l :: after, ended, spare⟩
      (do
        Draft.emit m joins
        Draft.emit op operands
        Draft.label l)
      fun _ => ⟨placed, before ++ after, false, spare⟩ := by
  rw [← bind_assoc]
  apply (writes_fork hm hop fun t ht => .inr (htargets t ht)).bind
  intro _
  exact writes_label l

/-- An instruction with a result. -/
theorem writes_result {op : Opcode} (hop : op.isStep = true) (type : UInt32) (operands : List UInt32) :
    Writes o (Draft.result op type operands) fun _ => o.running := by
  apply writes_take.bind
  intro id
  exact (writes_emit hop _).bind fun _ => writes_pure id

theorem writes_store (pointer value : UInt32) : Writes o (Draft.store pointer value) fun _ => o.running :=
  fun start p d h => (writes_emit rfl _ start p d h).spare (Nat.sub_le _ _)

theorem writes_branch {target : UInt32} (h : o.Names target) : Writes o (Draft.branch target) fun _ => o.finished := by
  apply writes_leave rfl
  intro t ht
  rw [List.mem_singleton.mp ht]
  exact h

/-- The last block leads on, unless it is at its end. -/
theorem writes_branchOn {target : UInt32} (h : o.Names target) :
    Writes o (Draft.branchOn target) fun _ => o.finished := by
  intro start p d hd
  cases hended : d.terminated with
  | true =>
    have hstep : Draft.branchOn target d p.builder = (((), d), p.builder) := by
      cases d
      cases hended
      rfl
    rw [hstep]
    exact ⟨hd.grows, hd.functions, hd.placings, hd.head, hd.vars, hd.blocks, hd.placed, hd.targets, fun _ => hended⟩
  | false =>
    have hstep : Draft.branchOn target d p.builder = Draft.branch target d p.builder := by
      cases d
      cases hended
      rfl
    rw [hstep]
    exact writes_branch h start p d hd

end Drafting

end Shading.Spirv
