import Mathlib.Algebra.Order.BigOperators.Group.List
import Mathlib.Algebra.Order.Group.Nat
import Shading.Proofs.Spirv.Entry
import Shading.Proofs.Spirv.Statement
import Shading.Proofs.Walk

/-! The calls of a source and of its code. What a compound assignment writes to is computed twice: once when it is read
and once when it is written. -/
namespace Shading

/-- The number of the function that a node calls. -/
def Node.callee? : Node → Option Int
  | .expr (.call _ (.function _ id) _) => some id
  | _ => none

/-- The numbers of the functions that an expression calls, one for each call, in the order of the source. -/
def Expr.callees (e : Expr) : List Int := e.nodes.filterMap Node.callee?

/-- Does a node write to nothing that it reads with a call? -/
def Node.WritesOnce : Node → Prop
  | .expr (.assign _ op l _) => op.binary?.isSome → l.callees = []
  | _ => True

/-- What is not computed when a program runs, which is a type, an index with a known value and what follows the
argument of `size`, calls no function. -/
def Node.CallsAtRun (c : Constants) : Node → Prop
  | .expr (.cast _ t _) => t.callees = []
  | .expr (.index _ _ es) => ∀ e ∈ es, ∀ v, e.evaluate c.get? = .ok v → e.callees = []
  | .expr (.intrinsic _ .size es) => ∀ e ∈ es.tail, e.callees = []
  | _ => True

namespace Expr

mutual

/-- The numbers of the functions that are called when an expression is computed, in the order of the calls. -/
def issued : Expr → List Int
  | .assign _ op l r => r.issued ++ (if op.binary?.isSome then l.issued else []) ++ l.issued
  | .call i target args => target.issued ++ issuedAll args ++ (Node.expr (.call i target args)).callee?.toList
  | .binary _ _ l r => l.issued ++ r.issued
  | .unary _ _ e | .swizzle _ e _ | .member _ e _ => e.issued
  | .ternary _ c t f => c.issued ++ t.issued ++ f.issued
  | .cast _ e es | .index _ e es | .method _ e _ es => e.issued ++ issuedAll es
  | .intrinsic _ _ es => issuedAll es
  | _ => []

def issuedAll : List Expr → List Int
  | [] => []
  | e :: es => e.issued ++ issuedAll es

end

/-- What is computed once more when it is written to. -/
def rewritten : Expr → List Int
  | .assign _ op l _ => if op.binary?.isSome then l.issued else []
  | _ => []

theorem callees_eq {e : Expr} (h : e.isAbsent = false) :
    e.callees = (Node.expr e).callee?.toList ++ e.children.flatMap callees := by
  rw [callees, nodes_eq h, List.filterMap_cons, List.filterMap_flatMap]
  cases (Node.expr e).callee? with
  | none => rfl
  | some id => rfl

theorem issuedAll_eq (es : List Expr) : issuedAll es = es.flatMap issued := by
  induction es with
  | nil => rfl
  | cons e es ih => rw [issuedAll, ih, List.flatMap_cons]

/-- The calls of an expression are its own and those of its parts. -/
theorem issued_perm (e : Expr) :
    e.issued.Perm ((Node.expr e).callee?.toList ++ e.children.flatMap issued ++ e.rewritten) := by
  cases e with
  | assign i op l r =>
    simp only [issued, children, rewritten, Node.callee?, Option.toList_none, List.flatMap_cons, List.flatMap_nil,
      List.append_nil, List.nil_append]
    exact List.perm_append_comm.trans (.of_eq (List.append_assoc _ _ _).symm)
  | call i target args =>
    simp only [issued, children, rewritten, issuedAll_eq, List.flatMap_cons, List.append_nil]
    exact List.perm_append_comm
  | _ =>
    simp only [issued, children, rewritten, issuedAll_eq, Node.callee?, Option.toList_none, List.flatMap_cons,
      List.flatMap_nil, List.append_nil, List.nil_append, List.append_assoc]
    exact .refl _

theorem issued_subset (e : Expr) : e.issued ⊆ e.callees := by
  induction e using induction_children with
  | h e ih =>
    intro id hid
    cases habsent : e.isAbsent with
    | true =>
      cases e with
      | absent => exact hid
      | _ => cases habsent
    | false =>
      rw [callees_eq habsent]
      have hchild : ∀ c ∈ e.children, id ∈ c.issued → id ∈ (Node.expr e).callee?.toList ++ e.children.flatMap callees :=
        fun c hc hid => List.mem_append_right _ (List.mem_flatMap.mpr ⟨c, hc, ih c hc hid⟩)
      rcases List.mem_append.mp ((issued_perm e).subset hid) with hid | hid
      · rcases List.mem_append.mp hid with hid | hid
        · exact List.mem_append_left _ hid
        · obtain ⟨c, hc, hid⟩ := List.mem_flatMap.mp hid
          exact hchild c hc hid
      · cases e with
        | assign i op l r =>
          simp only [rewritten] at hid
          split at hid
          · exact hchild l List.mem_cons_self hid
          · cases hid
        | _ => cases hid

theorem issued_eq_nil {e : Expr} (h : e.callees = []) : e.issued = [] :=
  List.subset_nil.mp (h ▸ e.issued_subset)

/-- No call of an expression is left out when it is computed. -/
theorem count_callees_le (e : Expr) (id : Int) : e.callees.count id ≤ e.issued.count id := by
  induction e using induction_children with
  | h e ih =>
    cases habsent : e.isAbsent with
    | true =>
      cases e with
      | absent => exact Nat.le_refl _
      | _ => cases habsent
    | false =>
      rw [callees_eq habsent, (issued_perm e).count_eq]
      simp only [List.count_append, List.count_flatMap]
      have hparts : (e.children.map (List.count id ∘ callees)).sum ≤ (e.children.map (List.count id ∘ issued)).sum :=
        List.sum_le_sum ih
      omega

/-- If no compound assignment writes to what it calls for, each call is computed once. -/
theorem issued_perm_callees {e : Expr} (h : ∀ n ∈ e.nodes, n.WritesOnce) : e.issued.Perm e.callees := by
  induction e using induction_children with
  | h e ih =>
    cases habsent : e.isAbsent with
    | true =>
      cases e with
      | absent => exact .refl _
      | _ => cases habsent
    | false =>
      have hrewritten : e.rewritten = [] := by
        cases e with
        | assign i op l r =>
          have honce := h _ (mem_nodes_self habsent)
          simp only [rewritten]
          split
          · exact issued_eq_nil (honce ‹_›)
          · rfl
        | _ => rfl
      have hparts : (e.children.flatMap issued).Perm (e.children.flatMap callees) := by
        apply List.Perm.flatMap_left
        intro c hc
        exact ih c hc (nodes_child h hc)
      rw [callees_eq habsent]
      refine (issued_perm e).trans ?_
      rw [hrewritten, List.append_nil]
      exact hparts.append_left _

end Expr

namespace Stmt

mutual

/-- The expressions of a statement that are there with the values of the constants: those outside branches that
are not selected and outside statements that are not enabled. -/
def live (c : Constants) : Stmt → List Expr
  | .expr _ e | .returnWith _ e => [e]
  | .letVar _ d => [d.init]
  | .branch _ true arms otherwise =>
    match c.selectArm arms with
    | .ok n => if n < arms.length then liveArm c n arms else live c otherwise
    | .error _ => []
  | .branch _ false arms otherwise => liveArms c arms ++ if arms.isEmpty then [] else live c otherwise
  | .conditional _ cond body =>
    match c.condition cond with
    | .ok true => live c body
    | _ => []
  | .loop _ cond _ body => cond :: live c body
  | .multi _ body => liveAll c body
  | .scoped _ body => live c body
  | _ => []

def liveAll (c : Constants) : List Stmt → List Expr
  | [] => []
  | s :: ss => live c s ++ liveAll c ss

def liveArm (c : Constants) : Nat → List (Expr × Stmt) → List Expr
  | _, [] => []
  | 0, (_, s) :: _ => live c s
  | n + 1, _ :: arms => liveArm c n arms

def liveArms (c : Constants) : List (Expr × Stmt) → List Expr
  | [] => []
  | (e, s) :: arms => e :: live c s ++ liveArms c arms

end

end Stmt

namespace Spirv

/-- The number of the function that an instruction calls. -/
def Instruction.callee? (i : Instruction) : Option UInt32 :=
  if i.opcode = .opFunctionCall then i.operands[2]? else none

theorem Instruction.callee?_eq_none {op : Opcode} (h : op ≠ .opFunctionCall) (operands : List UInt32) :
    Instruction.callee? ⟨op, operands⟩ = none := if_neg h

/-- The numbers of the functions that code calls, in the order of the calls. -/
def called (code : List Instruction) : List UInt32 := code.filterMap Instruction.callee?

theorem called_concat (code : List Instruction) (i : Instruction) :
    called (code ++ [i]) = called code ++ i.callee?.toList := by
  rw [called, called, List.filterMap_append, List.filterMap_cons]
  cases i.callee? with
  | none => rfl
  | some id => rfl

/-- What is written next into a function: at its end, calls of the functions with those numbers. -/
structure Draft.Calls (d d' : Draft) (ids : List UInt32) : Prop where
  called : Spirv.called d'.instructions = Spirv.called d.instructions ++ ids
  head : d.head.toList <+: d'.head.toList

namespace Draft

variable {d d' d'' : Draft} {ids ids' : List UInt32}

theorem Calls.refl (d : Draft) : d.Calls d [] := ⟨(List.append_nil _).symm, List.prefix_refl _⟩

theorem Calls.trans (h : d.Calls d' ids) (h' : d'.Calls d'' ids') : d.Calls d'' (ids ++ ids') :=
  ⟨by rw [h'.called, h.called, List.append_assoc], h.head.trans h'.head⟩

theorem called_instructions (d : Draft) :
    called d.instructions = called d.head.toList ++ called d.vars.toList ++ called d.body.toList := by
  have hlabel : called [⟨.opLabel, [d.entry]⟩] = [] := rfl
  have hend : called [⟨.opFunctionEnd, []⟩] = [] := rfl
  simp only [called, instructions, List.filterMap_append] at hlabel hend ⊢
  rw [hlabel, hend, List.append_nil, List.append_nil]

/-- An instruction is written. -/
theorem calls_push (d : Draft) (i : Instruction) (ended : Bool) :
    d.Calls { d with body := d.body.push i, terminated := ended } i.callee?.toList := by
  refine ⟨?_, List.prefix_refl _⟩
  rw [called_instructions, called_instructions, Array.toList_push, called_concat]
  simp only [List.append_assoc]

end Draft

namespace Drafting

variable {α β : Type} {ids : List UInt32}

/-- Steps that write calls of the functions with those numbers, and nothing outside the function. -/
def Calls (x : Drafting α) (ids : List UInt32) : Prop :=
  ∀ d b, Draft.Calls d (x d b).1.2 ids ∧ (x d b).2.functions = b.functions

theorem calls_pure (a : α) : Calls (pure a) [] := fun d _ => ⟨.refl d, rfl⟩

theorem Calls.bind {x : Drafting α} {f : α → Drafting β} {ids' : List UInt32} (hx : Calls x ids)
    (hf : ∀ a, Calls (f a) ids') : Calls (x >>= f) (ids ++ ids') := by
  intro d b
  obtain ⟨hfirst, hfunctions⟩ := hx d b
  obtain ⟨hlast, hfunctions'⟩ := hf (x d b).1.1 (x d b).1.2 (x d b).2
  exact ⟨hfirst.trans hlast, hfunctions'.trans hfunctions⟩

theorem calls_fresh : Calls Draft.fresh [] := fun d _ => ⟨.refl d, rfl⟩

theorem calls_label (id : UInt32) : Calls (Draft.label id) [] := fun d _ => ⟨d.calls_push _ _, rfl⟩

theorem calls_resume : Calls resume [] := by
  intro d b
  cases hended : d.terminated with
  | true =>
    rw [resume_of_ended hended]
    exact ⟨d.calls_push _ _, rfl⟩
  | false =>
    rw [resume_of_open hended]
    exact ⟨.refl d, rfl⟩

theorem calls_emit (op : Opcode) (operands : List UInt32) :
    Calls (Draft.emit op operands) (Instruction.callee? ⟨op, operands⟩).toList := by
  intro d b
  obtain ⟨hresume, hfunctions⟩ := calls_resume d b
  rw [emit_eq]
  exact ⟨hresume.trans (Draft.calls_push _ _ _), hfunctions⟩

theorem silent_emit {op : Opcode} (h : op ≠ .opFunctionCall) (operands : List UInt32) :
    Calls (Draft.emit op operands) [] := by
  have hemit := calls_emit op operands
  rwa [Instruction.callee?_eq_none h operands] at hemit

theorem silent_result {op : Opcode} (h : op ≠ .opFunctionCall) (type : UInt32) (operands : List UInt32) :
    Calls (Draft.result op type operands) [] :=
  calls_fresh.bind fun id => (silent_emit h _).bind fun _ => calls_pure id

theorem calls_call (type function : UInt32) (args : List UInt32) : Calls (Draft.call type function args) [function] :=
  calls_fresh.bind fun id => (calls_emit _ _).bind fun _ => calls_pure id

theorem silent_parameter (type : UInt32) : Calls (Draft.parameter type) [] := by
  intro d b
  refine ⟨⟨?_, ?_⟩, rfl⟩
  · change called (Draft.instructions { d with head := d.head.push ⟨.opFunctionParameter, [type, b.next]⟩ }) = _
    rw [Draft.called_instructions, Draft.called_instructions, Array.toList_push, called_concat, List.append_nil,
      Instruction.callee?_eq_none (by decide) _, Option.toList_none, List.append_nil]
  · change _ <+: (d.head.push ⟨.opFunctionParameter, [type, b.next]⟩).toList
    rw [Array.toList_push]
    exact List.prefix_append _ _

theorem silent_declare (pointer : UInt32) : Calls (Draft.declare pointer) [] := by
  intro d b
  refine ⟨⟨?_, List.prefix_refl _⟩, rfl⟩
  change called (Draft.instructions
    { d with vars := d.vars.push ⟨.opVariable, [pointer, b.next, StorageClass.function]⟩ }) = _
  rw [Draft.called_instructions, Draft.called_instructions, Array.toList_push, called_concat, List.append_nil,
    Instruction.callee?_eq_none (by decide) _, Option.toList_none, List.append_nil]

theorem silent_branchOn (target : UInt32) : Calls (Draft.branchOn target) [] := by
  intro d b
  cases hended : d.terminated with
  | true =>
    have hstep : Draft.branchOn target d b = (((), d), b) := by
      cases d
      cases hended
      rfl
    rw [hstep]
    exact ⟨.refl d, rfl⟩
  | false =>
    have hstep : Draft.branchOn target d b = Draft.branch target d b := by
      cases d
      cases hended
      rfl
    rw [hstep]
    exact silent_emit (by decide) _ d b

end Drafting

/-- The number of the code of a function. -/
def Context.number? (c : Context) (id : Int) : Option UInt32 := (function? c.functions id).map Function.id

/-- What is written into a function between two states: calls of the functions of the source with those numbers. -/
structure Calling (c : Context) (s : State) (ids : List Int) (s' : State) : Prop where
  draft : ∃ numbers, s.draft.Calls s'.draft numbers ∧ numbers.map some = ids.map c.number?
  functions : s'.pool.builder.functions = s.pool.builder.functions

namespace Calling

variable {c : Context} {s s' s'' : State} {ids ids' : List Int}

theorem refl (c : Context) (s : State) : Calling c s [] s := ⟨⟨[], .refl _, rfl⟩, rfl⟩

theorem trans (h : Calling c s ids s') (h' : Calling c s' ids' s'') : Calling c s (ids ++ ids') s'' := by
  obtain ⟨numbers, hcalls, hnumbers⟩ := h.draft
  obtain ⟨numbers', hcalls', hnumbers'⟩ := h'.draft
  refine ⟨⟨numbers ++ numbers', hcalls.trans hcalls', ?_⟩, h'.functions.trans h.functions⟩
  rw [List.map_append, List.map_append, hnumbers, hnumbers']

/-- The function stays as it is. -/
theorem of_pool (hdraft : s'.draft = s.draft) (h : s'.pool.builder.functions = s.pool.builder.functions) :
    Calling c s [] s' := ⟨⟨[], hdraft ▸ .refl _, rfl⟩, h⟩

end Calling

namespace Code

variable {α β : Type} {c : Context} {ids ids' : List Int}

/-- Code that writes calls, which are known once it has a result. -/
def Adds (c : Context) (x : Code α) (Q : α → List Int → Prop) : Prop :=
  ∀ s a s', x c s = .ok (a, s') → ∃ ids, Q a ids ∧ Calling c s ids s'

/-- Code that calls the functions with those numbers, in that order. -/
def Calls (c : Context) (x : Code α) (ids : List Int) : Prop := Adds c x fun _ ids' => ids' = ids

/-- Code that calls nothing. -/
def Silent (x : Code α) : Prop := ∀ c, Calls c x []

theorem Adds.bind {x : Code α} {f : α → Code β} {P : α → List Int → Prop} {Q : β → List Int → Prop} (hx : Adds c x P)
    (hf : ∀ a ids, P a ids → Adds c (f a) fun b ids' => Q b (ids ++ ids')) : Adds c (x >>= f) Q := by
  intro s b s' h
  obtain ⟨a, s₁, hxs, hfs⟩ := bind_ok.mp h
  obtain ⟨ids, hP, hfirst⟩ := hx s a s₁ hxs
  obtain ⟨ids', hQ, hlast⟩ := hf a ids hP s₁ b s' hfs
  exact ⟨ids ++ ids', hQ, hfirst.trans hlast⟩

theorem Silent.adds {x : Code α} (h : Silent x) {Q : α → List Int → Prop} (hQ : ∀ a, Q a []) : Adds c x Q := by
  intro s a s' hs
  obtain ⟨ids, rfl, hcalls⟩ := h c s a s' hs
  exact ⟨[], hQ a, hcalls⟩

theorem Calls.bind {x : Code α} {f : α → Code β} (hx : Calls c x ids) (hf : ∀ a, Calls c (f a) ids') :
    Calls c (x >>= f) (ids ++ ids') := by
  apply Adds.bind hx
  rintro a _ rfl s b s' h
  obtain ⟨_, rfl, hcalls⟩ := hf a s b s' h
  exact ⟨_, rfl, hcalls⟩

/-- Code that calls nothing comes first. -/
theorem Silent.then {x : Code α} {f : α → Code β} {Q : β → List Int → Prop} (hx : Silent x)
    (hf : ∀ a, Adds c (f a) Q) : Adds c (x >>= f) Q := by
  apply Adds.bind (hx c)
  rintro a _ rfl
  exact hf a

/-- Code that calls nothing follows. -/
theorem Calls.then {x : Code α} {f : α → Code β} (hx : Calls c x ids) (hf : ∀ a, Silent (f a)) :
    Calls c (x >>= f) ids := by
  have hbind := hx.bind fun a => hf a c
  rwa [List.append_nil] at hbind

theorem Silent.bind {x : Code α} {f : α → Code β} (hx : Silent x) (hf : ∀ a, Silent (f a)) : Silent (x >>= f) :=
  fun c => (hx c).then hf

theorem silent_of {x : Code α} (h : ∀ c s a s', x c s = .ok (a, s') →
    s'.draft = s.draft ∧ s'.pool.builder.functions = s.pool.builder.functions) : Silent x := by
  intro c s a s' hs
  obtain ⟨hdraft, hfunctions⟩ := h c s a s' hs
  exact ⟨[], rfl, .of_pool hdraft hfunctions⟩

theorem calls_drafted {x : Drafting α} {numbers : List UInt32} (h : Drafting.Calls x numbers)
    (hids : numbers.map some = ids.map c.number?) : Calls c (drafted x) ids := by
  intro s a s' hs
  cases hs
  obtain ⟨hcalls, hfunctions⟩ := h s.draft s.pool.builder
  exact ⟨ids, rfl, ⟨numbers, hcalls, hids⟩, hfunctions⟩

theorem silent_drafted {x : Drafting α} (h : Drafting.Calls x []) : Silent (drafted x) := fun _ => calls_drafted h rfl

/-- Whatever is put together without a call and without the end of a block calls nothing. -/
theorem closed_silent : Closed @Silent where
  pure _ := silent_of fun _ _ _ _ h => by
    cases h
    exact ⟨rfl, rfl⟩
  throw _ := silent_of fun _ _ _ _ h => by cases h
  bind := Silent.bind
  get := silent_of fun _ _ _ _ h => by
    cases h
    exact ⟨rfl, rfl⟩
  read := silent_of fun _ _ _ _ h => by
    cases h
    exact ⟨rfl, rfl⟩
  liftM x := silent_of fun _ _ _ _ h => by
    cases x with
    | error e => cases h
    | ok a =>
      cases h
      exact ⟨rfl, rfl⟩
  modify hpool hdraft := silent_of fun _ s _ _ h => by
    cases h
    exact ⟨hdraft s, by rw [hpool s]⟩
  built hx := silent_of fun _ s _ _ h => by
    cases h
    obtain ⟨n, hadds⟩ := hx s.pool.builder
    exact ⟨rfl, hadds.functions⟩
  added hx hy := silent_of fun c s a s' h => by
    obtain ⟨pool, hpool, rfl⟩ := hy c s a s' h
    exact ⟨rfl, (hx s.pool a pool hpool).functions⟩
  parameter type := silent_drafted (Drafting.silent_parameter type)
  declare pointer := silent_drafted (Drafting.silent_declare pointer)
  store pointer value := silent_drafted (Drafting.silent_emit (by decide) _)
  result hop type operands := silent_drafted (Drafting.silent_result (by
    rintro rfl
    cases hop) type operands)

theorem adds_pure {a : α} {Q : α → List Int → Prop} (h : Q a []) : Adds c (pure a) Q := by
  intro s b s' hs
  cases hs
  exact ⟨[], h, .refl c s⟩

theorem adds_fail (span : Span) (obstacle : Obstacle) {Q : α → List Int → Prop} : Adds c (fail span obstacle) Q := by
  intro s a s' hs
  cases hs

theorem adds_read : Adds c read fun a ids => a = c ∧ ids = [] := by
  intro s a s' hs
  cases hs
  exact ⟨[], ⟨rfl, rfl⟩, .refl c s⟩

theorem Adds.map {x : Code α} {f : α → β} {Q : β → List Int → Prop} (h : Adds c x fun a => Q (f a)) :
    Adds c (f <$> x) Q := by
  have heq : f <$> x = x >>= fun a => pure (f a) := (bind_pure_comp f x).symm
  rw [heq]
  apply h.bind
  intro a ids hQ
  apply adds_pure
  rwa [List.append_nil]

/-- Code that looks for a place, and calls what the place is computed with if it finds one. -/
def Finds (c : Context) (x : Code (Option Place)) (ids : List Int) : Prop :=
  Adds c x fun p ids' => ids' = if p.isSome then ids else []

theorem Finds.bind {x : Code (Option Place)} {f : Option Place → Code β} (hx : Finds c x ids)
    (hsome : ∀ p, Calls c (f (some p)) ids') (hnone : Calls c (f none) (ids ++ ids')) :
    Calls c (x >>= f) (ids ++ ids') := by
  apply Adds.bind hx
  rintro (_ | p) _ rfl s b s' h
  · obtain ⟨_, rfl, hcalls⟩ := hnone s b s' h
    exact ⟨_, rfl, hcalls⟩
  · obtain ⟨_, rfl, hcalls⟩ := hsome p s b s' h
    exact ⟨_, rfl, hcalls⟩

theorem Finds.then {x : Code (Option Place)} {f : Option Place → Code β} (hx : Finds c x ids)
    (hsome : ∀ p, Silent (f (some p))) (hnone : Calls c (f none) ids) : Calls c (x >>= f) ids := by
  have hbind := hx.bind (fun p => hsome p c) (by rwa [List.append_nil])
  rwa [List.append_nil] at hbind

end Code

end Spirv

end Shading
