import Shading.Proofs.Spirv.Expression
import Shading.Spirv.Statement

/-! The code of statements keeps the form of the function that it is written into. -/
namespace Shading.Spirv.Code

theorem keeps_declareVariable (span : Span) (d : VarDecl) : Keeps (declareVariable span d) := by
  unfold declareVariable
  apply (closed_pointerTo closed_keeps _ _ _ _).bind
  intro pointer
  apply (keeps_declare pointer).bind
  intro id
  apply (closed_giveName closed_keeps id d.name).bind
  intro _
  dsimp only
  have hlast : ∀ place, Keeps (modify fun s : State => { s with locals := (d.id, place) :: s.locals }) := by
    intro place
    apply keeps_modify
    · exact fun _ => rfl
    · exact fun _ => rfl
  split
  · apply (keeps_value _).bind
    intro init
    exact (keeps_store _ _).bind fun _ => hlast _
  · exact hlast _

/-- The last block leads on to where the branches meet. -/
theorem writes_leadOn {c : Context} {placed pending : List UInt32} {ended : Bool} {spare : Nat} {l : UInt32}
    (hl : l ∈ pending) :
    Writes c ⟨placed, pending, ended, spare⟩ (drafted (Draft.branchOn l)) fun _ => ⟨placed, pending, true, spare⟩ :=
  writes_drafted (Drafting.writes_branchOn (.inr hl))

theorem keeps_selection {condition : Code UInt32} {accepted : Code Unit} {rejected : Option (Code Unit)}
    (hc : Keeps condition) (ha : Keeps accepted) (hr : ∀ code ∈ rejected, Keeps code) :
    Keeps (selection condition accepted rejected) := by
  apply hc.bind
  intro condition ctx o hctx
  obtain ⟨placed, pending, ended, spare⟩ := o
  have hwithin : ∀ more, ctx.Within ⟨placed, more ++ pending, false, spare⟩ := fun more =>
    hctx.mono fun l hl => hl.imp_right (List.mem_append_right more)
  apply writes_fresh.bind
  intro accept
  apply writes_fresh.bind
  intro merge
  cases rejected with
  | none =>
    -- what does not hold leads to where the other branch leads
    simp only [Option.isSome_none, Bool.false_eq_true, ↓reduceIte, pure_bind]
    apply (@writes_selection ctx placed [merge] pending ended spare condition accept merge merge
      (by simp) (by simp)).bind
    intro _
    apply (ha ctx _ (hwithin [merge])).bind
    intro _
    apply (writes_leadOn (by simp)).bind
    intro _
    exact writes_drafted (@Drafting.writes_label placed [] pending spare merge)
  | some code =>
    apply writes_fresh.bind
    intro reject
    apply (@writes_selection ctx placed [reject, merge] pending ended spare condition accept reject merge
      (by simp) (by simp)).bind
    intro _
    apply (ha ctx _ (hwithin [reject, merge])).bind
    intro _
    apply (writes_leadOn (by simp)).bind
    intro _
    apply (writes_drafted (@Drafting.writes_label placed [] (merge :: pending) spare reject)).bind
    intro _
    apply (hr code rfl ctx _ (hwithin [merge])).bind
    intro _
    apply (writes_leadOn (by simp)).bind
    intro _
    exact writes_drafted (@Drafting.writes_label placed [] pending spare merge)

theorem keeps_repetition (unroll : Option Unroll) {condition : Code UInt32} {body : Code Unit} (hc : Keeps condition)
    (hbody : Keeps body) : Keeps (repetition unroll condition body) := by
  intro ctx o hctx
  obtain ⟨placed, pending, ended, spare⟩ := o
  apply writes_fresh.bind
  intro header
  apply writes_fresh.bind
  intro test
  apply writes_fresh.bind
  intro start
  apply writes_fresh.bind
  intro next
  apply writes_fresh.bind
  intro merge
  have hopen : Writes ctx ⟨placed, [merge, next, start, test] ++ header :: pending, ended, spare⟩
      (drafted do
        Draft.branch header
        Draft.label header
        Draft.loopMerge merge next (loopControl unroll)
        Draft.branch test
        Draft.label test)
      fun _ => ⟨header :: placed, [merge, next, start] ++ pending, false, spare⟩ := by
    apply writes_drafted
    apply (Drafting.writes_branch (.inr (by simp))).bind
    intro _
    apply (Drafting.writes_header header).bind
    intro _
    apply @Drafting.writes_fork_label _ _ _ _ _ [merge, next, start] pending _ _ rfl rfl test
    intro t ht
    simp only [Instruction.targets_loopMerge, Instruction.targets_branch] at ht
    grind
  apply hopen.bind
  intro _
  have hwithin : ∀ more, ctx.Within ⟨header :: placed, more ++ pending, false, spare⟩ := fun more =>
    hctx.mono fun l hl => hl.imp (List.mem_cons_of_mem _) (List.mem_append_right more)
  apply (hc ctx _ (hwithin [merge, next, start])).bind
  intro condition
  have hstart : Writes ctx ⟨header :: placed, [merge, next] ++ start :: pending, false, spare⟩
      (drafted do
        Draft.branchConditional condition start merge
        Draft.label start)
      fun _ => ⟨header :: placed, [merge, next] ++ pending, false, spare⟩ := by
    have htargets : ∀ t ∈ Instruction.targets ⟨.opBranchConditional, [condition, start, merge]⟩,
        Outline.Names ⟨header :: placed, [merge, next] ++ start :: pending, false, spare⟩ t := by
      intro t ht
      rw [Instruction.targets_branchConditional] at ht
      right
      grind
    apply writes_drafted
    apply (Drafting.writes_leave rfl htargets).bind
    intro _
    exact Drafting.writes_label start
  apply hstart.bind
  intro _
  have hround : Writes ctx ⟨header :: placed, [merge, next] ++ pending, false, spare⟩
      (withReader (fun c => { c with loop := some ⟨merge, next⟩ }) body)
      fun _ => ⟨header :: placed, [merge, next] ++ pending, false, spare⟩ := by
    apply hbody { ctx with loop := some ⟨merge, next⟩ }
    intro l hl
    cases hl
    exact ⟨.inr (by simp), .inr (by simp)⟩
  apply hround.bind
  intro _
  have hclose : Writes ctx ⟨header :: placed, [merge] ++ next :: pending, false, spare⟩
      (drafted do
        Draft.branchOn next
        Draft.label next
        Draft.branch header
        Draft.label merge)
      fun _ => ⟨header :: placed, pending, false, spare⟩ := by
    apply writes_drafted
    apply (Drafting.writes_branchOn (.inr (by simp))).bind
    intro _
    apply (Drafting.writes_label next).bind
    intro _
    apply (Drafting.writes_branch (.inl (by simp))).bind
    intro _
    exact @Drafting.writes_label _ [] _ _ merge
  intro pool s a s' hs h
  exact (hclose pool s a s' hs h).forget fun l hl => List.mem_cons_of_mem header hl

/-- A block ends with a branch to a block of the loop around the code. -/
theorem keeps_branchLoop {span : Span} {obstacle : Obstacle} {target : Loop → UInt32}
    (h : ∀ (o : Outline) (l : Loop), o.Names l.merge → o.Names l.next → o.Names (target l)) :
    Keeps (do
      match (← read).loop with
      | some l => drafted (Draft.branch (target l))
      | none => fail span obstacle) := by
  intro ctx o hctx start s a s' hs hstep
  obtain ⟨_, _, hread, hstep⟩ := bind_ok.mp hstep
  cases hread
  cases hloop : ctx.loop with
  | none =>
    rw [hloop] at hstep
    cases hstep
  | some l =>
    rw [hloop] at hstep
    obtain ⟨hmerge, hnext⟩ := hctx l hloop
    have hbranch : Writes ctx o (drafted (Draft.branch (target l))) _ :=
      writes_drafted (Drafting.writes_branch (h o l hmerge hnext))
    exact (hbranch start s a s' hs hstep).running

mutual

theorem keeps_statement : ∀ s : Stmt, Keeps (statement s)
  | .expr _ e => by
    rw [statement]
    exact (keeps_value e).bind fun _ => keeps_pure ()
  | .letVar span d => by
    rw [statement]
    exact keeps_declareVariable span d
  | .const .. | .alias .. | .option .. | .importFrom .. | .noOp _ => by
    rw [statement]
    exact keeps_pure ()
  | .branch _ true arms otherwise => by
    have hotherwise := keeps_statement otherwise
    rw [statement]
    apply keeps_read.bind
    intro c
    apply (keeps_liftM _).bind
    intro n
    split
    · exact keeps_selectedArm n arms
    · split
      · exact hotherwise
      · exact keeps_pure ()
  | .branch _ false arms otherwise => by
    have hotherwise := keeps_statement otherwise
    rw [statement]
    apply keeps_branches
    intro code hcode
    split at hcode
    · cases hcode
    · cases hcode
      exact hotherwise
  | .conditional _ cond body => by
    have hbody := keeps_statement body
    rw [statement]
    apply keeps_read.bind
    intro c
    apply (keeps_liftM _).bind
    intro holds
    split
    · exact hbody
    · exact keeps_pure ()
  | .loop _ cond unroll body => by
    rw [statement]
    exact keeps_repetition _ (keeps_value cond) (keeps_statement body)
  | .returnWith _ e => by
    have he := keeps_value e
    cases e with
    | absent =>
      rw [statement]
      exact keeps_leave rfl rfl
    | _ =>
      simp only [statement]
      exact he.bind fun result => keeps_leave rfl rfl
  | .discard span => by
    rw [statement]
    apply keeps_read.bind
    intro c
    dsimp only
    split
    · exact (closed_fail closed_keeps _ _).bind fun _ => keeps_leave rfl rfl
    · exact keeps_leave rfl rfl
  | .breakLoop span => by
    rw [statement]
    exact keeps_branchLoop fun _ _ hmerge _ => hmerge
  | .continueLoop span => by
    rw [statement]
    exact keeps_branchLoop fun _ _ _ hnext => hnext
  | .multi _ body => by
    rw [statement]
    exact keeps_statements body
  | .scoped _ body => by
    rw [statement]
    exact keeps_statement body
  | .absent | .struct .. | .function .. | .external .. | .forRange .. | .forEach .. => by
    simp only [statement]
    exact closed_fail closed_keeps _ _

theorem keeps_statements : ∀ ss : List Stmt, Keeps (statements ss)
  | [] => by
    rw [statements]
    exact keeps_pure ()
  | s :: ss => by
    rw [statements]
    exact (keeps_statement s).bind fun _ => keeps_statements ss

theorem keeps_selectedArm : ∀ (n : Nat) (arms : List (Expr × Stmt)), Keeps (selectedArm n arms)
  | _, [] => by
    rw [selectedArm]
    exact keeps_pure ()
  | 0, (_, s) :: _ => by
    rw [selectedArm]
    exact keeps_statement s
  | n + 1, _ :: arms => by
    rw [selectedArm]
    exact keeps_selectedArm n arms

theorem keeps_branches (last : Option (Code Unit)) (hlast : ∀ code ∈ last, Keeps code) :
    ∀ arms : List (Expr × Stmt), Keeps (branches last arms)
  | [] => by
    rw [branches]
    exact keeps_pure ()
  | (c, s) :: arms => by
    have hrest := keeps_branches last hlast arms
    rw [branches]
    apply keeps_selection (keeps_value c) (keeps_statement s)
    intro code hcode
    split at hcode
    · exact hlast code hcode
    · cases hcode
      exact hrest

end

end Shading.Spirv.Code
