import Shading.Proofs.Check.Nesting

/-! Checked loops. -/
namespace Shading.Check

open Stmt (Everywhere EverywhereAll declaresAll)

variable {site : Site} {σ σ' : State}

theorem delivers_checkBound {P : Place → Prop} (t : Ty) {e : Expr} (hP : ∀ p, P p → e = .absent ∨ e.Checked p) :
    Delivers P (checkBound t e) fun _ _ => e = .absent ∨ e.type.same t := by
  unfold checkBound
  split
  · exact .reject
  · rename_i hcond
    refine .pure fun p hp => (hP p hp).imp_right fun he => ?_
    simpa [Expr.isPresent, he.not_absent, known_of_checked he] using hcond

theorem delivers_rangeHead {P : Place → Prop} (h : RangeHead)
    (hh : h.start.Written ∧ h.stop.Written ∧ h.step.Written) :
    Delivers P (rangeHead h) fun p r => r.1.Checked p ∧ r.1.start.type = r.2 := by
  unfold rangeHead
  simp only [ite_bind]
  refine .bind (delivers_expression h.start hh.1) fun start => ?_
  refine .bind (delivers_expression h.stop hh.2.1) fun stop => ?_
  refine .bind (delivers_expressionOr h.step hh.2.2) fun step => ?_
  refine .bind (delivers_choice h.unroll _ _) fun unroll => ?_
  split
  · simp only [reject_bind]
    split
    · exact .reject
    · rename_i hcounts
      have hcounts : start.type = .prim .i32 ∨ start.type = .prim .u32 := by
        simp only [Bool.not_eq_true', Bool.not_eq_false, Bool.or_eq_true] at hcounts
        exact hcounts.imp Ty.eq_of_isPrim Ty.eq_of_isPrim
      have hscalar : start.type.scalar?.isSome := by
        rcases hcounts with hcounts | hcounts <;> rw [hcounts] <;> rfl
      refine .bind (delivers_checkBound _ fun p hp => .inr hp.1.1.2) fun _ => ?_
      refine .bind (delivers_checkBound _ fun p hp => hp.1.1.2.imp_left And.right) fun _ => ?_
      refine .pure fun p ⟨⟨⟨⟨⟨⟨_, hstart⟩, hstop⟩, hstep⟩, hunroll⟩, hstopSame⟩, hstepSame⟩ => ⟨?_, rfl⟩
      refine ⟨hstart, hcounts, hstop, ?_, ?_, hunroll⟩
      · rcases hstopSame with rfl | hsame
        · exact hstop.consistent.elim
        · exact Ty.eq_of_same_right hscalar hsame
      · rcases hstep with ⟨-, rfl⟩ | hstep
        · exact .inl rfl
        · exact hstepSame.imp_right fun hsame => ⟨hstep, Ty.eq_of_same_right hscalar hsame⟩
  · rename_i hunknown
    refine .pure fun p hp => ?_
    exact (hunknown (known_of_checked hp.1.1.1.2)).elim

theorem delivers_eachHead {P : Place → Prop} (h : EachHead) (hh : h.array.Written) :
    Delivers P (eachHead h) fun p r => r.1.Checked p ∧ ∃ n, r.1.array.type = .array r.2 n := by
  unfold eachHead
  refine .bind (delivers_expression h.array hh) fun array => ?_
  refine .bind (delivers_choice h.unroll _ _) fun unroll => ?_
  split
  · rename_i hunknown
    refine .pure fun p hp => ?_
    have hproper := hp.1.2.proper
    rw [hunknown] at hproper
    exact hproper.elim
  · rename_i elem n htype
    exact .pure fun p hp => ⟨⟨hp.1.2, ⟨elem, n, htype⟩, hp.2⟩, n, htype⟩
  · exact .reject

theorem Session.Sound.advance {s : Session} {given : OptionValues} (h : s.Sound given) {n : Int} (hn : s.nextVar ≤ n) :
    ({ s with nextVar := n } : Session).Sound given := by
  have hext : s.Extends { s with nextVar := n } := ⟨id, id, id, id⟩
  exact ⟨fun x hx => Int.lt_of_lt_of_le (h.vars x hx) hn, h.constants, h.functions, h.structs,
    fun before f after hf => (h.finished before f after hf).mono hext⟩

theorem supplied_ok {α : Type} {act : StateM Supply α} {a : α} (h : supplied act site σ = .ok (a, σ')) :
    a = (act.run ⟨σ.session.nextVar, σ.draft.temporaries⟩).1 ∧
      σ' = ⟨{ σ.session with nextVar := (act.run ⟨σ.session.nextVar, σ.draft.temporaries⟩).2.nextVar },
        { σ.draft with temporaries := (act.run ⟨σ.session.nextVar, σ.draft.temporaries⟩).2.temporaries }⟩ := by
  cases h
  exact ⟨rfl, rfl⟩

theorem idsOf_variables (ids : List Int) : idsOf .variable (ids.map (Prod.mk .variable)) = ids := by
  induction ids with
  | nil => rfl
  | cons id ids ih => rw [List.map_cons, idsOf_cons_self, ih]

theorem idsOf_others {space : Space} (h : space ≠ .variable) (ids : List Int) :
    idsOf space (ids.map (Prod.mk .variable)) = [] := by
  induction ids with
  | nil => rfl
  | cons id ids ih => rw [List.map_cons, idsOf_cons_ne h.symm, ih]

/-- Numbers are given to temporary variables that stand inside a statement. -/
theorem Step.supplied {P Q : Claim} {ids : List Int} {n : Int} {k : Nat} (h : Serial.Given σ.session.nextVar ids n)
    (hQ : ∀ env p, p.function = site.function → P env p → Q env p) :
    Step P site σ ⟨{ σ.session with nextVar := n }, { σ.draft with temporaries := k }⟩ []
      (ids.map (Prod.mk .variable)) (fun _ => []) Q := by
  have hnumbered : Numbered σ.session { σ.session with nextVar := n } (ids.map (Prod.mk .variable)) := by
    intro space
    cases space with
    | «variable» =>
      rw [idsOf_variables]
      exact h
    | _ =>
      rw [idsOf_others (by decide)]
      exact .nil
  refine ⟨[], ⟨(List.append_nil _).symm, rfl, fun _ => rfl, (List.append_nil _).symm, ?_, rfl, fun f hf => (by cases hf), rfl,
    rfl⟩, fun env p _ hroom hstands hp => ?_⟩
  · exact hnumbered.perm (by simp [moduleKeys])
  · have hext : σ.session.Extends { σ.session with nextVar := n } := ⟨id, id, id, id⟩
    have hle := hroom.left.next_le hnumbered .variable
    refine ⟨trivial, fun q hq => hQ env q (hq.function.symm.trans hstands.sees.function) (hp q hq), ?_, hext⟩
    exact hstands.extend [] hext (hstands.sound.advance hle) hstands.sees.wildcard
      (fun level hlevel x hx => .inl ⟨level, hlevel, hx⟩) (fun x hx => .inl hx) (fun d hd => (by cases hd))
      fun f _ g hg => (by cases hg)

/-- The body of a loop with a variable of its own. -/
theorem loopBody_ok {P : Claim} {act : Check (Option Stmt)} {span : Span} {name : Text} {t : Ty} {id : Int} {body : Stmt}
    (hact : Checks act) (hready : Ready site σ) (hfunction : site.function.isSome) (hP : ∀ env p, P env p → t.Proper)
    (h : inScope (do
      let id ← variableId 0
      let _ ← declareLocal name id t
      let body ← withReader loopSite (nested span act)
      pure (id, body)) site σ = .ok ((id, body), σ')) :
    Step P site σ σ' [] ((.variable, id) :: body.keys) (fun _ => [])
      fun env p => Everywhere env Node.Valid (p.after [.variable id t]) body := by
  obtain ⟨σ₁, hrun, rfl⟩ := inScope_ok h
  obtain ⟨id', σ₂, hid, hrun⟩ := bind_ok.mp hrun
  obtain ⟨new, σ₃, hlocal, hrun⟩ := bind_ok.mp hrun
  obtain ⟨body', σ₄, hnested, hpure⟩ := bind_ok.mp hrun
  obtain ⟨hpair, rfl⟩ := pure_ok.mp hpure
  cases hpair
  have hstep : Step P site σ.enter σ₃ [] [(.variable, id)] (fun _ => [.variable id t]) P := .local hid hlocal hP
  have hready' : Ready site σ.enter := ⟨hready.strict, hready.written, hready.previous, hready.missing⟩
  obtain ⟨D, -, hbody⟩ := nested_ok hact (withReader_ok.mp hnested) ((hstep.ready hready').move rfl)
  have hmoved : Step (fun _ _ => True) site σ₃ _ [] body.keys D _ := hbody.move rfl rfl
  have hboth := hstep.seq (hmoved.pre fun _ _ _ => trivial)
  exact (hboth.leave hfunction (fun _ => []) fun _ => List.nil_subset _).post fun _ _ hp => hp.2

theorem here_forRange {p : Place} {h : RangeHead} {body : Stmt} (span : Span) (hh : h.Checked p) :
    Stmt.Here Node.Valid p (.forRange span h body) := by
  refine ⟨⟨hh.counts, hh.stopType, hh.step.imp_right And.right⟩, fun e he => ?_⟩
  simp only [Stmt.ownExprs, List.mem_cons, List.not_mem_nil, or_false] at he
  rcases he with rfl | rfl | rfl | rfl
  · exact valid_of_optional (.inl hh.unroll)
  · exact valid_of_optional (.inr hh.start)
  · exact valid_of_optional (.inr hh.stop)
  · exact valid_of_optional (hh.step.imp_right And.left)

theorem here_forEach {p : Place} {h : EachHead} {body : Stmt} (span : Span) (hh : h.Checked p) :
    Stmt.Here Node.Valid p (.forEach span h body) := by
  refine ⟨hh.arrayType, fun e he => ?_⟩
  simp only [Stmt.ownExprs, List.mem_cons, List.not_mem_nil, or_false] at he
  rcases he with rfl | rfl
  · exact valid_of_optional (.inl hh.unroll)
  · exact valid_of_optional (.inr hh.array)

/-- A loop takes the numbers of its variable and of its body, and some for temporary variables. -/
structure Loops (P : Claim) (site : Site) (σ σ' : State) (id : Int) (body out : Stmt) : Prop where
  out : ∃ ks, (((.variable, id) :: body.keys) ++ ks).Perm out.keys ∧ (∀ env, out.declares env = []) ∧
    Step P site σ σ' [] ks (fun _ => []) fun env p => Everywhere env Node.Valid p out

theorem Loops.unchanged {P : Claim} {id : Int} {body out : Stmt} (hkeys : ((.variable, id) :: body.keys).Perm out.keys)
    (hdeclares : ∀ env, out.declares env = []) (hvalid : ∀ env p, P env p → Everywhere env Node.Valid p out) :
    Loops P site σ σ id body out :=
  ⟨[], by rwa [List.append_nil], hdeclares, .refl hvalid⟩

theorem Loops.supplied {P : Claim} {id : Int} {body out : Stmt} {act : StateM Supply Stmt}
    (hfunction : site.function.isSome) (hact : ∀ s, Stmt.Lowers s (act.run s).2 id body (act.run s).1 P) (h : supplied act site σ = .ok (out, σ')) :
    Loops P site σ σ' id body out := by
  obtain ⟨rfl, rfl⟩ := supplied_ok h
  have hlowers := hact ⟨σ.session.nextVar, σ.draft.temporaries⟩
  obtain ⟨ids, hids, hkeys⟩ := hlowers.given
  exact ⟨_, hkeys.symm, hlowers.declares, .supplied hids fun env p hp => hlowers.valid env p (hp ▸ hfunction)⟩

theorem rangeLoop_ok {span : Span} {h : RangeHead} {t : Ty} {body out : Stmt} (hfunction : site.function.isSome)
    (hrun : rangeLoop span h t body site σ = .ok (out, σ')) :
    Loops (fun env p => h.Checked p ∧ h.start.type = t ∧ Everywhere env Node.Valid (p.after [h.declaration]) body)
      site σ σ' h.id body out := by
  have unchanged : Loops (fun env p => h.Checked p ∧ h.start.type = t ∧
      Everywhere env Node.Valid (p.after [h.declaration]) body) site σ σ h.id body (.forRange span h body) := by
    refine .unchanged ?_ (fun _ => rfl) fun env p hp => ⟨here_forRange span hp.1, hp.2.2⟩
    rw [Stmt.keys_eq (.forRange span h body)]
    simp [Stmt.own, Stmt.children, RangeHead.declaration, Referent.key]
  unfold rangeLoop at hrun
  split at hrun
  · rename_i q
    obtain ⟨s, σ₁, hs, hrest⟩ := bind_ok.mp hrun
    obtain ⟨rfl, rfl⟩ := read_ok.mp hs
    split at hrest
    · exact .supplied hfunction (fun s => Stmt.lowers_reduceRange span h q body s) hrest
    · obtain ⟨rfl, rfl⟩ := pure_ok.mp hrest
      exact unchanged
  · obtain ⟨rfl, rfl⟩ := pure_ok.mp hrun
    exact unchanged

theorem eachLoop_ok {span : Span} {h : EachHead} {body out : Stmt} (hfunction : site.function.isSome)
    (hrun : eachLoop span h body site σ = .ok (out, σ')) :
    Loops (fun env p => h.Checked p ∧ Everywhere env Node.Valid (p.after [h.declaration]) body)
      site σ σ' h.id body out := by
  have unchanged : Loops (fun env p => h.Checked p ∧ Everywhere env Node.Valid (p.after [h.declaration]) body)
      site σ σ h.id body (.forEach span h body) := by
    refine .unchanged ?_ (fun _ => rfl) fun env p hp => ⟨here_forEach span hp.1, hp.2⟩
    rw [Stmt.keys_eq (.forEach span h body)]
    simp [Stmt.own, Stmt.children, EachHead.declaration, Referent.key]
  unfold eachLoop at hrun
  cases htype : h.array.type with
  | array elem n =>
    simp only [htype] at hrun
    obtain ⟨s, σ₁, hs, hrest⟩ := bind_ok.mp hrun
    obtain ⟨rfl, rfl⟩ := read_ok.mp hs
    split at hrest
    · refine .supplied hfunction (fun s => ?_) hrest
      have hlowers := Stmt.lowers_reduceEach span h elem n body s
      exact ⟨hlowers.given, hlowers.declares, fun env p hinside hp => hlowers.valid env p hinside ⟨hp.1, htype, hp.2⟩⟩
    · obtain ⟨rfl, rfl⟩ := pure_ok.mp hrest
      exact unchanged
  | _ =>
    simp only [htype] at hrun
    obtain ⟨rfl, rfl⟩ := pure_ok.mp hrun
    exact unchanged

theorem checks_forRange {act : Check (Option Stmt)} {span bodySpan : Span} {h : RangeHead} {body : Stmt} (hact : Checks act)
    (hh : (Stmt.forRange span h body).Written) : Checks (do
      let _ ← requireFunction span
      let (head, t) ← rangeHead h
      let (id, body) ← inScope do
        let id ← variableId h.id
        let _ ← declareLocal h.name id t
        let body ← withReader loopSite (nested bodySpan act)
        pure (id, body)
      return some (← rangeLoop span { head with id } t body)) := by
  have hid : h.id = 0 := (hh.self rfl).1 _ List.mem_cons_self
  have hparts : h.start.Written ∧ h.stop.Written ∧ h.step.Written :=
    ⟨hh.expr (by simp [Stmt.ownExprs]), hh.expr (by simp [Stmt.ownExprs]), hh.expr (by simp [Stmt.ownExprs])⟩
  rw [hid]
  refine .inFunction fun {site σ r σ' f} hrun hready hfunction => ?_
  obtain ⟨⟨head, t⟩, σ₁, hhead, hrun⟩ := bind_ok.mp hrun
  obtain ⟨⟨id, body'⟩, σ₂, hbody, hrun⟩ := bind_ok.mp hrun
  obtain ⟨out, σ₃, hloop, hpure⟩ := bind_ok.mp hrun
  obtain ⟨rfl, rfl⟩ := pure_ok.mp hpure
  obtain ⟨qs, hstep, -⟩ := Step.of_delivers (P := fun _ _ => True) (delivers_rangeHead (P := fun _ => True) h hparts) hhead
    fun _ _ _ => trivial
  have hstepBody := loopBody_ok (P := fun _ p => True ∧ head.Checked p ∧ head.start.type = t) hact (hstep.ready hready)
    (by rw [hfunction]; rfl) (fun _ _ hp => hp.2.2 ▸ hp.2.1.start.proper) hbody
  obtain ⟨ks, hkeys, hdeclares, hstepLoop⟩ := (rangeLoop_ok (by rw [hfunction]; rfl) hloop).out
  have hall := hstep.trans (hstepBody.trans (hstepLoop.pre fun env p ⟨⟨_, hchecked, htype⟩, hvalid⟩ => ?_))
  · refine ⟨_, (hall.post fun _ _ hp => hp.2.2).one ?_ fun env => (hdeclares env).symm⟩
    rw [List.nil_append]
    exact hkeys
  · refine ⟨⟨hchecked.start, hchecked.counts, hchecked.stop, hchecked.stopType, hchecked.step, hchecked.unroll⟩, htype, ?_⟩
    rw [RangeHead.declaration, htype]
    exact hvalid

theorem checks_forEach {act : Check (Option Stmt)} {span bodySpan : Span} {h : EachHead} {body : Stmt} (hact : Checks act)
    (hh : (Stmt.forEach span h body).Written) : Checks (do
      let _ ← requireFunction span
      let (head, t) ← eachHead h
      let (id, body) ← inScope do
        let id ← variableId h.id
        let _ ← declareLocal h.name id t
        let body ← withReader loopSite (nested bodySpan act)
        pure (id, body)
      return some (← eachLoop span { head with id } body)) := by
  have hid : h.id = 0 := (hh.self rfl).1 _ List.mem_cons_self
  rw [hid]
  refine .inFunction fun {site σ r σ' f} hrun hready hfunction => ?_
  obtain ⟨⟨head, t⟩, σ₁, hhead, hrun⟩ := bind_ok.mp hrun
  obtain ⟨⟨id, body'⟩, σ₂, hbody, hrun⟩ := bind_ok.mp hrun
  obtain ⟨out, σ₃, hloop, hpure⟩ := bind_ok.mp hrun
  obtain ⟨rfl, rfl⟩ := pure_ok.mp hpure
  obtain ⟨qs, hstep, -⟩ := Step.of_delivers (P := fun _ _ => True)
    (delivers_eachHead (P := fun _ => True) h (hh.expr (by simp [Stmt.ownExprs]))) hhead fun _ _ _ => trivial
  have helement : ∀ p, (head.Checked p ∧ ∃ n, head.array.type = .array t n) → t.Proper := by
    rintro p ⟨hchecked, n, htype⟩
    have hproper := hchecked.array.proper
    rw [htype] at hproper
    exact hproper
  have hstepBody := loopBody_ok (P := fun _ p => True ∧ head.Checked p ∧ ∃ n, head.array.type = .array t n) hact
    (hstep.ready hready) (by rw [hfunction]; rfl) (fun _ p hp => helement p hp.2) hbody
  obtain ⟨ks, hkeys, hdeclares, hstepLoop⟩ := (eachLoop_ok (by rw [hfunction]; rfl) hloop).out
  have hall := hstep.trans (hstepBody.trans (hstepLoop.pre fun env p ⟨⟨_, hchecked, n, htype⟩, hvalid⟩ => ?_))
  · refine ⟨_, (hall.post fun _ _ hp => hp.2.2).one ?_ fun env => (hdeclares env).symm⟩
    rw [List.nil_append]
    exact hkeys
  · refine ⟨⟨hchecked.array, hchecked.arrayType, hchecked.unroll⟩, ?_⟩
    rw [EachHead.declaration, htype]
    exact hvalid

/-- A loop with a condition. -/
theorem checks_loop {act : Check (Option Stmt)} {span bodySpan : Span} {cond : Expr} {unroll : Attr Unroll} {body : Stmt}
    (hact : Checks act) (hh : (Stmt.loop span cond unroll body).Written) : Checks (do
      let _ ← requireFunction span
      let cond ← withReader (fun s => { s with hoisting := false }) do
        let cond ← expression cond
        requireBool "while" cond
        pure cond
      let unroll ← unrollAttr unroll
      let body ← withReader loopSite (nestedScoped bodySpan act)
      return some (.loop span cond unroll body)) := by
  have hcond : Delivers (fun _ => True) (do
      let cond ← expression cond
      requireBool "while" cond
      pure cond) fun p e => e.type.isBool ∧ e.Checked p := by
    refine .bind (delivers_expression cond (hh.expr (by simp [Stmt.ownExprs]))) fun e => ?_
    refine .bind (delivers_requireBool _ fun p hp => hp.2) fun _ => ?_
    exact .pure fun p hp => ⟨hp.2, hp.1.2⟩
  have hcond' := hcond.withReader (f := fun s => { s with hoisting := false }) (fun _ => rfl) fun _ => rfl
  refine .inFunction fun {site σ r σ' f} hrun hready hfunction => ?_
  obtain ⟨cond', σ₁, hrunCond, hrun⟩ := bind_ok.mp hrun
  obtain ⟨unroll', σ₂, hrunUnroll, hrun⟩ := bind_ok.mp hrun
  obtain ⟨body', σ₃, hrunBody, hpure⟩ := bind_ok.mp hrun
  obtain ⟨rfl, rfl⟩ := pure_ok.mp hpure
  obtain ⟨qs, hstepCond, -⟩ := Step.of_delivers (P := fun _ _ => True) hcond' hrunCond fun _ _ _ => trivial
  obtain ⟨rs, hstepUnroll, -⟩ := Step.of_delivers (P := fun _ p => True ∧ cond'.type.isBool ∧ cond'.Checked p)
    (delivers_choice (P := fun _ => True) unroll _ _) hrunUnroll fun _ _ _ => trivial
  have hready₂ := hstepUnroll.ready (hstepCond.ready hready)
  have hstepBody := nestedScoped_ok hact (withReader_ok.mp hrunBody) (hready₂.move rfl)
    (by show site.function.isSome; rw [hfunction]; rfl) (fun _ => []) fun _ => List.nil_subset _
  have hmoved : Step (fun _ _ => True) site σ₂ _ [] body'.keys (fun _ => []) _ := hstepBody.move rfl rfl
  have hall := hstepCond.trans (hstepUnroll.trans (hmoved.pre fun _ _ _ => trivial))
  refine ⟨_, (hall.post fun env p hp => ?_).one ?_ fun _ => rfl⟩
  · obtain ⟨⟨hbool, hchecked⟩, hunroll, hbody⟩ := hp
    refine ⟨⟨hbool, fun e he => ?_⟩, hbody⟩
    simp only [Stmt.ownExprs, List.mem_cons, List.not_mem_nil, or_false] at he
    rcases he with rfl | rfl
    · exact valid_of_optional (.inl hunroll)
    · exact valid_of_optional (.inr hchecked)
  · rw [Stmt.keys_loop]
    exact List.Perm.refl _

end Shading.Check
