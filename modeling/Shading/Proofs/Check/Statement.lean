import Shading.Proofs.Check.Nesting
import Shading.Proofs.Check.Loop

/-! Every statement that is checked keeps to the rules. -/
namespace Shading.Check

open Stmt (Everywhere EverywhereAll EverywhereArms declaresAll)

variable {site : Site} {σ σ' : State}

theorem delivers_constantCondition {P : Place → Prop} {cond : Expr} (hP : ∀ p, P p → cond.Checked p) :
    Delivers P (constantCondition cond) fun _ _ => cond.type.isBool := by
  unfold constantCondition
  split
  · rename_i hunknown
    refine .pure fun p hp => ?_
    simp [known_of_checked (hP p hp)] at hunknown
  simp only [reject_bind]
  split
  · exact .reject
  rename_i hbool
  refine .bind (.of_reads_only (.evaluateWithDefaults cond)) fun r => ?_
  split
  · exact .reject
  · refine .bind (.of_reads_only (.evaluate cond)) fun r => ?_
    split <;> exact .pure fun _ _ => by simpa using hbool

theorem delivers_constantConditions {P : Place → Prop} (arms : List (Expr × Stmt)) (harms : ∀ a ∈ arms, a.1.Written) :
    Delivers P (constantConditions arms) fun p r => ∀ x ∈ r, x.1.type.isBool ∧ x.1.Checked p := by
  induction arms generalizing P with
  | nil => exact .pure fun _ _ x hx => (by cases hx)
  | cons a arms ih =>
    obtain ⟨c, s⟩ := a
    rw [List.forall_mem_cons] at harms
    refine .bind (delivers_expression c harms.1) fun c' => ?_
    refine .bind (delivers_constantCondition fun p hp => hp.2) fun known => ?_
    refine .bind (ih harms.2) fun rest => ?_
    exact .pure fun p hp => List.forall_mem_cons.mpr ⟨⟨hp.1.2, hp.1.1.2⟩, hp.2⟩

theorem length_constantConditions {arms : List (Expr × Stmt)} {r : List (Expr × Option Bool)}
    (h : constantConditions arms site σ = .ok (r, σ')) : r.length = arms.length := by
  induction arms generalizing σ σ' r with
  | nil =>
    obtain ⟨rfl, -⟩ := pure_ok.mp h
    rfl
  | cons a arms ih =>
    obtain ⟨c, s⟩ := a
    obtain ⟨c', σ₁, -, h⟩ := bind_ok.mp h
    obtain ⟨known, σ₂, -, h⟩ := bind_ok.mp h
    obtain ⟨rest, σ₃, hrest, hpure⟩ := bind_ok.mp h
    obtain ⟨rfl, -⟩ := pure_ok.mp hpure
    rw [List.length_cons, List.length_cons, ih hrest]

theorem delivers_requireFunction {P : Place → Prop} (span : Span) :
    Delivers P (requireFunction span) fun p f => p.function = some f ∧ f.result.Proper := by
  refine .of_reads (fun hpq h => ⟨hpq.function ▸ h.1, h.2⟩) fun {site σ f σ'} h => ?_
  obtain ⟨hf, rfl⟩ := requireFunction_ok h
  exact ⟨rfl, fun p hsees _ => ⟨hsees.function.trans hf, (hsees.proper _ (hsees.current f hf)).2⟩⟩

theorem reads_requireLoop (span : Span) (r : Rejection) : Reads (requireLoop span r) := by
  refine .bind .read fun s => ?_
  split
  · exact .reject _ _
  · exact .pure _

theorem delivers_returned {P : Place → Prop} (span : Span) {f : Function} (e : Expr) (he : e.Written)
    (hP : ∀ p, P p → p.function = some f ∧ f.result.Proper) :
    Delivers P (returned span f e) fun p e => Stmt.Here Node.Valid p (.returnWith span e) := by
  unfold returned
  split
  · rename_i hunknown
    simp only [ite_bind]
    refine .bind (delivers_expressionOr e he) fun e' => .pure fun p hp => ?_
    simp [(hP p hp.1).2.isKnown] at hunknown
  simp only [reject_bind]
  split
  · rename_i habsent
    rw [absent_of_isAbsent habsent]
    split
    · exact .reject
    · rename_i hvoid
      refine .pure fun p hp => ⟨⟨f, (hP p hp).1, .inl ⟨rfl, ?_⟩⟩, fun e he n hn => ?_⟩
      · cases hresult : f.result with
        | void => rfl
        | unknown =>
          have hproper := (hP p hp).2
          rw [hresult] at hproper
          exact hproper.elim
        | _ => simp [hresult, Ty.isVoid] at hvoid
      · rw [List.mem_singleton.mp he] at hn
        cases hn
  · refine .bind (delivers_expression e he) fun e' => ?_
    split
    · exact .reject
    split
    · exact .reject
    · rename_i hsame
      refine .pure fun p hp => ⟨⟨f, (hP p hp.1).1, .inr ⟨?_, ?_⟩⟩, fun e he => ?_⟩
      · rintro rfl
        exact hp.2.consistent
      · simpa [known_of_checked hp.2] using hsame
      · rw [List.mem_singleton.mp he]
        exact fun n hn => hp.2.of_mem_nodes hn

theorem checksAll_nil : ChecksAll (pure []) := by
  refine ⟨fun {site σ ss σ'} h _ => ?_⟩
  obtain ⟨rfl, rfl⟩ := pure_ok.mp h
  exact .refl fun _ _ _ => trivial

theorem checksAll_cons {act : Check (Option Stmt)} {rest : Check (List Stmt)} (hact : Checks act) (hrest : ChecksAll rest) :
    ChecksAll (do
      let (pending, result) ← collecting act
      let rest ← rest
      return pending ++ result.toList ++ rest) := by
  refine ⟨fun {site σ ss σ'} h hready => ?_⟩
  obtain ⟨⟨pending, r⟩, σ₁, hcollect, h⟩ := bind_ok.mp h
  obtain ⟨ss', σ₂, hrun, hpure⟩ := bind_ok.mp h
  obtain ⟨rfl, rfl⟩ := pure_ok.mp hpure
  obtain ⟨σ₃, hrunAct, hpending, rfl⟩ := collecting_ok hcollect
  obtain ⟨qs, hstep, -⟩ := hact.run hrunAct ⟨hready.strict, hready.written, hready.previous, hready.missing⟩
  obtain ⟨hqs, hstep'⟩ := hstep.collected
  obtain rfl : qs = pending := hqs.symm.trans hpending.symm
  have hall := hstep'.seq ((hrest.run hrun (hstep'.ready hready)).pre fun _ _ _ => trivial)
  have hkeys : (qs.flatMap Stmt.keys ++ r.toList.flatMap Stmt.keys) ++ ss'.flatMap Stmt.keys =
      (qs ++ r.toList ++ ss').flatMap Stmt.keys := by rw [List.flatMap_append, List.flatMap_append]
  have hdeclares : (fun env => declaresAll env ss' ++ (declaresAll env r.toList ++ declaresAll env qs)) =
      fun env => declaresAll env (qs ++ r.toList ++ ss') := by
    funext env
    rw [Stmt.declaresAll_append, Stmt.declaresAll_append]
  rw [← hkeys, ← hdeclares]
  refine hall.post fun env p ⟨⟨hvalid, hr⟩, hss⟩ => ?_
  rw [Stmt.everywhereAll_append, Stmt.everywhereAll_append, Stmt.declaresAll_append]
  exact ⟨⟨hvalid, hr⟩, hss⟩

/-- A check of the arms of a branch. -/
structure ChecksArms (act : Check (List (Expr × Stmt))) : Prop where
  run : ∀ {site σ arms σ'}, act site σ = .ok (arms, σ') → Ready site σ → site.function.isSome →
    ∃ qs, Step (fun _ _ => True) site σ σ' qs ((arms.map (·.2)).flatMap Stmt.keys) (fun _ => [])
      fun env p => Stmt.AreConditions p arms ∧ EverywhereArms env Node.Valid p arms

theorem checksArms_nil : ChecksArms (pure []) := by
  refine ⟨fun {site σ ss σ'} h _ _ => ⟨[], ?_⟩⟩
  obtain ⟨rfl, rfl⟩ := pure_ok.mp h
  exact .refl fun _ _ _ => ⟨fun a ha => (by cases ha), trivial⟩

theorem checksArms_cons {c : Expr} {act : Check (Option Stmt)} {rest : Check (List (Expr × Stmt))} {span : Span}
    (hc : c.Written) (hact : Checks act) (hrest : ChecksArms rest) : ChecksArms (do
      let c ← expression c
      requireBool "if" c
      let s ← nestedScoped span act
      return (c, s) :: (← rest)) := by
  have hcond : Delivers (fun _ => True) (do
      let c ← expression c
      requireBool "if" c
      pure c) fun p e => e.type.isBool ∧ e.Checked p := by
    refine .bind (delivers_expression c hc) fun e => ?_
    refine .bind (delivers_requireBool _ fun p hp => hp.2) fun _ => ?_
    exact .pure fun p hp => ⟨hp.2, hp.1.2⟩
  refine ⟨fun {site σ arms σ'} h hready hfunction => ?_⟩
  obtain ⟨c', σ₁, hrunCond, h⟩ := bind_ok.mp h
  obtain ⟨u, σ₂, hrunBool, h⟩ := bind_ok.mp h
  obtain ⟨s, σ₃, hrunBody, h⟩ := bind_ok.mp h
  obtain ⟨arms', σ₄, hrunRest, hpure⟩ := bind_ok.mp h
  obtain ⟨rfl, rfl⟩ := pure_ok.mp hpure
  have hrunBoth : (do
      let c ← expression c
      requireBool "if" c
      pure c : Check Expr) site σ = .ok (c', σ₂) :=
    bind_ok.mpr ⟨c', σ₁, hrunCond, bind_ok.mpr ⟨u, σ₂, hrunBool, pure_ok.mpr ⟨rfl, rfl⟩⟩⟩
  obtain ⟨qs, hstepCond, -⟩ := Step.of_delivers (P := fun _ _ => True) hcond hrunBoth fun _ _ _ => trivial
  have hstepBody := nestedScoped_ok hact hrunBody (hstepCond.ready hready) hfunction (fun _ => []) fun _ => List.nil_subset _
  obtain ⟨rs, hstepRest⟩ := hrest.run hrunRest (hstepBody.ready (hstepCond.ready hready)) hfunction
  have hall := hstepCond.trans ((hstepBody.pre fun _ _ _ => trivial).trans (hstepRest.pre fun _ _ _ => trivial))
  refine ⟨qs ++ ([] ++ rs), hall.post fun env p ⟨hc, hs, hconds, harms⟩ => ⟨?_, hs, harms⟩⟩
  exact List.forall_mem_cons.mpr ⟨hc, hconds⟩

/-- A check of the bodies of a branch. -/
structure ChecksBodies (act : Check (List Stmt)) (n : Nat) : Prop where
  run : ∀ {site σ ss σ'}, act site σ = .ok (ss, σ') → Ready site σ → site.function.isSome →
    ss.length = n ∧ Step (fun _ _ => True) site σ σ' [] (ss.flatMap Stmt.keys) (fun _ => [])
      fun env p => ∀ s ∈ ss, Everywhere env Node.Valid p s

theorem checksBodies_nil : ChecksBodies (pure []) 0 := by
  refine ⟨fun {site σ ss σ'} h _ _ => ?_⟩
  obtain ⟨rfl, rfl⟩ := pure_ok.mp h
  exact ⟨rfl, .refl fun _ _ _ s hs => (by cases hs)⟩

theorem checksBodies_cons {act : Check (Option Stmt)} {rest : Check (List Stmt)} {span : Span} {n : Nat}
    (hact : Checks act) (hrest : ChecksBodies rest n) : ChecksBodies (do
      let s ← nestedScoped span act
      return s :: (← rest)) (n + 1) := by
  refine ⟨fun {site σ ss σ'} h hready hfunction => ?_⟩
  obtain ⟨s, σ₁, hrunBody, h⟩ := bind_ok.mp h
  obtain ⟨ss', σ₂, hrunRest, hpure⟩ := bind_ok.mp h
  obtain ⟨rfl, rfl⟩ := pure_ok.mp hpure
  have hstepBody := nestedScoped_ok hact hrunBody hready hfunction (fun _ => []) fun _ => List.nil_subset _
  obtain ⟨hlength, hstepRest⟩ := hrest.run hrunRest (hstepBody.ready hready) hfunction
  have hall := hstepBody.trans (hstepRest.pre fun _ _ _ => trivial)
  exact ⟨by rw [List.length_cons, hlength], hall.post fun _ _ hp => List.forall_mem_cons.mpr hp⟩

/-- The statement for the case that no condition holds. -/
theorem otherwise_ok {act : Check (Option Stmt)} {span : Span} {other out : Stmt} (hact : Checks act)
    (hready : Ready site σ) (hfunction : site.function.isSome)
    (h : unlessAbsent other (nestedScoped span act) site σ = .ok (out, σ')) :
    Step (fun _ _ => True) site σ σ' [] out.keys (fun _ => []) fun env p => Everywhere env Node.Valid p out := by
  unfold unlessAbsent at h
  split at h
  · obtain ⟨rfl, rfl⟩ := pure_ok.mp h
    exact .refl fun _ _ _ => trivial
  · exact nestedScoped_ok hact h hready hfunction (fun _ => []) fun _ => List.nil_subset _

theorem checks_branch {arms : Check (List (Expr × Stmt))} {act : Check (Option Stmt)} {span otherSpan : Span} {other : Stmt}
    (harms : ChecksArms arms) (hact : Checks act) : Checks (do
      let _ ← requireFunction span
      let arms ← arms
      let otherwise ← unlessAbsent other (nestedScoped otherSpan act)
      if (← read).settings.splitBranches then return some (.splitBranch span false arms otherwise)
      return some (.branch span false arms otherwise)) := by
  refine .inFunction fun {site σ r σ' f} hrun hready hfunction => ?_
  have hsome : site.function.isSome := by rw [hfunction]; rfl
  obtain ⟨arms', σ₁, hrunArms, hrun⟩ := bind_ok.mp hrun
  obtain ⟨out, σ₂, hrunOther, hrun⟩ := bind_ok.mp hrun
  obtain ⟨s, σ₃, hs, hlast⟩ := bind_ok.mp hrun
  obtain ⟨rfl, rfl⟩ := read_ok.mp hs
  obtain ⟨qs, hstepArms⟩ := harms.run hrunArms hready hsome
  have hstepOther := otherwise_ok hact (hstepArms.ready hready) hsome hrunOther
  have hall := hstepArms.trans (hstepOther.pre fun _ _ _ => trivial)
  split at hlast
  · obtain ⟨rfl, rfl⟩ := pure_ok.mp hlast
    have hpost := hall.post fun env p hp => Stmt.everywhere_splitBranch span false hp.1.1 hp.1.2 hp.2
    refine ⟨_, hpost.one ?_ fun env => (Stmt.declares_splitBranch _ _ _ _).symm⟩
    rw [Stmt.keys_splitBranch]
  · obtain ⟨rfl, rfl⟩ := pure_ok.mp hlast
    have hpost : Step _ _ _ _ _ _ _ fun env p => Everywhere env Node.Valid p (.branch span false arms' out) :=
      hall.post fun env p hp => ⟨hp.1.1.here _ _ _, hp.1.2, hp.2⟩
    refine ⟨_, hpost.one ?_ fun env => rfl⟩
    rw [Stmt.keys_branch]

theorem everywhereArms_zip {env : Surroundings} {p : Place} (cs : List Expr) {ss : List Stmt}
    (h : ∀ s ∈ ss, Everywhere env Node.Valid p s) : EverywhereArms env Node.Valid p (cs.zip ss) := by
  induction cs generalizing ss with
  | nil => exact trivial
  | cons c cs ih =>
    cases ss with
    | nil => exact trivial
    | cons s ss =>
      rw [List.forall_mem_cons] at h
      exact ⟨h.1, ih h.2⟩

/-- A branch whose conditions are constant. The arm whose condition holds takes its place if all of them are
known. -/
theorem checks_constantBranch {arms : List (Expr × Stmt)} {bodies : Check (List Stmt)} {selected : Nat → Check (Option Stmt)}
    {act : Check (Option Stmt)} {span otherSpan : Span} {other : Stmt} (harms : ∀ a ∈ arms, a.1.Written)
    (hbodies : ChecksBodies bodies arms.length)
    (hselected : ∀ n {site σ r σ'}, selected n site σ = .ok (r, σ') → Ready site σ → site.function.isSome →
      Step (fun _ _ => True) site σ σ' [] (r.toList.flatMap Stmt.keys) (fun env => declaresAll env r.toList)
        fun env p => EverywhereAll env Node.Valid p r.toList) (hact : Checks act) : Checks (do
      let _ ← requireFunction span
      let conds ← constantConditions arms
      match selectedArm? (conds.map (·.2)) with
      | some n =>
        if n < arms.length then selected n
        else if other.isAbsent then return none
        else return some (← nestedScoped otherSpan act)
      | none => withReader unknownSite do
        let bodies ← bodies
        let otherwise ← unlessAbsent other (nestedScoped otherSpan act)
        return some (.branch span true ((conds.map (·.1)).zip bodies) otherwise)) := by
  refine .inFunction fun {site σ r σ' f} hrun hready hfunction => ?_
  have hsome : site.function.isSome := by rw [hfunction]; rfl
  obtain ⟨conds, σ₁, hrunConds, hrun⟩ := bind_ok.mp hrun
  obtain ⟨qs, hstepConds, -⟩ := Step.of_delivers (P := fun _ _ => True)
    (delivers_constantConditions (P := fun _ => True) arms harms) hrunConds fun _ _ _ => trivial
  have hready₁ := hstepConds.ready hready
  cases hn : selectedArm? (conds.map (·.2)) with
  | some n =>
    simp only [hn] at hrun
    split at hrun
    · have hall := hstepConds.trans ((hselected n hrun hready₁ hsome).pre fun _ _ _ => trivial)
      exact ⟨_, hall.post fun _ _ hp => hp.2⟩
    split at hrun
    · obtain ⟨rfl, rfl⟩ := pure_ok.mp hrun
      exact ⟨_, hstepConds.post fun _ _ _ => trivial⟩
    · obtain ⟨out, σ₂, hrunOther, hpure⟩ := bind_ok.mp hrun
      obtain ⟨rfl, rfl⟩ := pure_ok.mp hpure
      have hstepOther := nestedScoped_ok hact hrunOther hready₁ hsome (fun env => out.declares env)
        fun env => List.Subset.refl _
      have hall := hstepConds.trans (hstepOther.pre fun _ _ _ => trivial)
      exact ⟨_, (hall.post fun _ _ hp => hp.2).one (List.Perm.refl _) fun _ => rfl⟩
  | none =>
    simp only [hn] at hrun
    have hrun' := withReader_ok.mp hrun
    obtain ⟨ss, σ₂, hrunBodies, hrun'⟩ := bind_ok.mp hrun'
    obtain ⟨out, σ₃, hrunOther, hpure⟩ := bind_ok.mp hrun'
    obtain ⟨rfl, rfl⟩ := pure_ok.mp hpure
    obtain ⟨hlength, hstepBodies⟩ := hbodies.run hrunBodies (hready₁.move rfl) hsome
    have hstepOther := otherwise_ok hact (hstepBodies.ready (hready₁.move rfl)) hsome hrunOther
    have hinside : Step (fun _ _ => True) site σ₁ _ [] _ (fun _ => []) _ :=
      (hstepBodies.trans (hstepOther.pre fun _ _ _ => trivial)).move rfl rfl
    have hall := hstepConds.trans (hinside.pre fun _ _ _ => trivial)
    have hzip : (((conds.map (·.1)).zip ss).map (·.2)) = ss := by
      refine List.map_snd_zip ?_
      exact Nat.le_of_eq (by rw [List.length_map, length_constantConditions hrunConds, hlength])
    refine ⟨_, (hall.post fun env p hp => ?_).one ?_ fun env => rfl⟩
    · obtain ⟨hconds, hbodies, hother⟩ := hp
      refine ⟨Stmt.AreConditions.here (fun a ha => ?_) _ _ _, everywhereArms_zip _ hbodies, hother⟩
      obtain ⟨x, hx, heq⟩ := List.mem_map.mp (List.of_mem_zip (a := a.1) (b := a.2) ha).1
      rw [← heq]
      exact hconds x hx
    · rw [Stmt.keys_branch, hzip]
      exact List.Perm.refl _

/-- A statement under a constant condition. It takes the place of both if the condition is known to hold. -/
theorem checks_conditional {act : Check (Option Stmt)} {span : Span} {cond : Expr} (hcond : cond.Written)
    (hact : Checks act) : Checks (do
      let cond ← expression cond
      match ← constantCondition cond with
      | some true => act
      | some false => return none
      | none =>
        let body ← withReader unknownSite act
        return body.map (.conditional span cond)) := by
  refine ⟨fun {site σ r σ'} hrun hready => ?_⟩
  obtain ⟨cond', σ₁, hrunCond, hrun⟩ := bind_ok.mp hrun
  obtain ⟨known, σ₂, hrunKnown, hrun⟩ := bind_ok.mp hrun
  obtain ⟨qs, hstepCond, hnone⟩ := Step.of_delivers (P := fun _ _ => True)
    (delivers_expression (P := fun _ => True) cond hcond) hrunCond fun _ _ _ => trivial
  obtain ⟨rs, hstepKnown, hnone'⟩ := Step.of_delivers (P := fun _ p => True ∧ cond'.Checked p)
    (delivers_constantCondition (P := fun p => cond'.Checked p) fun _ hp => hp) hrunKnown fun _ _ hp => hp.2
  have hstep := hstepCond.trans hstepKnown
  have hready₂ := hstep.ready hready
  have hempty : site.function = none → qs ++ rs = [] := fun h => by rw [hnone h, hnone' h]; rfl
  match known, hrun with
  | some true, hrun =>
    obtain ⟨ts, hstepBody, hts⟩ := hact.run hrun hready₂
    have hall := hstep.trans (hstepBody.pre fun _ _ _ => trivial)
    exact ⟨_, hall.post fun _ _ hp => hp.2, fun h => by rw [hempty h, hts h]; rfl⟩
  | some false, hrun =>
    obtain ⟨rfl, rfl⟩ := pure_ok.mp hrun
    exact ⟨_, hstep.post fun _ _ _ => trivial, hempty⟩
  | none, hrun =>
    obtain ⟨body, σ₃, hrunBody, hpure⟩ := bind_ok.mp hrun
    obtain ⟨rfl, rfl⟩ := pure_ok.mp hpure
    obtain ⟨ts, hstepBody, hts⟩ := hact.run (withReader_ok.mp hrunBody) (hready₂.move rfl)
    have hmoved : Step (fun _ _ => True) site σ₂ _ ts _ _ _ := hstepBody.move rfl rfl
    have hall := hstep.trans (hmoved.pre fun _ _ _ => trivial)
    have hnil : site.function = none → qs ++ rs ++ ts = [] := fun h => by rw [hempty h, hts h]; rfl
    cases body with
    | none => exact ⟨_, hall.post fun _ _ _ => trivial, hnil⟩
    | some body =>
      have hkeys : (Stmt.conditional span cond' body).keys = [body].flatMap Stmt.keys := by rw [Stmt.keys_eq]; rfl
      refine ⟨_, (hall.post fun env p hp => ?_).one ?_ fun _ => rfl, hnil⟩
      · obtain ⟨⟨hchecked, hbool⟩, hbody, -⟩ := hp
        refine ⟨⟨hbool, fun e he => ?_⟩, hbody⟩
        rw [List.mem_singleton.mp he]
        exact fun n hn => hchecked.of_mem_nodes hn
      · rw [hkeys]
        exact List.Perm.refl _

mutual

/-- A statement that is checked keeps to the rules. -/
theorem checks_statement {load : Loader} (hload : Loads load) (s : Stmt) (hs : s.Written) : Checks (statement load s) := by
  cases s with
  | absent =>
    refine ⟨fun h _ => ?_⟩
    obtain ⟨f, σ₁, -, hrest⟩ := bind_ok.mp h
    exact (reject_ok.mp hrest).elim
  | importFrom span name items =>
    refine ⟨fun {site σ r σ'} h hready => ⟨[], ?_, fun _ => rfl⟩⟩
    obtain ⟨u, σ₁, hrun, hpure⟩ := bind_ok.mp h
    obtain ⟨rfl, rfl⟩ := pure_ok.mp hpure
    have hstep := importSymbols_ok hload hrun hready
    refine (hstep.post fun env p _ => ?_).one ?_ fun _ => rfl
    · exact ⟨trivial, fun e he => (by cases he)⟩
    · rw [Stmt.keys_eq]
      exact List.Perm.refl _
  | option span d =>
    exact .of_makes (f := Stmt.option span) (makes_declareOption span d hs) (fun d => by rw [Stmt.keys_eq]; rfl)
      (fun _ _ => rfl) fun _ _ _ h => h
  | const span d =>
    exact .of_makes (f := Stmt.const span) (makes_declareConst span d hs) (fun d => by rw [Stmt.keys_eq]; rfl)
      (fun _ _ => rfl) fun _ _ _ h => h
  | «alias» span d =>
    exact .of_makes (f := Stmt.alias span) (makes_declareAlias span d hs) (fun d => by rw [Stmt.keys_eq]; rfl)
      (fun _ _ => rfl) fun _ _ _ h => h
  | struct span d =>
    exact .of_makes (f := Stmt.struct span) (makes_declareStruct span d hs) (fun d => by rw [Stmt.keys_eq]; rfl)
      (fun _ _ => rfl) fun _ _ _ h => h
  | external span set vars =>
    refine .of_makes (f := fun r => Stmt.external span r.1 r.2) (makes_declareExternals span set vars hs) (fun r => ?_)
      (fun _ _ => rfl) fun _ _ _ h => h
    rw [Stmt.keys_eq]
    simp [Stmt.own, Stmt.children]
  | function span h body =>
    exact checks_function (checksAll_statements hload body fun s hmem => hs.child (by simpa [Stmt.children] using hmem)) hs
  | conditional span c body =>
    have hbody := checks_statement hload body (hs.child (by simp [Stmt.children]))
    exact checks_conditional (hs.expr (by simp [Stmt.ownExprs])) hbody
  | multi span body =>
    refine ⟨fun {site σ r σ'} h hready => ⟨[], ?_, fun _ => rfl⟩⟩
    obtain ⟨ss, σ₁, hrun, hpure⟩ := bind_ok.mp h
    obtain ⟨rfl, rfl⟩ := pure_ok.mp hpure
    have hbody := checksAll_statements hload body fun s hmem => hs.child (by simpa [Stmt.children] using hmem)
    refine ((hbody.run hrun hready).post fun env p hp => ?_).one ?_ fun _ => rfl
    · exact ⟨⟨trivial, fun e he => (by cases he)⟩, hp⟩
    · rw [Stmt.keys_eq]
      exact List.Perm.refl _
  | noOp span =>
    refine .of_delivers (f := fun _ : Unit => Stmt.noOp span) (x := pure ()) (Q := fun _ _ => True)
      (.pure fun _ _ => trivial) (fun _ => by rw [Stmt.keys_eq]; rfl) (fun _ _ => rfl) fun _ _ _ _ => ?_
    exact ⟨trivial, fun e he => (by cases he)⟩
  | «scoped» span body =>
    refine .inFunction fun {site σ r σ' f} h hready hfunction => ⟨[], ?_⟩
    obtain ⟨out, σ₁, hrun, hpure⟩ := bind_ok.mp h
    obtain ⟨rfl, rfl⟩ := pure_ok.mp hpure
    have hbody := checks_statement hload body (hs.child (by simp [Stmt.children]))
    have hstep := nestedScoped_ok hbody hrun hready (by rw [hfunction]; rfl) (fun _ => []) fun _ => List.nil_subset _
    refine (hstep.post fun env p hp => ?_).one ?_ fun _ => rfl
    · exact ⟨⟨trivial, fun e he => (by cases he)⟩, hp⟩
    · rw [Stmt.keys_eq (.scoped span out)]
      simp [Stmt.own, Stmt.children]
  | expr span e =>
    refine .guarded fun _ => .of_delivers (f := Stmt.expr span) (delivers_expression e (hs.expr (by simp [Stmt.ownExprs])))
      (fun _ => by rw [Stmt.keys_eq]; rfl) (fun _ _ => rfl) fun _ _ e' he' => ⟨trivial, fun c hc => ?_⟩
    rw [List.mem_singleton.mp hc]
    exact fun n hn => he'.of_mem_nodes hn
  | letVar span d =>
    exact .guarded fun _ => .of_makes (f := Stmt.letVar span) (makes_declareVariable span d hs)
      (fun d => by rw [Stmt.keys_eq]; rfl) (fun _ _ => rfl) fun _ _ _ h => h
  | branch span isConst arms other =>
    have harms : ∀ a ∈ arms, a.1.Written ∧ a.2.Written := fun a ha =>
      ⟨hs.expr (by simp only [Stmt.ownExprs]; exact List.mem_map_of_mem ha),
        hs.child (List.mem_append_left _ (List.mem_map_of_mem ha))⟩
    have hother : other.Written := hs.child (by simp [Stmt.children])
    cases isConst with
    | false => exact checks_branch (checksArms_branchArms hload arms harms) (checks_statement hload other hother)
    | true =>
      have hbodies : ∀ a ∈ arms, a.2.Written := fun a ha => (harms a ha).2
      exact checks_constantBranch (fun a ha => (harms a ha).1) (checksBodies_armBodies hload arms hbodies)
        (fun n _ _ _ _ h hready hfunction => selectedBody_ok hload n arms hbodies h hready hfunction)
        (checks_statement hload other hother)
  | loop span c u body => exact checks_loop (checks_statement hload body (hs.child (by simp [Stmt.children]))) hs
  | forRange span h body => exact checks_forRange (checks_statement hload body (hs.child (by simp [Stmt.children]))) hs
  | forEach span h body => exact checks_forEach (checks_statement hload body (hs.child (by simp [Stmt.children]))) hs
  | returnWith span e =>
    have hx : Delivers (fun _ => True) (requireFunction span >>= fun f => returned span f e) fun p e =>
        Stmt.Here Node.Valid p (.returnWith span e) :=
      .bind (delivers_requireFunction span) fun f =>
        delivers_returned span e (hs.expr (by simp [Stmt.ownExprs])) fun p hp => hp.2
    show Checks (requireFunction span >>= fun f => returned span f e >>= fun e => pure (some (.returnWith span e)))
    rw [← bind_assoc]
    exact .of_delivers (f := Stmt.returnWith span) hx (fun _ => by rw [Stmt.keys_eq]; rfl) (fun _ _ => rfl) fun _ _ _ h => h
  | discard span =>
    refine .of_delivers (f := fun _ => Stmt.discard span) (delivers_requireFunction span)
      (fun _ => by rw [Stmt.keys_eq]; rfl) (fun _ _ => rfl) fun _ _ _ _ => ?_
    exact ⟨trivial, fun e he => (by cases he)⟩
  | breakLoop span =>
    refine .guarded fun _ => .of_delivers (f := fun _ => Stmt.breakLoop span) (.of_reads_only (reads_requireLoop span _))
      (fun _ => by rw [Stmt.keys_eq]; rfl) (fun _ _ => rfl) fun _ _ _ _ => ?_
    exact ⟨trivial, fun e he => (by cases he)⟩
  | continueLoop span =>
    refine .guarded fun _ => .of_delivers (f := fun _ => Stmt.continueLoop span) (.of_reads_only (reads_requireLoop span _))
      (fun _ => by rw [Stmt.keys_eq]; rfl) (fun _ _ => rfl) fun _ _ _ _ => ?_
    exact ⟨trivial, fun e he => (by cases he)⟩

theorem checksAll_statements {load : Loader} (hload : Loads load) (ss : List Stmt) (hss : ∀ s ∈ ss, s.Written) :
    ChecksAll (statements load ss) := by
  cases ss with
  | nil => exact checksAll_nil
  | cons s ss =>
    rw [List.forall_mem_cons] at hss
    exact checksAll_cons (checks_statement hload s hss.1) (checksAll_statements hload ss hss.2)

theorem checksArms_branchArms {load : Loader} (hload : Loads load) (arms : List (Expr × Stmt))
    (harms : ∀ a ∈ arms, a.1.Written ∧ a.2.Written) : ChecksArms (branchArms load arms) := by
  match arms with
  | [] => exact checksArms_nil
  | (c, s) :: arms =>
    rw [List.forall_mem_cons] at harms
    exact checksArms_cons harms.1.1 (checks_statement hload s harms.1.2) (checksArms_branchArms hload arms harms.2)

theorem checksBodies_armBodies {load : Loader} (hload : Loads load) (arms : List (Expr × Stmt))
    (harms : ∀ a ∈ arms, a.2.Written) : ChecksBodies (armBodies load arms) arms.length := by
  match arms with
  | [] => exact checksBodies_nil
  | (c, s) :: arms =>
    rw [List.forall_mem_cons] at harms
    exact checksBodies_cons (checks_statement hload s harms.1) (checksBodies_armBodies hload arms harms.2)

theorem selectedBody_ok {load : Loader} (hload : Loads load) (n : Nat) (arms : List (Expr × Stmt))
    (harms : ∀ a ∈ arms, a.2.Written) {site : Site} {σ σ' : State} {r : Option Stmt}
    (h : selectedBody load n arms site σ = .ok (r, σ')) (hready : Ready site σ) (hfunction : site.function.isSome) :
    Step (fun _ _ => True) site σ σ' [] (r.toList.flatMap Stmt.keys) (fun env => declaresAll env r.toList)
      fun env p => EverywhereAll env Node.Valid p r.toList := by
  match n, arms with
  | _, [] =>
    rw [selectedBody] at h
    obtain ⟨rfl, rfl⟩ := pure_ok.mp h
    exact .refl fun _ _ _ => trivial
  | 0, (c, s) :: arms =>
    rw [List.forall_mem_cons] at harms
    rw [selectedBody] at h
    obtain ⟨out, σ₁, hrun, hpure⟩ := bind_ok.mp h
    obtain ⟨rfl, rfl⟩ := pure_ok.mp hpure
    have hstep := nestedScoped_ok (checks_statement hload s harms.1) hrun hready hfunction (fun env => out.declares env)
      fun env => List.Subset.refl _
    exact hstep.one (List.Perm.refl _) fun _ => rfl
  | n + 1, (c, s) :: arms =>
    rw [List.forall_mem_cons] at harms
    rw [selectedBody] at h
    exact selectedBody_ok hload n arms harms.2 h hready hfunction

end

end Shading.Check
