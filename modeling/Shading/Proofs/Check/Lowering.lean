import Shading.Lowering
import Shading.Proofs.Check.Conversion
import Shading.Proofs.Module.Comparison

/-! Lowered statements. They keep to the rules of typing where the statements that they replace do, and
declare the same variables and some temporary ones. -/
namespace Shading

namespace Stmt

variable {env : Surroundings} {p : Place}

@[simp] theorem keys_block (span : Span) (body : List Stmt) : (block span body).keys = body.flatMap keys := by
  simp [block, keys_eq (.scoped _ _), keys_eq (.multi _ _), own, children]

theorem everywhere_block {span : Span} {body : List Stmt} (h : EverywhereAll env Node.Valid p body) :
    Everywhere env Node.Valid p (block span body) :=
  ⟨⟨trivial, fun e he => (by cases he)⟩, ⟨trivial, fun e he => (by cases he)⟩, h⟩

theorem keys_branch (span : Span) (isConst : Bool) (arms : List (Expr × Stmt)) (other : Stmt) :
    (Stmt.branch span isConst arms other).keys = (arms.map (·.2)).flatMap keys ++ other.keys := by
  simp [keys_eq (.branch _ _ _ _), own, children]

theorem keys_splitRest (other : Stmt) (arms : List (Expr × Stmt)) :
    (splitRest other arms).keys = (arms.map (·.2)).flatMap keys ++ other.keys := by
  induction arms with
  | nil => rfl
  | cons a arms ih =>
    obtain ⟨c, s⟩ := a
    rw [splitRest, keys_branch, ih]
    simp

theorem keys_splitBranch (span : Span) (isConst : Bool) (arms : List (Expr × Stmt)) (other : Stmt) :
    (splitBranch span isConst arms other).keys = (arms.map (·.2)).flatMap keys ++ other.keys := by
  unfold splitBranch
  split
  · exact keys_branch _ _ _ _
  · exact keys_branch _ _ _ _
  · rw [keys_branch, keys_splitRest]
    simp

theorem declares_splitBranch (span : Span) (isConst : Bool) (arms : List (Expr × Stmt)) (other : Stmt) :
    (splitBranch span isConst arms other).declares env = [] := by
  unfold splitBranch
  split <;> rfl

/-- Conditions of branches are truth values. -/
def AreConditions (p : Place) (arms : List (Expr × Stmt)) : Prop := ∀ a ∈ arms, a.1.type.isBool ∧ a.1.Checked p

theorem AreConditions.here {arms : List (Expr × Stmt)} (h : AreConditions p arms) (span : Span) (isConst : Bool)
    (other : Stmt) : Here Node.Valid p (.branch span isConst arms other) := by
  refine ⟨fun a ha => (h a ha).1, fun e he => ?_⟩
  obtain ⟨a, ha, rfl⟩ := List.mem_map.mp he
  exact fun n hn => (h a ha).2.of_mem_nodes hn

theorem everywhere_splitRest {arms : List (Expr × Stmt)} {other : Stmt} (hconds : AreConditions p arms)
    (harms : EverywhereArms env Node.Valid p arms) (hother : Everywhere env Node.Valid p other) :
    Everywhere env Node.Valid p (splitRest other arms) := by
  induction arms with
  | nil => exact hother
  | cons a arms ih =>
    obtain ⟨c, s⟩ := a
    rw [AreConditions, List.forall_mem_cons] at hconds
    exact ⟨AreConditions.here (List.forall_mem_singleton.mpr hconds.1) _ _ _, ⟨harms.1, trivial⟩,
      ih hconds.2 harms.2⟩

theorem everywhere_splitBranch {arms : List (Expr × Stmt)} {other : Stmt} (span : Span) (isConst : Bool)
    (hconds : AreConditions p arms) (harms : EverywhereArms env Node.Valid p arms)
    (hother : Everywhere env Node.Valid p other) : Everywhere env Node.Valid p (splitBranch span isConst arms other) := by
  unfold splitBranch
  split
  · exact ⟨hconds.here _ _ _, harms, hother⟩
  · exact ⟨hconds.here _ _ _, harms, hother⟩
  · rename_i a rest _
    obtain ⟨c, s⟩ := a
    rw [AreConditions, List.forall_mem_cons] at hconds
    exact ⟨AreConditions.here (List.forall_mem_singleton.mpr hconds.1) _ _ _, ⟨harms.1, trivial⟩,
      everywhere_splitRest hconds.2 harms.2 hother⟩

section

variable {inc : Stmt}

mutual

theorem declares_beforeContinue (inc : Stmt) (s : Stmt) : (beforeContinue inc s).declares env = s.declares env := by
  cases s with
  | multi span body => exact declaresAll_beforeContinue inc body
  | conditional span c body => exact declares_beforeContinue inc body
  | _ => rfl

theorem declaresAll_beforeContinue (inc : Stmt) (ss : List Stmt) :
    declaresAll env (beforeContinueAll inc ss) = declaresAll env ss := by
  cases ss with
  | nil => rfl
  | cons s ss =>
    rw [beforeContinueAll, declaresAll, declaresAll, declares_beforeContinue inc s, declaresAll_beforeContinue inc ss]

end

mutual

/-- A statement that declares nothing adds no numbers. -/
theorem keys_beforeContinue (hinc : inc.keys = []) (s : Stmt) : (beforeContinue inc s).keys = s.keys := by
  cases s with
  | continueLoop span =>
    rw [beforeContinue, keys_block]
    simp [hinc]
  | multi span body =>
    rw [beforeContinue, keys_eq, keys_eq (.multi span body)]
    simp [own, children, keysAll_beforeContinue hinc body]
  | «scoped» span body =>
    rw [beforeContinue, keys_eq, keys_eq (.scoped span body)]
    simp [own, children, keys_beforeContinue hinc body]
  | branch span isConst arms other =>
    rw [beforeContinue, keys_branch, keys_branch, keysArms_beforeContinue hinc arms, keys_beforeContinue hinc other]
  | conditional span c body =>
    rw [beforeContinue, keys_eq, keys_eq (.conditional span c body)]
    simp [own, children, keys_beforeContinue hinc body]
  | _ => rfl

theorem keysAll_beforeContinue (hinc : inc.keys = []) (ss : List Stmt) :
    (beforeContinueAll inc ss).flatMap keys = ss.flatMap keys := by
  cases ss with
  | nil => rfl
  | cons s ss =>
    rw [beforeContinueAll, List.flatMap_cons, List.flatMap_cons, keys_beforeContinue hinc s,
      keysAll_beforeContinue hinc ss]

theorem keysArms_beforeContinue (hinc : inc.keys = []) (arms : List (Expr × Stmt)) :
    ((beforeContinueArms inc arms).map (·.2)).flatMap keys = (arms.map (·.2)).flatMap keys := by
  match arms with
  | [] => rfl
  | (c, s) :: arms =>
    rw [beforeContinueArms, List.map_cons, List.map_cons, List.flatMap_cons, List.flatMap_cons,
      keys_beforeContinue hinc s, keysArms_beforeContinue hinc arms]

end

theorem conditions_beforeContinue (inc : Stmt) (arms : List (Expr × Stmt)) :
    (beforeContinueArms inc arms).map (·.1) = arms.map (·.1) := by
  induction arms with
  | nil => rfl
  | cons a arms ih =>
    obtain ⟨c, s⟩ := a
    rw [beforeContinueArms, List.map_cons, List.map_cons, ih]

theorem here_beforeContinue {span : Span} {isConst : Bool} {arms : List (Expr × Stmt)} {other : Stmt}
    (h : Here Node.Valid p (.branch span isConst arms other)) (inc : Stmt) :
    Here Node.Valid p (.branch span isConst (beforeContinueArms inc arms) (beforeContinue inc other)) := by
  have hconds : ∀ e ∈ (beforeContinueArms inc arms).map (·.1), e.type.isBool ∧ ∀ n ∈ e.nodes, n.Valid p := by
    rw [conditions_beforeContinue]
    intro e he
    obtain ⟨a, ha, rfl⟩ := List.mem_map.mp he
    exact ⟨h.1 a ha, h.2 _ he⟩
  exact ⟨fun a ha => (hconds _ (List.mem_map_of_mem ha)).1, fun e he => (hconds e he).2⟩

mutual

/-- The statement is valid at every `continue`, where more can be referred to. -/
theorem Everywhere.beforeContinue {p : Place} (hinc : Everywhere env Node.Valid p inc) (s : Stmt)
    (h : Everywhere env Node.Valid p s) : Everywhere env Node.Valid p (beforeContinue inc s) := by
  cases s with
  | continueLoop span =>
    have hafter : p.Within (p.after (declares env inc)) := (Place.Within.refl p).after_right _
    exact everywhere_block ⟨hinc, Here.mono (fun hpq h => h.mono hpq) hafter h, trivial⟩
  | multi span body => exact ⟨⟨trivial, fun e he => (by cases he)⟩, EverywhereAll.beforeContinue hinc body h.2⟩
  | «scoped» span body => exact ⟨⟨trivial, fun e he => (by cases he)⟩, Everywhere.beforeContinue hinc body h.2⟩
  | branch span isConst arms other =>
    exact ⟨here_beforeContinue h.1 inc, EverywhereArms.beforeContinue hinc arms h.2.1,
      Everywhere.beforeContinue hinc other h.2.2⟩
  | conditional span c body => exact ⟨⟨h.1.1, h.1.2⟩, Everywhere.beforeContinue hinc body h.2⟩
  | _ => exact h

theorem EverywhereAll.beforeContinue {p : Place} (hinc : Everywhere env Node.Valid p inc) (ss : List Stmt)
    (h : EverywhereAll env Node.Valid p ss) : EverywhereAll env Node.Valid p (beforeContinueAll inc ss) := by
  cases ss with
  | nil => trivial
  | cons s ss =>
    refine ⟨Everywhere.beforeContinue hinc s h.1, ?_⟩
    rw [declares_beforeContinue]
    exact EverywhereAll.beforeContinue (hinc.moved ((Place.Within.refl p).after_right _)) ss h.2

theorem EverywhereArms.beforeContinue {p : Place} (hinc : Everywhere env Node.Valid p inc) (arms : List (Expr × Stmt))
    (h : EverywhereArms env Node.Valid p arms) : EverywhereArms env Node.Valid p (beforeContinueArms inc arms) := by
  match arms with
  | [] => trivial
  | (c, s) :: arms => exact ⟨Everywhere.beforeContinue hinc s h.1, EverywhereArms.beforeContinue hinc arms h.2⟩

end

end

end Stmt

/-- The head of a loop over a range: its bounds are integers of one type. -/
structure RangeHead.Checked (p : Place) (h : RangeHead) : Prop where
  start : h.start.Checked p
  counts : h.start.type = .prim .i32 ∨ h.start.type = .prim .u32
  stop : h.stop.Checked p
  stopType : h.stop.type = h.start.type
  step : h.step = .absent ∨ h.step.Checked p ∧ h.step.type = h.start.type
  unroll : h.unroll.expr = .absent

/-- The head of a loop over an array. -/
structure EachHead.Checked (p : Place) (h : EachHead) : Prop where
  array : h.array.Checked p
  arrayType : ∃ t n, h.array.type = .array t n
  unroll : h.unroll.expr = .absent

namespace Stmt

open Check (Lasts)

/-- Statements declare temporary variables, each with a number of its own. Where something is assumed inside a
function, they keep to the rules, and after them an expression of some type stands for a value. -/
structure Holds (s s' : Supply) (A : Place → Prop) (t : Ty) (decls : List Stmt) (e : Expr) : Prop where
  given : ∃ ids, Serial.Given s.nextVar ids s'.nextVar ∧ decls.flatMap keys = ids.map (Prod.mk .variable)
  valid : ∀ env p, p.function.isSome → A p → EverywhereAll env Node.Valid p decls ∧ e.type = t ∧
    Lasts (fun q => e.Checked q) (p.after (declaresAll env decls))

/-- An expression that may be evaluated again stands for itself. -/
theorem Holds.itself {A : Place → Prop} {t : Ty} {e : Expr} (s : Supply) (h : ∀ p, A p → e.Checked p ∧ e.type = t) :
    Holds s s A t [] e :=
  ⟨⟨[], .nil, rfl⟩, fun _ p _ hp => ⟨trivial, (h p hp).2, fun _ hq => (h p hp).1.mono hq⟩⟩

/-- The type of a variable inside a function. It is no structure. -/
theorem valid_ofType {p : Place} {t : Ty} (span : Span) (hproper : t.Proper) (ht : ∀ r, t ≠ .struct r)
    (hfunction : p.function.isSome) : Node.Valid p (.expr (.ofType span t)) := by
  refine ⟨hproper, ⟨rfl, fun r hr => (ht r hr).elim⟩, fun hnone => ?_⟩
  rw [hnone] at hfunction
  cases hfunction

theorem Holds.temp {A : Place → Prop} {t : Ty} {e : Expr} (what : Text) (s : Supply) (ht : ∀ r, t ≠ .struct r)
    (h : ∀ p, A p → e.Checked p ∧ e.type = t) :
    Holds s ((Supply.temp what t e).run s).2 A t [((Supply.temp what t e).run s).1.1]
      (.ofVar e.span ((Supply.temp what t e).run s).1.2 t) := by
  refine ⟨⟨[s.nextVar], .one _, ?_⟩, fun env p hfunction hp => ?_⟩
  · rw [List.flatMap_singleton]
    exact keys_letVar _ _
  · obtain ⟨he, rfl⟩ := h p hp
    have htype := valid_ofType e.span he.proper ht hfunction
    refine ⟨⟨everywhere_temp _ he htype (Ty.same_refl _), trivial⟩, rfl, fun q hq => ?_⟩
    exact .mk ⟨he.proper, hq.context List.mem_cons_self, trivial⟩ fun c hc => (by cases hc)

theorem Holds.hold {A : Place → Prop} {t : Ty} {e : Expr} (what : Text) (s : Supply) (ht : ∀ r, t ≠ .struct r)
    (h : ∀ p, A p → e.Checked p ∧ e.type = t) :
    Holds s ((Stmt.hold what t e).run s).2 A t ((Stmt.hold what t e).run s).1.1 ((Stmt.hold what t e).run s).1.2 := by
  unfold Stmt.hold
  split
  · exact .itself s h
  · exact .temp what s ht h

/-- The condition of a lowered loop. -/
theorem checked_lessThan {p : Place} {l r : Expr} {q : Primitive} (span : Span) (hq : q = .i32 ∨ q = .u32)
    (hl : l.Checked p) (hr : r.Checked p) (hlt : l.type = .prim q) (hrt : r.type = .prim q) :
    (lessThan span l r).Checked p := by
  refine .mk ⟨Ty.proper_bool, ?_, trivial⟩ fun c hc => ?_
  · show l.type.binary .lt r.type = .ok (.prim .bool)
    rw [hlt, hrt]
    rcases hq with rfl | rfl <;> rfl
  · simp only [lessThan, Expr.children, List.mem_cons, List.not_mem_nil, or_false] at hc
    rcases hc with rfl | rfl
    · exact hl
    · exact hr

theorem checked_ofVar {p : Place} {id : Int} {t : Ty} (span : Span) (ht : t.Proper) (h : .variable id t ∈ p.context) :
    (Expr.ofVar span id t).Checked p := .mk ⟨ht, h, trivial⟩ fun c hc => (by cases hc)

/-- The step of a lowered loop. -/
theorem everywhere_increment {env : Surroundings} {p : Place} {id : Int} {q : Primitive} {step : Expr} (span : Span)
    (hq : q = .i32 ∨ q = .u32) (hid : .variable id (.prim q) ∈ p.context) (hstep : step.Checked p)
    (htype : step.type = .prim q) : Everywhere env Node.Valid p (increment span id (.prim q) step) := by
  have hproper : (Ty.prim q).Proper := htype ▸ hstep.proper
  refine ⟨trivial, fun e he => ?_⟩
  rw [List.mem_singleton.mp he]
  have hassign : (Expr.assign ⟨span, .prim q⟩ .add (.ofVar span id (.prim q)) step).Checked p := by
    refine .mk ⟨hproper, ⟨rfl, .prim q, ?_, Ty.same_refl _⟩, trivial⟩ fun c hc => ?_
    · rw [htype]
      rcases hq with rfl | rfl <;> rfl
    · simp only [Expr.children, List.mem_cons, List.not_mem_nil, or_false] at hc
      rcases hc with rfl | rfl
      · exact checked_ofVar span hproper hid
      · exact hstep
  exact fun n hn => hassign.of_mem_nodes hn

/-- A loop with a condition that steps a counter. -/
theorem everywhere_loop {env : Surroundings} {p : Place} {id : Int} {q : Primitive} {stop step : Expr}
    {unroll : Attr Unroll} {body : Stmt} (span : Span) (before : List Stmt) (hq : q = .i32 ∨ q = .u32)
    (hid : .variable id (.prim q) ∈ p.context) (hstop : stop.Checked p) (hstopType : stop.type = .prim q)
    (hstep : step.Checked p) (hstepType : step.type = .prim q) (hunroll : unroll.expr = .absent)
    (hbefore : EverywhereAll env Node.Valid p before)
    (hbody : Everywhere env Node.Valid (p.after (declaresAll env before)) body) :
    Everywhere env Node.Valid p (.loop span (lessThan span (.ofVar span id (.prim q)) stop) unroll
      (block span (before ++ [beforeContinue (increment span id (.prim q) step) body,
        increment span id (.prim q) step]))) := by
  have hproper : (Ty.prim q).Proper := hstepType ▸ hstep.proper
  have hcond := checked_lessThan span hq (checked_ofVar span hproper hid) hstop rfl hstopType
  have hinc : Everywhere env Node.Valid p (increment span id (.prim q) step) :=
    everywhere_increment span hq hid hstep hstepType
  refine ⟨⟨rfl, fun e he => ?_⟩, everywhere_block ?_⟩
  · simp only [ownExprs, List.mem_cons, List.not_mem_nil, or_false] at he
    rcases he with rfl | rfl
    · rw [hunroll]
      exact fun n hn => (by cases hn)
    · exact fun n hn => hcond.of_mem_nodes hn
  · refine (everywhereAll_append _ _).mpr ⟨hbefore, Everywhere.beforeContinue ?_ body hbody, ?_, trivial⟩
    · exact hinc.moved ((Place.Within.refl p).after_right _)
    · exact hinc.moved (((Place.Within.refl p).after_right _).after_right _)

/-- What a lowering of a loop makes of it inside a function. It takes numbers for temporary variables. -/
structure Lowers (s s' : Supply) (id : Int) (body out : Stmt) (A : Surroundings → Place → Prop) : Prop where
  given : ∃ ids, Serial.Given s.nextVar ids s'.nextVar ∧
    out.keys.Perm (((.variable, id) :: body.keys) ++ ids.map (Prod.mk .variable))
  declares : ∀ env, out.declares env = []
  valid : ∀ env p, p.function.isSome → A env p → Everywhere env Node.Valid p out

theorem keys_increment (span : Span) (id : Int) (t : Ty) (step : Expr) : (increment span id t step).keys = [] := by
  rw [increment, keys_eq]
  rfl

theorem keys_loop (span : Span) (c : Expr) (u : Attr Unroll) (body : Stmt) : (Stmt.loop span c u body).keys = body.keys := by
  rw [keys_eq]
  simp [own, children]

theorem lowers_range {s s₁ s₂ : Supply} {q : Primitive} {stopDecl stepDecl : List Stmt} {stop step : Expr} (span : Span)
    (h : RangeHead) (body : Stmt)
    (hstop : Holds s s₁ (fun p => h.stop.Checked p ∧ h.stop.type = .prim q) (.prim q) stopDecl stop)
    (hstep : Holds s₁ s₂ (fun p => (q = .i32 ∨ q = .u32) ∧ (h.step = .absent ∨ h.step.Checked p ∧ h.step.type = .prim q))
      (.prim q) stepDecl step) :
    Lowers s s₂ h.id body (block span (.letVar span { name := h.name, init := h.start, id := h.id } ::
        stopDecl ++ stepDecl ++ [.loop span (lessThan span (.ofVar span h.id (.prim q)) stop) h.unroll
          (block span [beforeContinue (increment span h.id (.prim q) step) body,
            increment span h.id (.prim q) step])])) fun env p =>
      h.Checked p ∧ h.start.type = .prim q ∧ Everywhere env Node.Valid (p.after [h.declaration]) body := by
  obtain ⟨ids, hids, hkeys⟩ := hstop.given
  obtain ⟨ids', hids', hkeys'⟩ := hstep.given
  refine ⟨⟨ids ++ ids', hids.append hids', ?_⟩, fun _ => rfl, fun env p hfunction ⟨hh, htype, hbody⟩ =>
    everywhere_block ?_⟩
  · simp only [keys_block, List.cons_append, List.flatMap_cons, List.flatMap_append, List.flatMap_nil, keys_letVar, hkeys,
      hkeys', keys_loop, keys_beforeContinue (keys_increment _ _ _ _), keys_increment, List.append_nil, List.nil_append,
      List.map_append]
    exact (List.perm_append_comm).cons _
  · have hq : q = .i32 ∨ q = .u32 := by simpa [htype] using hh.counts
    have hcounter : .variable h.id (.prim q) = h.declaration := by rw [RangeHead.declaration, htype]
    have hstart : Everywhere env Node.Valid p (.letVar span { name := h.name, init := h.start, id := h.id }) := by
      refine ⟨.inl ⟨rfl, fun habsent => ?_⟩, fun e he => ?_⟩
      · have := hh.start.not_absent
        rw [show h.start = .absent from habsent] at this
        cases this
      · simp only [ownExprs, List.mem_cons, List.not_mem_nil, or_false] at he
        rcases he with rfl | rfl
        · exact fun n hn => (by cases hn)
        · exact fun n hn => hh.start.of_mem_nodes hn
    have hwithin : p.Within (p.after [h.declaration]) := (Place.Within.refl p).after_right _
    obtain ⟨hstopValid, hstopType, hstopChecked⟩ := hstop.valid env (p.after [h.declaration])
      hfunction ⟨hh.stop.mono hwithin, hh.stopType.trans htype⟩
    have hwithin' : (p.after [h.declaration]).Within ((p.after [h.declaration]).after (declaresAll env stopDecl)) :=
      (Place.Within.refl _).after_right _
    have hstepHead : h.step = .absent ∨
        h.step.Checked ((p.after [h.declaration]).after (declaresAll env stopDecl)) ∧ h.step.type = .prim q :=
      hh.step.imp_right fun hchecked => ⟨hchecked.1.mono (hwithin.trans hwithin'), hchecked.2.trans htype⟩
    obtain ⟨hstepValid, hstepType, hstepChecked⟩ :=
      hstep.valid env ((p.after [h.declaration]).after (declaresAll env stopDecl)) hfunction ⟨hq, hstepHead⟩
    refine ⟨hstart, ?_⟩
    show EverywhereAll env Node.Valid (p.after [h.declaration]) (stopDecl ++ stepDecl ++ [_])
    rw [List.append_assoc]
    refine (everywhereAll_append _ _).mpr ⟨hstopValid, (everywhereAll_append _ _).mpr ⟨hstepValid, ?_, trivial⟩⟩
    have hwithin₂ : ((p.after [h.declaration]).after (declaresAll env stopDecl)).Within
        (((p.after [h.declaration]).after (declaresAll env stopDecl)).after (declaresAll env stepDecl)) :=
      (Place.Within.refl _).after_right _
    refine everywhere_loop span [] hq ?_ (hstopChecked _ hwithin₂) hstopType (hstepChecked _ (.refl _)) hstepType
      hh.unroll trivial (hbody.moved (hwithin'.trans hwithin₂))
    rw [hcounter]
    exact hwithin₂.context (hwithin'.context List.mem_cons_self)

theorem lowers_reduceRange (span : Span) (h : RangeHead) (q : Primitive) (body : Stmt) (s : Supply) :
    Lowers s ((reduceRange span h q body).run s).2 h.id body ((reduceRange span h q body).run s).1 fun env p =>
      h.Checked p ∧ h.start.type = .prim q ∧ Everywhere env Node.Valid (p.after [h.declaration]) body := by
  have hstop := Holds.hold (A := fun p => h.stop.Checked p ∧ h.stop.type = .prim q) "to" s
    (fun r hr => (by cases hr)) fun p hp => hp
  cases hstep : h.step.isAbsent with
  | true =>
    have hone := Holds.itself (A := fun p => (q = .i32 ∨ q = .u32) ∧
      (h.step = .absent ∨ h.step.Checked p ∧ h.step.type = .prim q)) (t := .prim q)
      (e := Expr.ofValue span (Value.scalar q true)) ((hold "to" (.prim q) h.stop).run s).2 fun p ⟨hq, _⟩ => by
        have hnamed : q ∈ Primitive.named := by rcases hq with rfl | rfl <;> decide
        have htype : (Value.scalar q true).type = .prim q := by rcases hq with rfl | rfl <;> rfl
        exact ⟨Expr.checked_ofValue (t := .prim q) span hnamed htype, htype⟩
    simp only [reduceRange, hstep, if_true]
    exact lowers_range span h body hstop hone
  | false =>
    have hheld := Holds.hold (A := fun p => (q = .i32 ∨ q = .u32) ∧
      (h.step = .absent ∨ h.step.Checked p ∧ h.step.type = .prim q)) (t := .prim q) (e := h.step) "step"
      ((hold "to" (.prim q) h.stop).run s).2 (fun r hr => (by cases hr)) fun p ⟨_, hp⟩ => by
        rcases hp with habsent | hp
        · rw [habsent] at hstep
          cases hstep
        · exact hp
    simp only [reduceRange, hstep]
    exact lowers_range span h body hstop hheld

/-- The number of elements of an array. -/
theorem checked_size {p : Place} {array : Expr} {elem : Ty} (span : Span) (length : UInt32) (harray : array.Checked p)
    (htype : array.type = .array elem length) :
    (if length = 0 then Expr.intrinsic ⟨span, .prim .u32⟩ .size [array] else .ofValue span (.u32 length)).Checked p ∧
      (if length = 0 then Expr.intrinsic ⟨span, .prim .u32⟩ .size [array] else .ofValue span (.u32 length)).type =
        .prim .u32 := by
  have hu32 : (Ty.prim .u32).Proper := (by decide : Primitive.u32 ∈ Primitive.named)
  split
  · refine ⟨.mk ⟨hu32, ?_, trivial⟩ fun c hc => ?_, rfl⟩
    · show Intrinsic.resultType .size [array.type] = .ok (.prim .u32)
      rw [htype]
      rfl
    · rw [List.mem_singleton.mp hc]
      exact harray
  · exact ⟨Expr.checked_ofValue (t := .prim .u32) span hu32 rfl, rfl⟩

/-- The element at the counter. -/
theorem checked_element {p : Place} {array counter : Expr} {elem : Ty} {n : UInt32} (span : Span) (harray : array.Checked p)
    (htype : array.type = .array elem n) (hcounter : counter.Checked p) (hcounterType : counter.type = .prim .u32) :
    (Expr.index ⟨span, elem⟩ array [counter]).Checked p := by
  have helem : elem.Proper := by
    have hproper := harray.proper
    rw [htype] at hproper
    exact hproper
  refine .mk ⟨helem, ?_, trivial⟩ fun c hc => ?_
  · show Expr.IndexPath p.context array.type [counter] elem
    rw [htype]
    exact .cons (.inr hcounterType) .array .nil
  · simp only [Expr.children, List.mem_cons, List.not_mem_nil, or_false] at hc
    rcases hc with rfl | rfl
    · exact harray
    · exact hcounter

theorem lowers_each {s s₁ s₂ : Supply} {elem : Ty} {n : UInt32} {arrayDecl counterDecl : List Stmt} {array : Expr}
    {id : Int} (span : Span) (h : EachHead) (body : Stmt)
    (harray : Holds s s₁ (fun p => h.array.Checked p ∧ h.array.type = .array elem n) (.array elem n) arrayDecl array)
    (hcounter : Holds s₁ s₂ (fun _ => True) (.prim .u32) counterDecl (.ofVar span id (.prim .u32))) :
    Lowers s s₂ h.id body (block span (arrayDecl ++ (counterDecl ++ [.loop span
        (lessThan span (.ofVar span id (.prim .u32))
          (if n = 0 then .intrinsic ⟨span, .prim .u32⟩ .size [array] else .ofValue span (.u32 n))) h.unroll
        (block span [.letVar span
          { name := h.name, init := .index ⟨span, elem⟩ array [.ofVar span id (.prim .u32)], id := h.id },
          beforeContinue (increment span id (.prim .u32) (.ofValue span (.u32 1))) body,
          increment span id (.prim .u32) (.ofValue span (.u32 1))])]))) fun env p =>
      h.Checked p ∧ h.array.type = .array elem n ∧ Everywhere env Node.Valid (p.after [h.declaration]) body := by
  obtain ⟨ids, hids, hkeys⟩ := harray.given
  obtain ⟨ids', hids', hkeys'⟩ := hcounter.given
  refine ⟨⟨ids ++ ids', hids.append hids', ?_⟩, fun _ => rfl, fun env p hfunction ⟨hh, htype, hbody⟩ =>
    everywhere_block ?_⟩
  · simp only [keys_block, List.flatMap_cons, List.flatMap_append, List.flatMap_nil, keys_letVar, hkeys,
      hkeys', keys_loop, keys_beforeContinue (keys_increment _ _ _ _), keys_increment, List.append_nil,
      List.map_append]
    rw [← List.append_assoc]
    exact List.perm_append_comm
  · have hu32 : (Ty.prim .u32).Proper := (by decide : Primitive.u32 ∈ Primitive.named)
    obtain ⟨harrayValid, harrayType, harrayChecked⟩ := harray.valid env p hfunction ⟨hh.array, htype⟩
    have hwithin : p.Within (p.after (declaresAll env arrayDecl)) := (Place.Within.refl p).after_right _
    obtain ⟨hcounterValid, -, hcounterChecked⟩ := hcounter.valid env (p.after (declaresAll env arrayDecl)) hfunction trivial
    have hwithin' : (p.after (declaresAll env arrayDecl)).Within
        ((p.after (declaresAll env arrayDecl)).after (declaresAll env counterDecl)) := (Place.Within.refl _).after_right _
    have harray' := harrayChecked _ hwithin'
    have hcounter' := hcounterChecked _ (.refl _)
    refine (everywhereAll_append _ _).mpr ⟨harrayValid, (everywhereAll_append _ _).mpr ⟨hcounterValid, ?_, trivial⟩⟩
    obtain ⟨hsize, hsizeType⟩ := checked_size span n harray' harrayType
    have helement := checked_element span harray' harrayType hcounter' rfl
    refine everywhere_loop span [_] (.inr rfl) hcounter'.consistent hsize hsizeType
      (Expr.checked_ofValue (t := .prim .u32) span hu32 rfl) rfl hh.unroll
      ⟨⟨.inl ⟨rfl, fun habsent => ?_⟩, fun e he => ?_⟩, trivial⟩ ?_
    · cases habsent
    · simp only [ownExprs, List.mem_cons, List.not_mem_nil, or_false] at he
      rcases he with rfl | rfl
      · exact fun n hn => (by cases hn)
      · exact fun n hn => helement.of_mem_nodes hn
    · have hdeclaration : h.declaration = .variable h.id elem := by
        rw [EachHead.declaration, htype]
        rfl
      rw [hdeclaration] at hbody
      exact hbody.moved ((hwithin.trans hwithin').after (List.Subset.refl _))

theorem lowers_reduceEach (span : Span) (h : EachHead) (elem : Ty) (n : UInt32) (body : Stmt) (s : Supply) :
    Lowers s ((reduceEach span h elem n body).run s).2 h.id body ((reduceEach span h elem n body).run s).1 fun env p =>
      h.Checked p ∧ h.array.type = .array elem n ∧ Everywhere env Node.Valid (p.after [h.declaration]) body := by
  have hzero : ∀ p : Place, True → (Expr.ofValue span (.u32 0)).Checked p ∧ (Expr.ofValue span (.u32 0)).type = .prim .u32 :=
    fun p _ => ⟨Expr.checked_ofValue (t := .prim .u32) span (by decide : Primitive.u32 ∈ Primitive.named) rfl, rfl⟩
  cases hplace : h.array.isPlace with
  | true =>
    have harray := Holds.itself (A := fun p => h.array.Checked p ∧ h.array.type = .array elem n) s fun p hp => hp
    have hcounter := Holds.temp (A := fun _ => True) "index" s (fun r hr => (by cases hr)) hzero
    simp only [reduceEach, hplace, if_true]
    exact lowers_each span h body harray hcounter
  | false =>
    have harray := Holds.temp (A := fun p => h.array.Checked p ∧ h.array.type = .array elem n) "array" s
      (fun r hr => (by cases hr)) fun p hp => hp
    have hcounter := Holds.temp (A := fun _ => True) "index" ((Supply.temp "array" (.array elem n) h.array).run s).2
      (fun r hr => (by cases hr)) hzero
    simp only [reduceEach, hplace]
    exact lowers_each span h body harray hcounter

end Stmt

end Shading
