import Shading.Lowering
import Shading.Proofs.Meaning.Each
import Shading.Proofs.Meaning.Simulation

/-! Loops over ranges do what the loops with a condition do that they are lowered to. -/
namespace Shading.Meaning

section

variable {M : Machine} {call : Int → List Datum → Run Datum} {τ : Store} {e : Expr} {n : Nat}

/-- What follows a declaration finds the value of an expression under its name. -/
theorem simulates_hold {T : List Int} {s : Supply} {f : Datum → Run Flow} {rest : List Stmt} (what : Text)
    (t : Ty) (hτ : Temporary T τ) (hid : s.nextVar ∈ T) (hfree : τ s.nextVar = none)
    (hpresent : e.isAbsent = false)
    (he : Frame τ Datum (eval M call e) (eval M call e))
    (h : ∀ d τ', Temporary T τ' → Held τ' ((Stmt.hold what t e).run s).1.2 d →
      (∀ e' d', Held τ e' d' → Held τ' e' d') →
      (τ ((Stmt.hold what t e).run s).2.nextVar = none → τ' ((Stmt.hold what t e).run s).2.nextVar = none) →
      Simulates T τ' (f d) (execAll M call n rest)) :
    Simulates T τ (eval M call e >>= f) (execAll M call n (((Stmt.hold what t e).run s).1.1 ++ rest)) := by
  cases hlit : Stmt.isLiteral e with
  | true =>
    cases e with
    | literal i v => exact h (.plain v) τ hτ (.literal i v) (fun _ _ he => he) id
    | _ => cases hlit
  | false =>
    rw [run_hold what t s hlit] at h ⊢
    rw [List.singleton_append, execAll_letVar _ _ hpresent]
    refine Simulates.bind hτ he fun d => Simulates.store ?_
    apply h d _ (hτ.update hid _) (.var _ (Function.update_self ..)) fun e' d' he' => he'.update hfree _
    intro hnext
    rw [Function.update_of_ne (next_ne _), hnext]

end

section

variable {M : Machine} {body : Stmt} {s : Supply}

/-- The step of a lowered loop with its declaration. -/
def heldStep (span : Span) (h : RangeHead) (p : Primitive) : StateM Supply (List Stmt × Expr) :=
  if h.step.isAbsent then pure ([], Expr.ofValue span (Value.scalar p true)) else Stmt.hold "step" (.prim p) h.step

theorem run_reduceRange (span : Span) (h : RangeHead) (p : Primitive) (body : Stmt) (s : Supply) :
    ((Stmt.reduceRange span h p body).run s).1 =
      let stop := (Stmt.hold "to" (.prim p) h.stop).run s
      let step := (heldStep span h p).run stop.2
      let inc := Stmt.increment span h.id (.prim p) step.1.2
      Stmt.block span (.letVar span { name := h.name, init := h.start, id := h.id } :: (stop.1.1 ++ (step.1.1 ++
        [.loop span (Stmt.lessThan span (.ofVar span h.id (.prim p)) stop.1.2) h.unroll
          (Stmt.block span [.beforeContinue inc body, inc])]))) := by
  simp only [← List.append_assoc, ← List.cons_append]
  unfold Stmt.reduceRange heldStep
  cases h.step.isAbsent <;> rfl

theorem simulates_reduceRange {span : Span} {h : RangeHead} {p : Primitive} (hstart : h.start.type = .prim p)
    (hstop : h.stop.isAbsent = false) (havoid : M.Avoids (.forRange span h body) (temporaries s)) (n : Nat) :
    Simulates (temporaries s) (fun _ => none) (M.exec n (.forRange span h body))
      (M.exec n ((Stmt.reduceRange span h p body).run s).1) := by
  have hnone : Temporary (temporaries s) fun _ => none := fun _ _ => rfl
  have hid : h.id ∉ temporaries s := havoid.notMem rfl List.mem_cons_self
  have hpresent : h.start.isAbsent = false := isAbsent_of_type (by rw [hstart]; nofun)
  -- once the bounds are held, the loops go through their rounds together
  have hloop {τ : Store} {stop stride : Datum} {e e' : Expr} (hτ : Temporary (temporaries s) τ)
      (he : Held τ e stop) (he' : Held τ e' stride) :
      Simulates (temporaries s) τ
        (loop (below h.id stop) (exec M (M.call n) n body >>= stepping h.id stride) n)
        (execAll M (M.call n) n [.loop span (Stmt.lessThan span (.ofVar span h.id (.prim p)) e) h.unroll
          (Stmt.block span [.beforeContinue (Stmt.increment span h.id (.prim p) e') body,
            Stmt.increment span h.id (.prim p) e'])]) := by
    rw [execAll_singleton]
    have hbody := havoid.frame_exec hτ n List.mem_cons_self
    exact ((havoid.logical hτ).loop (frame_lessThan (hτ _ hid) he span _)
      (frame_round (hτ _ hid) he' hbody span _) n).simulates hτ
  rw [run_reduceRange]
  show Simulates _ _ (exec M (M.call n) n _) (execAll M (M.call n) n _)
  rw [execAll_letVar _ _ hpresent, exec]
  refine Simulates.bind hnone (havoid.frame_eval hnone n (by simp [Stmt.ownExprs])) fun start => ?_
  refine Simulates.bind hnone (Frame.store rfl _) fun _ => ?_
  refine simulates_hold "to" _ hnone List.mem_cons_self rfl hstop
    (havoid.frame_eval hnone n (by simp [Stmt.ownExprs])) ?_
  intro stop τ hτ hheld _ hfree
  unfold step heldStep
  cases hstep : h.step.isAbsent with
  | true =>
    rw [if_pos rfl, if_pos rfl, pure_bind, hstart]
    exact hloop hτ hheld (.literal _ _)
  | false =>
    refine simulates_hold "step" _ hτ (nextVar_hold ..) (hfree rfl) hstep
      (havoid.frame_eval hτ n (by simp [Stmt.ownExprs])) ?_
    intro stride τ' hτ' hheld' hmono _
    exact hloop hτ' (hmono _ _ hheld) hheld'

end

variable {α : Type}

/-- Two statements do the same, but for what some variables hold. -/
structure Machine.Alike (M : Machine) (T : List Int) (s s' : Stmt) : Prop where
  ends {σ σ₁ : Store} {r : Except Stop Flow} (h : M.Ends s σ r σ₁) :
    ∃ σ₂, M.Ends s' σ r σ₂ ∧ ∀ v ∉ T, σ₂ v = σ₁ v
  ends' {σ σ₂ : Store} {r : Except Stop Flow} (h : M.Ends s' σ r σ₂) :
    ∃ σ₁, M.Ends s σ r σ₁ ∧ ∀ v ∉ T, σ₂ v = σ₁ v
  diverges {σ : Store} : M.Diverges s σ ↔ M.Diverges s' σ

theorem eq_outside_of_forget {T : List Int} {o : Option (Except Stop α × Store)} {r : Except Stop α} {σ : Store}
    (h : o.map (forget T) = some (forget T (r, σ))) : ∃ σ', o = some (r, σ') ∧ ∀ v ∉ T, σ' v = σ v := by
  obtain ⟨⟨r', σ'⟩, rfl, hforget⟩ := Option.map_eq_some_iff.mp h
  obtain ⟨hr, hstore⟩ := Prod.mk.inj hforget
  refine ⟨σ', by rw [show r' = r from hr], fun v hv => ?_⟩
  have hv' := congrFun hstore v
  simpa [hv] using hv'

theorem Machine.alike_of_simulates {M : Machine} {T : List Int} {s s' : Stmt}
    (h : ∀ n, Simulates T (fun _ => none) (M.exec n s) (M.exec n s')) : M.Alike T s s' where
  ends {σ σ₁ r} hs := by
    obtain ⟨n, hn⟩ := hs
    have hσ := h n σ
    rw [overlay_empty, hn] at hσ
    obtain ⟨σ₂, hs', hv⟩ := eq_outside_of_forget hσ
    exact ⟨σ₂, ⟨n, hs'⟩, hv⟩
  ends' {σ σ₂ r} hs' := by
    obtain ⟨n, hn⟩ := hs'
    have hσ := h n σ
    rw [overlay_empty, hn] at hσ
    obtain ⟨σ₁, hs, hv⟩ := eq_outside_of_forget hσ.symm
    exact ⟨σ₁, ⟨n, hs⟩, fun v hT => (hv v hT).symm⟩
  diverges {σ} := by
    refine forall_congr' fun n => ?_
    have hσ := h n σ
    rw [overlay_empty] at hσ
    rw [← Option.map_eq_none_iff (f := forget T), ← hσ, Option.map_eq_none_iff]

/-- Lowering a loop keeps what it does. The variables that the lowering takes are not used before. The array of
a loop is looked at in every round, so nothing in the loop may assign what it depends on. -/
theorem reduction_alike (M : Machine) (span : Span) (body : Stmt) (s : Supply) :
    (∀ (h : RangeHead) (p : Primitive), h.start.type = .prim p → h.stop.isPresent →
      M.Avoids (.forRange span h body) (temporaries s) →
      M.Alike (temporaries s) (.forRange span h body) ((Stmt.reduceRange span h p body).run s).1) ∧
    ∀ (h : EachHead) (elem : Ty) (length : UInt32), h.array.type = .array elem length →
      M.Avoids (.forEach span h body) (temporaries s) → h.id ∉ variablesOf h.array →
      (∀ v ∈ variablesOf h.array, ¬M.Assigns body v) →
      M.Alike (temporaries s) (.forEach span h body) ((Stmt.reduceEach span h elem length body).run s).1 := by
  constructor
  · intro h p hstart hstop havoid
    have hpresent : h.stop.isAbsent = false := by simpa [Expr.isPresent] using hstop
    exact Machine.alike_of_simulates (simulates_reduceRange hstart hpresent havoid)
  · intro h elem length htype havoid hid hbody
    exact Machine.alike_of_simulates (simulates_reduceEach htype havoid hid hbody)

/-- The head of `fn sum(a: i32, b: i32)`. -/
def sumHead : FnHead :=
  { name := "sum", params := [{ name := "a", type := .absent, id := 20 }, { name := "b", type := .absent, id := 21 }] }

/-- The body `return a + b;`. -/
def sumBody : List Stmt :=
  [.returnWith {} (.binary ⟨{}, .prim .i32⟩ .add (.ofVar {} 20 (.prim .i32)) (.ofVar {} 21 (.prim .i32)))]

/-- A machine with one function, which adds two numbers. -/
def adder : Machine where
  constants _ := none
  functions f := if f = 5 then some (sumHead, sumBody) else none
  intrinsic _ _ := none
  initial _ := none

theorem adder_closed (T : List Int)
    (h : (∀ p ∈ sumHead.params, p.id ∉ T) ∧ ∀ c ∈ sumBody, (Footprint.outside T [5]).Covers c.nodes) :
    (Footprint.outside T [5]).Closed adder := by
  intro f hf head body hfn
  cases List.mem_singleton.mp hf
  cases hfn
  exact h

/-- The body `if (i == 3) { i += 1; continue; } else if (x == 20) break; x = sum(x, i);`. -/
def sumUp : Stmt :=
  let int (v : Int) : Expr := .ofVar {} v (.prim .i32)
  let lit (n : Int32) : Expr := .ofValue {} (.i32 n)
  let isEqual (l r : Expr) : Expr := .binary ⟨{}, .prim .bool⟩ .eq l r
  let skip := Stmt.block {} [.expr {} (.assign ⟨{}, .prim .i32⟩ .add (int 1) (lit 1)), .continueLoop {}]
  Stmt.block {}
    [.branch {} false [(isEqual (int 1) (lit 3), skip), (isEqual (int 2) (lit 20), .breakLoop {})] .absent,
     .expr {} (.assign ⟨{}, .prim .i32⟩ .simple (int 2) (.call ⟨{}, .prim .i32⟩ (.function {} 5) [int 2, int 1]))]

/-- The head of `for i in 0 -> n`. -/
def upToBound : RangeHead :=
  { name := "i", start := .ofValue {} (.i32 0), stop := .ofVar {} 3 (.prim .i32), id := 1 }

/-- The head of `for i in numbers`. -/
def eachNumber : EachHead :=
  { name := "i", array := .ofVar {} 4 (.array (.prim .i32) 3), id := 1 }

theorem reduction_alike_sumUp :
    adder.Alike [30, 31] (.forRange {} upToBound sumUp) ((Stmt.reduceRange {} upToBound .i32 sumUp).run ⟨30, 0⟩).1 ∧
    adder.Alike [30, 31] (.forEach {} eachNumber sumUp)
      ((Stmt.reduceEach {} eachNumber (.prim .i32) 3 sumUp).run ⟨30, 0⟩).1 := by
  have hclosed : (Footprint.outside [30, 31] [5]).Closed adder := adder_closed _ (by decide)
  have hrange : (Footprint.outside [30, 31] [5]).Covers (Stmt.forRange {} upToBound sumUp).nodes := by decide
  have heach : (Footprint.outside [30, 31] [5]).Covers (Stmt.forEach {} eachNumber sumUp).nodes := by decide
  have hnumbers : (Footprint.outside [4] [5]).Closed adder := adder_closed _ (by decide)
  constructor
  · exact (reduction_alike adder {} sumUp ⟨30, 0⟩).1 upToBound .i32 rfl rfl (.of_covers hrange hclosed)
  · apply (reduction_alike adder {} sumUp ⟨30, 0⟩).2 eachNumber (.prim .i32) 3 rfl (.of_covers heach hclosed)
    · decide
    · intro v hv hassigns
      have hout : v ∉ [4] := hassigns.of_closed (by decide) hnumbers
      exact hout hv

-- The loop adds 0, 1, 2 and 5 to 10: after 3 the body takes a step, and the `continue` takes another one.
example : ((adder.exec 9 ((Stmt.reduceRange {} upToBound .i32 sumUp).run ⟨30, 0⟩).1
    fun v => if v = 2 then some (.plain (.i32 10)) else if v = 3 then some (.plain (.i32 6)) else none).map
      fun o => (o.2 2 >>= Datum.int?)) = some (some 18) := by decide +kernel

end Shading.Meaning

-- A chain of branches and the branches inside each other that it is split into test the same conditions in the same
-- order and run the same body, whatever tests and bodies do.
namespace Shading

universe u

namespace Stmt

/-- Branches with one condition each, each the `else` of the one before, that have the arms in this order
and the last `else`. -/
inductive Chain (otherwise : Stmt) : List (Expr × Stmt) → Stmt → Prop
  | last {span : Span} {isConst : Bool} {arm : Expr × Stmt} :
      Chain otherwise [arm] (.branch span isConst [arm] otherwise)
  | next {span : Span} {isConst : Bool} {arm : Expr × Stmt} {rest : List (Expr × Stmt)} {s : Stmt} :
      Chain otherwise rest s → Chain otherwise (arm :: rest) (.branch span isConst [arm] s)

theorem chain_splitRest (otherwise : Stmt) (arm : Expr × Stmt) (rest : List (Expr × Stmt)) :
    Chain otherwise (arm :: rest) (splitRest otherwise (arm :: rest)) := by
  induction rest generalizing arm with
  | nil => exact .last
  | cons arm' rest ih => exact .next (ih arm')

theorem chain_splitBranch (span : Span) (isConst : Bool) {arms : List (Expr × Stmt)} (otherwise : Stmt)
    (h : arms ≠ []) : Chain otherwise arms (splitBranch span isConst arms otherwise) := by
  match arms with
  | [] => contradiction
  | [_] => exact .last
  | _ :: arm :: rest => exact .next (chain_splitRest otherwise arm rest)

end Stmt

namespace Meaning

/-- Tests conditions in order until one holds, and runs its body. -/
def firstHolding {m : Type → Type u} [Monad m] {α : Type} (test : Expr → m Bool) (run : Stmt → m α) :
    List (Expr × Stmt) → m α → m α
  | [], otherwise => otherwise
  | (c, s) :: arms, otherwise => do
    if ← test c then run s else firstHolding test run arms otherwise

/-- A way to run statements. What tests and bodies do, and whether they come to an end, is left to the
monad; a branch runs the body of its first condition that holds. -/
structure Interpreter (m : Type → Type u) [Monad m] (α : Type) where
  test : Expr → m Bool
  run : Stmt → m α
  run_branch (span : Span) (isConst : Bool) (arms : List (Expr × Stmt)) (otherwise : Stmt) :
    run (.branch span isConst arms otherwise) = firstHolding test run arms (run otherwise)

section

variable {m : Type → Type u} [Monad m] {α : Type} (I : Interpreter m α)

theorem Interpreter.run_splitRest (otherwise : Stmt) (arms : List (Expr × Stmt)) :
    I.run (.splitRest otherwise arms) = firstHolding I.test I.run arms (I.run otherwise) := by
  induction arms with
  | nil => rfl
  | cons arm rest ih => rw [Stmt.splitRest, I.run_branch, ih]; rfl

theorem Interpreter.run_splitBranch (span : Span) (isConst : Bool) (arms : List (Expr × Stmt))
    (otherwise : Stmt) :
    I.run (.splitBranch span isConst arms otherwise) = I.run (.branch span isConst arms otherwise) := by
  match arms with
  | [] | [_] => rfl
  | arm :: next :: rest =>
    have hrest := I.run_splitRest otherwise (next :: rest)
    show I.run (.branch span false [arm] (.splitRest otherwise (next :: rest))) = _
    rw [I.run_branch, I.run_branch, hrest]
    rfl

end

section

variable {M : Machine} {call : Int → List Datum → Run Datum} {n : Nat}

theorem execArms_eq (arms : List (Expr × Stmt)) (otherwise : Run Flow) :
    execArms M call n arms otherwise = firstHolding (condition M call) (exec M call n) arms otherwise := by
  induction arms with
  | nil => rw [execArms, firstHolding]
  | cons arm rest ih => rw [execArms, firstHolding, ih]

/-- Runs of programs, in which conditions may call functions, assign and come to a stop. -/
def Machine.interpreter (M : Machine) (n : Nat) : Interpreter Run Flow where
  test := condition M (M.call n)
  run := M.exec n
  run_branch span isConst arms otherwise := by
    show Meaning.exec M (M.call n) n (.branch span isConst arms otherwise) = _
    rw [Meaning.exec, execArms_eq]
    rfl

theorem exec_splitBranch (span : Span) (isConst : Bool) (arms : List (Expr × Stmt)) (otherwise : Stmt) :
    M.exec n (.splitBranch span isConst arms otherwise) = M.exec n (.branch span isConst arms otherwise) :=
  (M.interpreter n).run_splitBranch span isConst arms otherwise

end

end Meaning

/-- A branch with conditions is split into a chain of the same conditions and bodies, and one without conditions is left
alone. No way to run statements tells what it is split into from the branch. -/
theorem Stmt.splitBranch_faithful (span : Span) (isConst : Bool) (arms : List (Expr × Stmt)) (otherwise : Stmt) :
    (arms ≠ [] → Chain otherwise arms (splitBranch span isConst arms otherwise)) ∧
      (arms = [] → splitBranch span isConst arms otherwise = .branch span isConst [] otherwise) ∧
      ∀ {m : Type → Type u} [Monad m] {α : Type} (I : Meaning.Interpreter m α),
        I.run (splitBranch span isConst arms otherwise) = I.run (.branch span isConst arms otherwise) := by
  refine ⟨Stmt.chain_splitBranch span isConst otherwise, ?_, fun I => I.run_splitBranch span isConst arms otherwise⟩
  rintro rfl
  rfl

theorem Stmt.splitBranch_faithful_two :
    let arms : List (Expr × Stmt) :=
      [(.ofValue {} (.bool false), .discard {}), (.ofValue {} (.bool true), .breakLoop {})]
    arms ≠ [] ∧ Chain .absent arms (splitBranch {} false arms .absent) ∧
      splitBranch {} false [] (.discard {}) = .branch {} false [] (.discard {}) :=
  have h := List.cons_ne_nil _ _
  ⟨h, (Stmt.splitBranch_faithful.{0} {} false _ .absent).1 h,
    (Stmt.splitBranch_faithful.{0} {} false [] (.discard {})).2.1 rfl⟩

/-- What a branch without conditions is split into has a branch without one. -/
theorem Stmt.exists_not_chain_splitBranch :
    ¬ ∀ (span : Span) (isConst : Bool) (arms : List (Expr × Stmt)) (otherwise : Stmt),
      Chain otherwise arms (splitBranch span isConst arms otherwise) := by
  intro h
  cases h {} false [] (.discard {})

end Shading
