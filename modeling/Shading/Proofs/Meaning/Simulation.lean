import Shading.Proofs.Meaning.Frame

/-! Runs of lowered loops: what stands before a `continue`, and variables that only the lowered loop has. -/
namespace Shading.Meaning

-- A statement before each `continue` of a loop's body runs exactly when the body goes on early.

/-- Runs something before a loop goes on early. -/
def before (act : Run Flow) : Flow → Run Flow
  | .continued => do
    match ← act with
    | .next => return .continued
    | f => return f
  | f => return f

theorem proceed_before {act again : Run Flow} (h : again >>= before act = again) (f : Flow) :
    proceed again f >>= before act = proceed again f := by
  cases f with
  | next | continued => exact h
  | broken | returned => rfl

theorem round_before {act again : Run Flow} (c : Run Bool) (b : Run Flow) (h : again >>= before act = again) :
    round c b again >>= before act = round c b again := by
  unfold round
  rw [bind_assoc]
  congr 1
  funext more
  cases more with
  | true =>
    show (b >>= proceed again) >>= before act = b >>= proceed again
    rw [bind_assoc]
    congr 1
    funext f
    exact proceed_before h f
  | false => rfl

theorem loop_before (act : Run Flow) (c : Run Bool) (b : Run Flow) (n : Nat) :
    loop c b n >>= before act = loop c b n := by
  induction n with
  | zero => exact round_before c b (diverge_bind _)
  | succ n ih => exact round_before c b ih

theorem each_before (act : Run Flow) (visit : Nat → Run Flow) (n : Nat) (is : List Nat) :
    each visit n is >>= before act = each visit n is := by
  induction is generalizing n with
  | nil =>
    rw [each]
    rfl
  | cons i is ih =>
    cases n with
    | zero =>
      rw [each, bind_assoc]
      congr 1
      funext f
      exact proceed_before (diverge_bind _) f
    | succ n =>
      rw [each, bind_assoc]
      congr 1
      funext f
      exact proceed_before (ih n) f

section

variable (M : Machine) (call : Int → List Datum → Run Datum) (n : Nat) (inc : Stmt)

mutual

theorem exec_beforeContinue (s : Stmt) :
    exec M call n (Stmt.beforeContinue inc s) = exec M call n s >>= before (exec M call n inc) := by
  match s with
  | .continueLoop span =>
    simp only [Stmt.beforeContinue, Stmt.block, exec, execAll, pure_bind]
    rfl
  | .multi span body =>
    simp only [Stmt.beforeContinue, exec]
    exact execAll_beforeContinue body
  | .scoped span body =>
    simp only [Stmt.beforeContinue, exec]
    exact exec_beforeContinue body
  | .branch span c arms other =>
    simp only [Stmt.beforeContinue, exec]
    exact execArms_beforeContinue arms (exec_beforeContinue other)
  | .conditional span c body =>
    simp only [Stmt.beforeContinue, exec, bind_assoc]
    congr 1
    funext holds
    cases holds with
    | true => exact exec_beforeContinue body
    | false => rfl
  | .forRange .. =>
    simp only [Stmt.beforeContinue, exec, bind_assoc, loop_before]
  | .forEach .. =>
    simp only [Stmt.beforeContinue, exec, bind_assoc, each_before]
  | .loop .. =>
    simp only [Stmt.beforeContinue, exec, loop_before]
  | .expr .. | .letVar .. | .returnWith .. =>
    simp only [Stmt.beforeContinue, exec, bind_assoc, pure_bind, before]
  | .discard .. | .breakLoop .. | .absent | .const .. | .alias .. | .option .. | .struct .. | .function ..
  | .external .. | .importFrom .. | .noOp .. =>
    simp only [Stmt.beforeContinue, exec]
    rfl

theorem execAll_beforeContinue (ss : List Stmt) :
    execAll M call n (Stmt.beforeContinueAll inc ss) = execAll M call n ss >>= before (exec M call n inc) := by
  match ss with
  | [] => rfl
  | s :: ss =>
    simp only [Stmt.beforeContinueAll, execAll, exec_beforeContinue s, bind_assoc]
    congr 1
    funext f
    cases f with
    | next => exact execAll_beforeContinue ss
    | broken | returned => rfl
    | continued =>
      simp only [before, bind_assoc, pure_bind]
      congr 1
      funext g
      cases g <;> rfl

theorem execArms_beforeContinue (arms : List (Expr × Stmt)) {other other' : Run Flow}
    (h : other' = other >>= before (exec M call n inc)) :
    execArms M call n (Stmt.beforeContinueArms inc arms) other' =
      execArms M call n arms other >>= before (exec M call n inc) := by
  match arms with
  | [] => exact h
  | (c, s) :: arms =>
    simp only [Stmt.beforeContinueArms, execArms, bind_assoc]
    congr 1
    funext holds
    cases holds with
    | true => exact exec_beforeContinue s
    | false => exact execArms_beforeContinue arms h

end

end

variable {α β : Type}

/-- An outcome without what some variables hold. -/
def forget (T : List Int) (o : Except Stop α × Store) : Except Stop α × Store :=
  (o.1, fun v => if v ∈ T then none else o.2 v)

/-- The store says something about some variables only. -/
def Temporary (T : List Int) (τ : Store) : Prop := ∀ v ∉ T, τ v = none

theorem forget_overlay {T : List Int} {τ : Store} (h : Temporary T τ) (r : Except Stop α) (σ : Store) :
    forget T (r, overlay τ σ) = forget T (r, σ) := by
  unfold forget
  congr 1
  funext v
  by_cases hv : v ∈ T
  · rw [if_pos hv, if_pos hv]
  · rw [if_neg hv, if_neg hv]
    exact overlay_of_none (h v hv) σ

theorem Temporary.update {T : List Int} {τ : Store} {t : Int} (h : Temporary T τ) (ht : t ∈ T)
    (d : Option Datum) : Temporary T (Function.update τ t d) := by
  intro v hv
  have hne : v ≠ t := fun heq => hv (heq ▸ ht)
  rw [Function.update_of_ne hne, h v hv]

/-- The second run, started with variables of its own, does what the first one does to all others. -/
def Simulates (T : List Int) (τ : Store) (x y : Run α) : Prop :=
  ∀ σ, (y (overlay τ σ)).map (forget T) = (x σ).map (forget T)

theorem Frame.simulates {T : List Int} {τ : Store} {x y : Run α} (hτ : Temporary T τ) (h : Frame τ α x y) :
    Simulates T τ x y := by
  intro σ
  rw [h σ]
  cases x σ with
  | none => rfl
  | some o => exact congrArg some (forget_overlay hτ o.1 o.2)

theorem Simulates.bind {T : List Int} {τ : Store} {x y : Run α} {f g : α → Run β} (hτ : Temporary T τ)
    (hx : Frame τ α x y) (hf : ∀ a, Simulates T τ (f a) (g a)) : Simulates T τ (x >>= f) (y >>= g) := by
  intro σ
  rw [bind_apply, bind_apply, hx σ]
  cases x σ with
  | none => rfl
  | some o =>
    obtain ⟨r, σ'⟩ := o
    cases r with
    | ok a => exact hf a σ'
    | error e => exact congrArg some (forget_overlay hτ _ σ')

theorem Simulates.store {T : List Int} {τ : Store} {x y : Run α} {t : Int} {d : Datum}
    (h : Simulates T (Function.update τ t (some d)) x y) :
    Simulates T τ x (Meaning.store t (some d) >>= fun _ => y) := by
  intro σ
  rw [bind_apply, store_apply, update_overlay]
  exact h σ

/-- An expression that stands for a value: a literal, or a variable that only the lowered loop has. -/
inductive Held (τ : Store) : Expr → Datum → Prop
  | literal (i : ExprInfo) (v : Value) : Held τ (.literal i v) (.plain v)
  | var (i : ExprInfo) {id : Int} {d : Datum} (h : τ id = some d) : Held τ (.var i id) d

section

variable {M : Machine} {call : Int → List Datum → Run Datum} {τ : Store} {e : Expr} {d : Datum}

theorem Held.eval (h : Held τ e d) (σ : Store) :
    Meaning.eval M call e (overlay τ σ) = some (.ok d, overlay τ σ) := by
  cases h with
  | literal i v => rfl
  | var i h =>
    rw [Meaning.eval, load_apply, overlay_of_some h]
    rfl

theorem Held.update {t : Int} (h : Held τ e d) (ht : τ t = none) (d' : Option Datum) :
    Held (Function.update τ t d') e d := by
  cases h with
  | literal i v => exact .literal i v
  | @var i id d h =>
    have hne : id ≠ t := by
      rintro rfl
      rw [ht] at h
      cases h
    exact .var i (by rw [Function.update_of_ne hne, h])

theorem Held.frame {x : Run β} {f : Datum → Run β} (h : Held τ e d) (hf : Frame τ β x (f d)) :
    Frame τ β x (Meaning.eval M call e >>= f) := by
  intro σ
  rw [bind_apply, h.eval σ]
  exact hf σ

theorem frame_lessThan {v : Int} (hv : τ v = none) (he : Held τ e d) (span : Span) (t : Ty) :
    Frame τ Bool (below v d) (condition M call (Stmt.lessThan span (.ofVar span v t) e)) := by
  simp only [condition, Stmt.lessThan, Expr.ofVar, eval, bind_assoc]
  exact (Frame.load hv).bind fun _ => he.frame ((Frame.orFault _).bind fun _ => Frame.orFault _)

theorem frame_increment {v : Int} (hv : τ v = none) (he : Held τ e d) (i j : ExprInfo) {x y : Run β}
    (h : Frame τ β x y) :
    Frame τ β (advance v d >>= fun _ => x) (eval M call (.assign i .add (.var j v) e) >>= fun _ => y) := by
  simp only [eval, pathTo, root?, orFault, pure_bind, bind_assoc, assign, combined, AssignOp.binary?, storeAt,
    Datum.follow, List.foldlM_nil, advance]
  refine he.frame ?_
  exact (Frame.load hv).bind fun _ => (Frame.orFault _).bind fun _ => (Frame.store hv _).bind fun _ => h

variable {n : Nat}

/-- A round of the lowered loop is a round of the loop over a range. -/
theorem frame_round {v : Int} {body : Stmt} (hv : τ v = none) (he : Held τ e d)
    (hbody : Frame τ Flow (exec M call n body) (exec M call n body)) (span : Span) (t : Ty) :
    Frame τ Flow (exec M call n body >>= stepping v d) (exec M call n (Stmt.block span
      [.beforeContinue (Stmt.increment span v t e) body, Stmt.increment span v t e])) := by
  simp only [Stmt.block, exec, execAll, exec_beforeContinue, bind_assoc, pure_bind, Stmt.increment, Expr.ofVar]
  refine hbody.bind fun f => ?_
  cases f with
  | next => exact frame_increment hv he _ _ fun _ => rfl
  | continued =>
    simp only [before, bind_assoc, pure_bind]
    exact frame_increment hv he _ _ fun _ => rfl
  | broken | returned => exact fun _ => rfl

theorem execAll_letVar (span : Span) (decl : VarDecl) (h : decl.init.isAbsent = false) (rest : List Stmt) :
    execAll M call n (.letVar span decl :: rest) =
      (do store decl.id (some (← eval M call decl.init)); execAll M call n rest) := by
  simp only [execAll, exec, initial, h, bind_assoc, pure_bind, bind_map_left, Bool.false_eq_true, if_false]

/-- The declaration of the next temporary variable. -/
def tempDecl (s : Supply) (what : Text) (t : Ty) (e : Expr) : VarDecl :=
  { name := Supply.tempName what s.temporaries, type := .ofType e.span t, init := e, id := s.nextVar }

theorem run_hold (what : Text) (t : Ty) (s : Supply) (h : Stmt.isLiteral e = false) :
    (Stmt.hold what t e).run s = (([.letVar e.span (tempDecl s what t e)], .ofVar e.span s.nextVar t),
      ⟨Serial.next s.nextVar, s.temporaries + 1⟩) := by
  unfold Stmt.hold
  rw [h]
  rfl

theorem next_ne (id : Int) : Serial.next id ≠ id := by
  unfold Serial.next
  intro h
  have hmod : ((id + 1).bmod UInt64.size) % UInt64.size = (id + 1) % UInt64.size := Int.bmod_emod
  rw [h] at hmod
  simp only [UInt64.size] at hmod
  omega

end

theorem execAll_singleton (M : Machine) (call : Int → List Datum → Run Datum) (n : Nat) (c : Stmt) :
    execAll M call n [c] = exec M call n c := by
  rw [execAll]
  refine Eq.trans ?_ (bind_pure _)
  congr 1
  funext f
  cases f <;> rfl

/-- The variables that the lowering of a loop may take. -/
def temporaries (s : Supply) : List Int := [s.nextVar, Serial.next s.nextVar]

theorem nextVar_hold (what : Text) (t : Ty) (e : Expr) (s : Supply) :
    ((Stmt.hold what t e).run s).2.nextVar ∈ temporaries s := by
  cases hlit : Stmt.isLiteral e with
  | true =>
    unfold Stmt.hold
    rw [hlit]
    exact List.mem_cons_self
  | false =>
    rw [run_hold what t s hlit]
    exact List.mem_cons_of_mem _ List.mem_cons_self

/-- A statement and the functions that it calls do not name the variables. -/
def Machine.Avoids (M : Machine) (s : Stmt) (T : List Int) : Prop := ∀ t ∈ T, ¬M.Reads s t ∧ ¬M.Assigns s t

namespace Machine.Avoids

theorem of_covers {M : Machine} {s : Stmt} {T funcs : List Int} (hs : (Footprint.outside T funcs).Covers s.nodes)
    (hM : (Footprint.outside T funcs).Closed M) : M.Avoids s T :=
  fun _ ht => ⟨fun h => h.of_closed hs hM ht, fun h => h.of_closed hs hM ht⟩

variable {M : Machine} {S : Stmt} {T : List Int} {τ : Store} (h : M.Avoids S T) (hτ : Temporary T τ)
include h hτ

theorem logical : Logical 0 (Frame τ) (M.footprint S) :=
  Frame.logical _ (fun v hv => hτ v fun ht => (h v ht).1 hv) fun v hv => hτ v fun ht => (h v ht).2 hv

theorem frame_call (n : Nat) (f : Int) (hf : (M.footprint S).calls f) (args : List Datum) :
    Frame τ Datum (M.call n f args) (M.call n f args) :=
  (h.logical hτ).calls (M.footprint_closed S) n hf args

theorem frame_eval (n : Nat) {e : Expr} (he : e ∈ S.ownExprs) :
    Frame τ Datum (eval M (M.call n) e) (eval M (M.call n) e) :=
  (h.logical hτ).eval (h.frame_call hτ n) e ((M.footprint_covers S).expr he)

theorem frame_exec (n : Nat) {c : Stmt} (hc : c ∈ S.children) :
    Frame τ Flow (Meaning.exec M (M.call n) n c) (Meaning.exec M (M.call n) n c) :=
  (h.logical hτ).exec (h.frame_call hτ n) n c ((M.footprint_covers S).stmt hc)

omit hτ in
theorem notMem {v : Int} (hS : S.isAbsent = false) (hv : v ∈ writes (.stmt S)) : v ∉ T :=
  fun ht => (h v ht).2 (((M.footprint_covers S).hereStmt hS).2.1 v hv)

end Machine.Avoids

theorem isAbsent_of_type {e : Expr} (h : e.type ≠ .unknown) : e.isAbsent = false := by
  cases e with
  | absent => exact absurd rfl h
  | _ => rfl

end Shading.Meaning
