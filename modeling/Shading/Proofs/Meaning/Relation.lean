import Shading.Proofs.Meaning.Interpreter
import Shading.Proofs.Walk

/-! What the syntax of a program says about its runs. A relation between runs that holds of each step and
is kept when one run follows another holds of whole programs. -/
namespace Shading.Meaning

/-- The variables that a node of a tree reads, less those that the nodes under it read. -/
def reads : Node → List Int
  | .expr (.var _ id) => [id]
  | .expr (.assign _ _ l _) => (root? l).toList
  | .stmt (.forRange _ h _) => [h.id]
  | _ => []

/-- The variables that a node of a tree gives a value. -/
def writes : Node → List Int
  | .expr (.assign _ _ l _) => (root? l).toList
  | .stmt (.letVar _ d) => [d.id]
  | .stmt (.forRange _ h _) => [h.id]
  | .stmt (.forEach _ h _) => [h.id]
  | _ => []

/-- The functions that a node of a tree calls. -/
def calls : Node → List Int
  | .expr (.call _ (.function _ id) _) => [id]
  | _ => []

/-- The variables and functions that a part of a program may use. -/
structure Footprint where
  reads : Int → Prop
  writes : Int → Prop
  calls : Int → Prop

namespace Footprint

/-- The nodes use nothing else. -/
def Covers (F : Footprint) (ns : List Node) : Prop :=
  ∀ n ∈ ns, (∀ v ∈ Meaning.reads n, F.reads v) ∧ (∀ v ∈ Meaning.writes n, F.writes v) ∧
    ∀ f ∈ Meaning.calls n, F.calls f

/-- Everything but some variables, and some functions. -/
def outside (vars funcs : List Int) : Footprint := ⟨(· ∉ vars), (· ∉ vars), (· ∈ funcs)⟩

instance (vars funcs : List Int) (ns : List Node) : Decidable ((outside vars funcs).Covers ns) :=
  inferInstanceAs (Decidable (∀ n ∈ ns, (∀ v ∈ Meaning.reads n, v ∉ vars) ∧ (∀ v ∈ Meaning.writes n, v ∉ vars) ∧
    ∀ f ∈ Meaning.calls n, f ∈ funcs))

variable {F : Footprint}

theorem Covers.mono {ns ms : List Node} (h : F.Covers ns) (hsub : ms ⊆ ns) : F.Covers ms :=
  fun n hn => h n (hsub hn)

theorem Covers.here {e : Expr} (h : F.Covers e.nodes) (he : e.isAbsent = false) :
    (∀ v ∈ Meaning.reads (.expr e), F.reads v) ∧ (∀ v ∈ Meaning.writes (.expr e), F.writes v) ∧
      ∀ f ∈ Meaning.calls (.expr e), F.calls f :=
  h _ (Expr.mem_nodes_self he)

theorem Covers.child {e c : Expr} (h : F.Covers e.nodes) (hc : c ∈ e.children) : F.Covers c.nodes := by
  have he : e.isAbsent = false := by
    cases e with
    | absent => cases hc
    | _ => rfl
  apply h.mono
  rw [Expr.nodes_eq he]
  intro n hn
  exact List.mem_cons_of_mem _ (List.mem_flatMap.mpr ⟨c, hc, hn⟩)

theorem Covers.hereStmt {s : Stmt} (h : F.Covers s.nodes) (hs : s.isAbsent = false) :
    (∀ v ∈ Meaning.reads (.stmt s), F.reads v) ∧ (∀ v ∈ Meaning.writes (.stmt s), F.writes v) ∧
      ∀ f ∈ Meaning.calls (.stmt s), F.calls f :=
  h _ ((Stmt.mem_nodes hs).mpr (.inl rfl))

theorem Covers.expr {s : Stmt} {e : Expr} (h : F.Covers s.nodes) (he : e ∈ s.ownExprs) :
    F.Covers e.nodes := by
  have hs : s.isAbsent = false := by
    cases s with
    | absent => cases he
    | _ => rfl
  exact h.mono fun n hn => (Stmt.mem_nodes hs).mpr (.inr (.inl ⟨e, he, hn⟩))

theorem Covers.stmt {s c : Stmt} (h : F.Covers s.nodes) (hc : c ∈ s.children) : F.Covers c.nodes := by
  have hs : s.isAbsent = false := by
    cases s with
    | absent => cases hc
    | _ => rfl
  exact h.mono fun n hn => (Stmt.mem_nodes hs).mpr (.inr (.inr ⟨c, hc, hn⟩))

/-- The functions of a machine that may be called use nothing else. -/
def Closed (F : Footprint) (M : Machine) : Prop :=
  ∀ f, F.calls f → ∀ head body, M.functions f = some (head, body) →
    (∀ p ∈ head.params, F.writes p.id) ∧ ∀ s ∈ body, F.Covers s.nodes

end Footprint

namespace Machine

variable (M : Machine) (s : Stmt)

/-- The functions that a statement calls, directly or through other functions. -/
inductive Calls : Int → Prop
  | direct {n : Node} {f : Int} (hn : n ∈ s.nodes) (hf : f ∈ calls n) : Calls f
  | through {f g : Int} {head : FnHead} {body : List Stmt} {c : Stmt} {n : Node} (hg : Calls g)
      (hfn : M.functions g = some (head, body)) (hc : c ∈ body) (hn : n ∈ c.nodes) (hf : f ∈ calls n) : Calls f

/-- The nodes that may run when a statement runs: its own and those of the functions that it calls. -/
inductive Runs : Node → Prop
  | here {n : Node} (hn : n ∈ s.nodes) : Runs n
  | called {f : Int} {head : FnHead} {body : List Stmt} {c : Stmt} {n : Node} (hf : M.Calls s f)
      (hfn : M.functions f = some (head, body)) (hc : c ∈ body) (hn : n ∈ c.nodes) : Runs n

/-- A statement, or a function that it calls, gives the variable a value. -/
inductive Assigns : Int → Prop
  | node {n : Node} {v : Int} (hn : M.Runs s n) (hv : v ∈ writes n) : Assigns v
  | param {f : Int} {head : FnHead} {body : List Stmt} {p : FnParam} (hf : M.Calls s f)
      (hfn : M.functions f = some (head, body)) (hp : p ∈ head.params) : Assigns p.id

/-- A statement, or a function that it calls, reads the variable. -/
def Reads (v : Int) : Prop := ∃ n, M.Runs s n ∧ v ∈ reads n

/-- What a statement and the functions that it calls use. -/
def footprint : Footprint := ⟨M.Reads s, M.Assigns s, M.Calls s⟩

theorem footprint_covers : (M.footprint s).Covers s.nodes :=
  fun n hn => ⟨fun _ hv => ⟨n, .here hn, hv⟩, fun _ hv => .node (.here hn) hv, fun _ hf => .direct hn hf⟩

theorem footprint_closed : (M.footprint s).Closed M := by
  intro f hf head body hfn
  refine ⟨fun p hp => .param hf hfn hp, fun c hc n hn => ?_⟩
  have hruns : M.Runs s n := .called hf hfn hc hn
  exact ⟨fun v hv => ⟨n, hruns, hv⟩, fun v hv => .node hruns hv, fun g hg => .through hf hfn hc hn hg⟩

variable {M s} {F : Footprint} (hs : F.Covers s.nodes) (hM : F.Closed M)
include hs hM

theorem Calls.of_closed {f : Int} (h : M.Calls s f) : F.calls f := by
  induction h with
  | direct hn hf => exact (hs _ hn).2.2 _ hf
  | through _ hfn hc hn hf ih => exact ((hM _ ih _ _ hfn).2 _ hc _ hn).2.2 _ hf

theorem Runs.of_closed {n : Node} (h : M.Runs s n) :
    (∀ v ∈ reads n, F.reads v) ∧ (∀ v ∈ writes n, F.writes v) ∧ ∀ f ∈ calls n, F.calls f := by
  cases h with
  | here hn => exact hs _ hn
  | called hf hfn hc hn => exact (hM _ (hf.of_closed hs hM) _ _ hfn).2 _ hc _ hn

theorem Reads.of_closed {v : Int} (h : M.Reads s v) : F.reads v := by
  obtain ⟨n, hn, hv⟩ := h
  exact (hn.of_closed hs hM).1 v hv

theorem Assigns.of_closed {v : Int} (h : M.Assigns s v) : F.writes v := by
  cases h with
  | node hn hv => exact (hn.of_closed hs hM).2.1 _ hv
  | param hf hfn hp => exact (hM _ (hf.of_closed hs hM) _ _ hfn).1 _ hp

end Machine

/-- A relation between runs that each step has and that is kept when one run follows another. The second
run may take `k` rounds more than the first. -/
structure Logical (k : Nat) (R : (α : Type) → Run α → Run α → Prop) (F : Footprint) : Prop where
  pure {α : Type} (a : α) : R α (Pure.pure a) (Pure.pure a)
  throw {α : Type} (e : Stop) : R α (MonadExcept.throw e) (MonadExcept.throw e)
  bind {α β : Type} {x y : Run α} {f g : α → Run β} (h : R α x y) (hf : ∀ a, R β (f a) (g a)) :
    R β (x >>= f) (y >>= g)
  load {id : Int} (h : F.reads id) : R Datum (Meaning.load id) (Meaning.load id)
  store {id : Int} (d : Option Datum) (h : F.writes id) : R Unit (Meaning.store id d) (Meaning.store id d)
  stop {α : Type} {y : Run α} (h : k = 0 → y = diverge) : R α diverge y

/-- Calls of functions that may be called are related. -/
def CallsRelated (R : (α : Type) → Run α → Run α → Prop) (F : Footprint)
    (call call' : Int → List Datum → Run Datum) : Prop :=
  ∀ f, F.calls f → ∀ args, R Datum (call f args) (call' f args)

namespace Logical

variable {k : Nat} {R : (α : Type) → Run α → Run α → Prop} {F : Footprint} (L : Logical k R F)
include L

theorem orFault {α : Type} (o : Option α) : R α (Meaning.orFault o) (Meaning.orFault o) := by
  cases o with
  | none => exact L.throw .fault
  | some a => exact L.pure a

theorem storeAll {ids : List Int} (h : ∀ id ∈ ids, F.writes id) (ds : List Datum) :
    R Unit (Meaning.storeAll ids ds) (Meaning.storeAll ids ds) := by
  induction ids generalizing ds with
  | nil =>
    cases ds with
    | nil => exact L.pure ()
    | cons => exact L.throw .fault
  | cons id ids ih =>
    cases ds with
    | nil => exact L.throw .fault
    | cons d ds =>
      exact L.bind (L.store _ (h id List.mem_cons_self)) fun _ =>
        ih (fun i hi => h i (List.mem_cons_of_mem _ hi)) ds

theorem assign {id : Int} (hr : F.reads id) (hw : F.writes id) (op : AssignOp) (path : List Access)
    (d : Datum) : R Datum (Meaning.assign op id path d) (Meaning.assign op id path d) := by
  refine L.bind ?_ fun new => L.bind ?_ fun _ => L.pure new
  · unfold combined
    cases op.binary? with
    | none => exact L.pure d
    | some b => exact L.bind (L.load hr) fun _ => L.bind (L.orFault _) fun _ => L.orFault _
  · cases path with
    | nil => exact L.store _ hw
    | cons => exact L.bind (L.load hr) fun _ => L.bind (L.orFault _) fun _ => L.store _ hw

theorem proceed {again again' : Run Flow} (h : R Flow again again') (f : Flow) :
    R Flow (Meaning.proceed again f) (Meaning.proceed again' f) := by
  cases f with
  | next | continued => exact h
  | broken | returned => exact L.pure _

theorem round {c c' : Run Bool} {b b' again again' : Run Flow} (hc : R Bool c c') (hb : R Flow b b')
    (h : R Flow again again') : R Flow (Meaning.round c b again) (Meaning.round c' b' again') := by
  refine L.bind hc fun more => ?_
  cases more with
  | true => exact L.bind hb (L.proceed h)
  | false => exact L.pure _

theorem loop {c c' : Run Bool} {b b' : Run Flow} (hc : R Bool c c') (hb : R Flow b b') (n : Nat) :
    R Flow (Meaning.loop c b n) (Meaning.loop c' b' (n + k)) := by
  induction n with
  | zero =>
    cases k with
    | zero => exact L.round hc hb (L.stop fun _ => rfl)
    | succ => exact L.round hc hb (L.stop nofun)
  | succ n ih =>
    rw [Nat.succ_add]
    exact L.round hc hb ih

theorem each {v v' : Nat → Run Flow} (hv : ∀ i, R Flow (v i) (v' i)) (n : Nat) (is : List Nat) :
    R Flow (Meaning.each v n is) (Meaning.each v' (n + k) is) := by
  induction is generalizing n with
  | nil =>
    simp only [Meaning.each]
    exact L.pure _
  | cons i is ih =>
    cases n with
    | zero =>
      cases k with
      | zero => exact L.bind (hv i) (L.proceed (L.stop fun _ => rfl))
      | succ => exact L.bind (hv i) (L.proceed (L.stop nofun))
    | succ n =>
      rw [Nat.succ_add]
      exact L.bind (hv i) (L.proceed (ih n))

theorem below {id : Int} (h : F.reads id) (stop : Datum) :
    R Bool (Meaning.below id stop) (Meaning.below id stop) :=
  L.bind (L.load h) fun _ => L.bind (L.orFault _) fun _ => L.orFault _

theorem advance {id : Int} (hr : F.reads id) (hw : F.writes id) (step : Datum) :
    R Unit (Meaning.advance id step) (Meaning.advance id step) :=
  L.bind (L.load hr) fun _ => L.bind (L.orFault _) fun _ => L.store _ hw

theorem stepping {id : Int} (hr : F.reads id) (hw : F.writes id) (step : Datum) (f : Flow) :
    R Flow (Meaning.stepping id step f) (Meaning.stepping id step f) := by
  cases f with
  | next | continued => exact L.bind (L.advance hr hw step) fun _ => L.pure _
  | broken | returned => exact L.pure _

theorem result (f : Flow) : R Datum (Meaning.result f) (Meaning.result f) := by
  cases f with
  | next | returned => exact L.pure _
  | broken | continued => exact L.throw .fault

variable {M : Machine} {call call' : Int → List Datum → Run Datum}

mutual

theorem eval (hcall : CallsRelated R F call call') (e : Expr) (h : F.Covers e.nodes) :
    R Datum (Meaning.eval M call e) (Meaning.eval M call' e) := by
  match e with
  | .var i id => exact L.load ((h.here rfl).1 id List.mem_cons_self)
  | .const i id => exact L.orFault _
  | .literal i v => exact L.pure _
  | .binary i op l r =>
    rw [Meaning.eval, Meaning.eval]
    have hl := eval hcall l (h.child List.mem_cons_self)
    have hr := eval hcall r (h.child (List.mem_cons_of_mem _ List.mem_cons_self))
    exact L.bind hl fun _ => L.bind hr fun _ => L.orFault _
  | .unary i op e =>
    rw [Meaning.eval, Meaning.eval]
    exact L.bind (eval hcall e (h.child List.mem_cons_self)) fun _ => L.orFault _
  | .assign i op l r =>
    rw [Meaning.eval, Meaning.eval]
    have hl := pathTo hcall l (h.child List.mem_cons_self)
    have hr := eval hcall r (h.child (List.mem_cons_of_mem _ List.mem_cons_self))
    obtain ⟨hreads, hwrites, -⟩ := h.here rfl
    refine L.bind hr fun _ => L.bind hl fun _ => ?_
    cases hroot : root? l with
    | none => exact L.throw .fault
    | some id =>
      have hid : id ∈ (root? l).toList := by rw [hroot]; exact List.mem_cons_self
      exact L.assign (hreads id hid) (hwrites id hid) ..
  | .cast i t as =>
    rw [Meaning.eval, Meaning.eval]
    exact L.bind (evalAll hcall as fun a ha => h.child (List.mem_cons_of_mem _ ha)) fun _ => L.orFault _
  | .ternary i c t f =>
    rw [Meaning.eval, Meaning.eval]
    have hc := eval hcall c (h.child (by simp [Expr.children]))
    have ht := eval hcall t (h.child (by simp [Expr.children]))
    have hf := eval hcall f (h.child (by simp [Expr.children]))
    refine L.bind hc fun _ => L.bind (L.orFault _) fun b => ?_
    cases b with
    | true => exact ht
    | false => exact hf
  | .index i b is =>
    rw [Meaning.eval, Meaning.eval]
    have hb := eval hcall b (h.child List.mem_cons_self)
    have his := items hcall is fun a ha => h.child (List.mem_cons_of_mem _ ha)
    exact L.bind hb fun _ => L.bind his fun _ => L.orFault _
  | .swizzle i b s =>
    rw [Meaning.eval, Meaning.eval]
    exact L.bind (eval hcall b (h.child List.mem_cons_self)) fun _ => L.orFault _
  | .call i t as =>
    have has := evalAll hcall as fun a ha => h.child (List.mem_cons_of_mem _ ha)
    cases t with
    | function j id =>
      have hid : F.calls id := (h.here rfl).2.2 id List.mem_cons_self
      rw [Meaning.eval, Meaning.eval]
      exact L.bind has fun ds => hcall id hid ds
    | _ => exact L.throw .fault
  | .intrinsic i f as =>
    rw [Meaning.eval, Meaning.eval]
    exact L.bind (evalAll hcall as fun a ha => h.child ha) fun _ => L.orFault _
  | .absent | .name .. | .member .. | .method .. | .function .. | .intrinsicRef .. | .structRef ..
  | .typeRef .. => exact L.throw .fault

theorem evalAll (hcall : CallsRelated R F call call') (es : List Expr) (h : ∀ e ∈ es, F.Covers e.nodes) :
    R (List Datum) (Meaning.evalAll M call es) (Meaning.evalAll M call' es) := by
  match es with
  | [] => exact L.pure _
  | e :: es =>
    rw [Meaning.evalAll, Meaning.evalAll]
    have he := eval hcall e (h e List.mem_cons_self)
    have hes := evalAll hcall es fun a ha => h a (List.mem_cons_of_mem _ ha)
    exact L.bind he fun _ => L.bind hes fun _ => L.pure _

theorem pathTo (hcall : CallsRelated R F call call') (e : Expr) (h : F.Covers e.nodes) :
    R (List Access) (Meaning.pathTo M call e) (Meaning.pathTo M call' e) := by
  match e with
  | .var .. => exact L.pure _
  | .index i b is =>
    rw [Meaning.pathTo, Meaning.pathTo]
    have hb := pathTo hcall b (h.child List.mem_cons_self)
    have his := items hcall is fun a ha => h.child (List.mem_cons_of_mem _ ha)
    exact L.bind hb fun _ => L.bind his fun _ => L.pure _
  | .swizzle i b s =>
    rw [Meaning.pathTo, Meaning.pathTo]
    exact L.bind (pathTo hcall b (h.child List.mem_cons_self)) fun _ => L.pure _
  | .absent | .name .. | .const .. | .literal .. | .binary .. | .unary .. | .assign .. | .cast ..
  | .ternary .. | .member .. | .call .. | .method .. | .intrinsic .. | .function .. | .intrinsicRef ..
  | .structRef .. | .typeRef .. => exact L.throw .fault

theorem items (hcall : CallsRelated R F call call') (es : List Expr) (h : ∀ e ∈ es, F.Covers e.nodes) :
    R (List Access) (Meaning.items M call es) (Meaning.items M call' es) := by
  match es with
  | [] => exact L.pure _
  | e :: es =>
    rw [Meaning.items, Meaning.items]
    have he := eval hcall e (h e List.mem_cons_self)
    have hes := items hcall es fun a ha => h a (List.mem_cons_of_mem _ ha)
    exact L.bind he fun _ => L.bind (L.orFault _) fun _ => L.bind hes fun _ => L.pure _

end

theorem condition (hcall : CallsRelated R F call call') (e : Expr) (h : F.Covers e.nodes) :
    R Bool (Meaning.condition M call e) (Meaning.condition M call' e) :=
  L.bind (L.eval hcall e h) fun _ => L.orFault _

mutual

theorem exec (hcall : CallsRelated R F call call') (n : Nat) (s : Stmt) (h : F.Covers s.nodes) :
    R Flow (Meaning.exec M call n s) (Meaning.exec M call' (n + k) s) := by
  match s with
  | .expr i e =>
    rw [Meaning.exec, Meaning.exec]
    exact L.bind (L.eval hcall e (h.expr List.mem_cons_self)) fun _ => L.pure _
  | .letVar i d =>
    rw [Meaning.exec, Meaning.exec]
    have hd : F.writes d.id := (h.hereStmt rfl).2.1 d.id List.mem_cons_self
    have hinit := L.eval (M := M) hcall d.init (h.expr (by simp [Stmt.ownExprs]))
    refine L.bind ?_ fun x => L.bind (L.store x hd) fun _ => L.pure _
    unfold initial
    by_cases ha : d.init.isAbsent
    · rw [if_pos ha, if_pos ha]
      exact L.pure _
    · rw [if_neg ha, if_neg ha]
      exact L.bind hinit fun _ => L.pure _
  | .branch i c arms other =>
    rw [Meaning.exec, Meaning.exec]
    have harms (a : Expr × Stmt) (ha : a ∈ arms) : F.Covers a.1.nodes ∧ F.Covers a.2.nodes :=
      ⟨h.expr (List.mem_map_of_mem ha), h.stmt (List.mem_append_left _ (List.mem_map_of_mem ha))⟩
    exact execArms hcall n arms harms (exec hcall n other (h.stmt (by simp [Stmt.children])))
  | .conditional i c body =>
    rw [Meaning.exec, Meaning.exec]
    have hbody := exec hcall n body (h.stmt List.mem_cons_self)
    refine L.bind (L.condition hcall c (h.expr List.mem_cons_self)) fun b => ?_
    cases b with
    | true => exact hbody
    | false => exact L.pure _
  | .forRange i hd body =>
    rw [Meaning.exec, Meaning.exec]
    have hr : F.reads hd.id := (h.hereStmt rfl).1 hd.id List.mem_cons_self
    have hw : F.writes hd.id := (h.hereStmt rfl).2.1 hd.id List.mem_cons_self
    have hstart := L.eval (M := M) hcall hd.start (h.expr (by simp [Stmt.ownExprs]))
    have hstop := L.eval (M := M) hcall hd.stop (h.expr (by simp [Stmt.ownExprs]))
    have hstep := L.eval (M := M) hcall hd.step (h.expr (by simp [Stmt.ownExprs]))
    have hbody := exec hcall n body (h.stmt List.mem_cons_self)
    refine L.bind hstart fun _ => L.bind (L.store _ hw) fun _ => L.bind hstop fun stop => ?_
    refine L.bind ?_ fun step => L.loop (L.below hr stop) (L.bind hbody (L.stepping hr hw step)) n
    unfold step
    by_cases ha : hd.step.isAbsent
    · rw [if_pos ha, if_pos ha]
      exact L.pure _
    · rw [if_neg ha, if_neg ha]
      exact hstep
  | .forEach i hd body =>
    rw [Meaning.exec, Meaning.exec]
    have hw : F.writes hd.id := (h.hereStmt rfl).2.1 hd.id List.mem_cons_self
    have harray := L.eval (M := M) hcall hd.array (h.expr (by simp [Stmt.ownExprs]))
    have hbody := exec hcall n body (h.stmt List.mem_cons_self)
    refine L.bind harray fun _ => L.bind (L.orFault _) fun _ => L.each (fun _ => ?_) n _
    exact L.bind (L.orFault _) fun _ => L.bind (L.store _ hw) fun _ => hbody
  | .loop i c u body =>
    rw [Meaning.exec, Meaning.exec]
    have hbody := exec hcall n body (h.stmt List.mem_cons_self)
    exact L.loop (L.condition hcall c (h.expr (by simp [Stmt.ownExprs]))) hbody n
  | .returnWith i e =>
    rw [Meaning.exec, Meaning.exec]
    refine L.bind ?_ fun _ => L.pure _
    unfold returned
    by_cases ha : e.isAbsent
    · rw [if_pos ha, if_pos ha]
      exact L.pure _
    · rw [if_neg ha, if_neg ha]
      exact L.bind (L.eval hcall e (h.expr List.mem_cons_self)) fun _ => L.pure _
  | .discard .. => exact L.throw .discarded
  | .multi i body =>
    rw [Meaning.exec, Meaning.exec]
    exact execAll hcall n body fun c hc => h.stmt hc
  | .scoped i body =>
    rw [Meaning.exec, Meaning.exec]
    exact exec hcall n body (h.stmt List.mem_cons_self)
  | .breakLoop .. | .continueLoop .. | .absent | .const .. | .alias .. | .option .. | .struct ..
  | .function .. | .external .. | .importFrom .. | .noOp .. => exact L.pure _

theorem execAll (hcall : CallsRelated R F call call') (n : Nat) (ss : List Stmt) (h : ∀ s ∈ ss, F.Covers s.nodes) :
    R Flow (Meaning.execAll M call n ss) (Meaning.execAll M call' (n + k) ss) := by
  match ss with
  | [] => exact L.pure _
  | s :: ss =>
    rw [Meaning.execAll, Meaning.execAll]
    have hss := execAll hcall n ss fun c hc => h c (List.mem_cons_of_mem _ hc)
    refine L.bind (exec hcall n s (h s List.mem_cons_self)) fun f => ?_
    cases f with
    | next => exact hss
    | broken | continued | returned => exact L.pure _

theorem execArms (hcall : CallsRelated R F call call') (n : Nat) (arms : List (Expr × Stmt))
    (h : ∀ a ∈ arms, F.Covers a.1.nodes ∧ F.Covers a.2.nodes) {other other' : Run Flow}
    (hother : R Flow other other') :
    R Flow (Meaning.execArms M call n arms other) (Meaning.execArms M call' (n + k) arms other') := by
  match arms with
  | [] => exact hother
  | (c, s) :: arms =>
    rw [Meaning.execArms, Meaning.execArms]
    obtain ⟨hc, hs⟩ := h (c, s) List.mem_cons_self
    have hexec := exec hcall n s hs
    have harms := execArms hcall n arms (fun a ha => h a (List.mem_cons_of_mem _ ha)) hother
    refine L.bind (L.condition hcall c hc) fun b => ?_
    cases b with
    | true => exact hexec
    | false => exact harms

end

/-- The relation holds of every call of a function that may be called. -/
theorem calls (hM : F.Closed M) (n : Nat) {f : Int} (hf : F.calls f) (args : List Datum) :
    R Datum (M.call n f args) (M.call (n + k) f args) := by
  induction n generalizing f args with
  | zero =>
    apply L.stop
    rintro rfl
    rfl
  | succ n ih =>
    rw [Nat.succ_add, Machine.call, Machine.call]
    cases hfn : M.functions f with
    | none => exact L.throw .fault
    | some fn =>
      obtain ⟨head, body⟩ := fn
      obtain ⟨hparams, hbody⟩ := hM f hf head body hfn
      have hids : ∀ id ∈ head.params.map (·.id), F.writes id := by
        intro id hid
        obtain ⟨p, hp, rfl⟩ := List.mem_map.mp hid
        exact hparams p hp
      have hrun := L.execAll (M := M) (fun f hf args => ih hf args) n body hbody
      exact L.bind (x := Meaning.storeAll _ args) (L.storeAll hids args) fun _ => L.bind hrun L.result

/-- The relation holds of every run of a statement. -/
theorem runs (hM : F.Closed M) (n : Nat) {s : Stmt} (h : F.Covers s.nodes) :
    R Flow (M.exec n s) (M.exec (n + k) s) :=
  L.exec (fun _ hf args => L.calls hM n hf args) n s h

end Logical

end Shading.Meaning
