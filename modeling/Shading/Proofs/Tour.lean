import Mathlib.Data.List.Induction
import Shading.Proofs.Walk

/-! What calls a walk makes to its visitor. A walk is in pre-order, each node is visited once, and a node that the
visitor leaves out takes with it what is inside it and nothing else. -/
namespace Shading

namespace Visitor

variable {σ V : Type} {visit : Visitor σ V} {v w : V} {u : Option V} {m : Option Node} {n : Node} {s s₁ s₂ s₃ : σ}
  {children : V → StateM σ Unit}

theorem around_pruned (h : (visit v (some n)).run s = (none, s₁)) :
    (visit.around v n children).run s = ((), s₁) := by
  simp only [around, StateT.run_bind, h]
  rfl

theorem around_kept (h : (visit v (some n)).run s = (some w, s₁))
    (hbelow : (children w).run s₁ = ((), s₂)) (hleave : (visit w none).run s₂ = (u, s₃)) :
    (visit.around v n children).run s = ((), s₃) := by
  simp only [around, StateT.run_bind, h]
  change (((children w).run s₁ >>= fun p => (discard (visit w none)).run p.2) : Id _) = _
  rw [hbelow]
  change (discard (visit w none)).run s₂ = _
  simp only [discard, map_const, Function.comp_apply, StateT.run_map, hleave]
  rfl

theorem run_logged (h : (visit v m).run s = (u, s₁)) (log : List (V × Option Node)) :
    (visit.logged v m).run (s, log) = (u, (s₁, log ++ [(v, m)])) := by
  change ((((visit v m).run s).1, ((visit v m).run s).2, log ++ [(v, m)]) : _ × _ × _) = _
  rw [h]

theorem keeping_isSome (keep : Node → Bool) (v : Unit) (n : Node) (s : Unit) :
    ((keeping keep v (some n)).run s).1.isSome = keep n := by
  change (if keep n then some () else none).isSome = keep n
  cases keep n <;> rfl

end Visitor

namespace Node

def isPresent : Node → Bool
  | .expr e => e.isPresent
  | .stmt s => !s.isAbsent

/-- The nodes in a list of places. -/
def present (ns : List Node) : List Node := ns.filter isPresent

/-- All places for a node in a node, whether there is one in it or not, in the order of the walk. -/
def places : Node → List Node
  | .expr e => e.children.map .expr
  | .stmt (.branch _ _ arms other) => arms.flatMap (fun a => [.expr a.1, .stmt a.2]) ++ [.stmt other]
  | .stmt s => s.ownExprs.map .expr ++ s.children.map .stmt

/-- The nodes directly inside a node. -/
def fields (n : Node) : List Node := present n.places

/-- The node at an address: a list of numbers, each of which counts the nodes directly inside the one before. The
first number counts the given nodes. -/
def at? (ns : List Node) : List Nat → Option Node
  | [] => none
  | i :: p =>
    match ns[i]? with
    | none => none
    | some n => if p.isEmpty then some n else at? n.fields p

end Node

/-- A call of a visitor, with the address of the node that it is made for. -/
structure Call (V : Type) where
  address : List Nat
  visitor : V
  node : Option Node

namespace Call

variable {V : Type}

/-- What the visitor sees of the call. -/
def made (c : Call V) : V × Option Node := (c.visitor, c.node)

/-- The addresses of the nodes that are visited. -/
def entered (calls : List (Call V)) : List (List Nat) := (calls.filter (·.node.isSome)).map address

/-- The addresses of the nodes that get a closing visit. -/
def left (calls : List (Call V)) : List (List Nat) := (calls.filter (·.node.isNone)).map address

variable {a : List Nat} {v : V} {n : Node} {as bs calls : List (Call V)}

theorem entered_subset : entered calls ⊆ calls.map address := List.map_subset _ List.filter_sublist.subset

theorem left_subset : left calls ⊆ calls.map address := List.map_subset _ List.filter_sublist.subset

@[simp] theorem entered_append : entered (as ++ bs) = entered as ++ entered bs := by simp [entered]

@[simp] theorem entered_enter : entered (⟨a, v, some n⟩ :: calls) = a :: entered calls := by simp [entered]

@[simp] theorem entered_leave : entered (⟨a, v, none⟩ :: calls) = entered calls := by simp [entered]

@[simp] theorem left_append : left (as ++ bs) = left as ++ left bs := by simp [left]

@[simp] theorem left_enter : left (⟨a, v, some n⟩ :: calls) = left calls := by simp [left]

@[simp] theorem left_leave : left (⟨a, v, none⟩ :: calls) = a :: left calls := by simp [left]

end Call

section Tours

variable {σ V : Type} (visit : Visitor σ V)

/-- The calls of a walk through a list of nodes that stand below the address `p`, the first of them in place `i`. -/
inductive Tours : List Nat → Nat → V → List Node → σ → σ → List (Call V) → Prop
  | nil (p : List Nat) (i : Nat) (v : V) (s : σ) : Tours p i v [] s s []
  | pruned {p : List Nat} {i : Nat} {v : V} {n : Node} {ns : List Node} {s s₁ s₂ : σ} {rest : List (Call V)}
    (henter : (visit v (some n)).run s = (none, s₁)) (hrest : Tours p (i + 1) v ns s₁ s₂ rest) :
    Tours p i v (n :: ns) s s₂ (⟨p ++ [i], v, some n⟩ :: rest)
  | kept {p : List Nat} {i : Nat} {v w : V} {u : Option V} {n : Node} {ns : List Node} {s s₁ s₂ s₃ s₄ : σ}
    {inner rest : List (Call V)} (henter : (visit v (some n)).run s = (some w, s₁))
    (hinner : Tours (p ++ [i]) 0 w n.fields s₁ s₂ inner) (hleave : (visit w none).run s₂ = (u, s₃))
    (hrest : Tours p (i + 1) v ns s₃ s₄ rest) :
    Tours p i v (n :: ns) s s₄ (⟨p ++ [i], v, some n⟩ :: (inner ++ ⟨p ++ [i], w, none⟩ :: rest))

end Tours

section Laws

variable {σ V : Type} (visit : Visitor σ V)

namespace Node

/-- The walk through a list of places. -/
def tourAll (v : V) : List Node → StateM σ Unit
  | [] => pure ()
  | n :: ns => do n.tour visit v; tourAll v ns

theorem tourAll_append (v : V) (as bs : List Node) :
    tourAll visit v (as ++ bs) = (do tourAll visit v as; tourAll visit v bs) := by
  induction as with
  | nil => simp [tourAll]
  | cons n as ih => simp [tourAll, ih]

theorem tour_of_absent (v : V) {n : Node} (h : n.isPresent = false) : n.tour visit v = pure () := by
  cases n with
  | expr e => cases e <;> first | rfl | cases h
  | stmt s => cases s <;> first | rfl | cases h

theorem tourAll_present (v : V) (ns : List Node) : tourAll visit v (present ns) = tourAll visit v ns := by
  induction ns with
  | nil => rfl
  | cons n ns ih =>
    cases hn : n.isPresent with
    | true => simp [present, hn, tourAll, ← ih]
    | false => simp [present, hn, tourAll, ← ih, tour_of_absent visit v hn]

end Node

theorem Expr.tourAll_eq (v : V) (es : List Expr) : tourAll visit v es = Node.tourAll visit v (es.map .expr) := by
  induction es with
  | nil => rfl
  | cons e es ih => simp [tourAll, Node.tourAll, Node.tour, ih]

theorem Expr.tour_eq (v : V) {e : Expr} (h : e.isPresent = true) :
    e.tour visit v = visit.around v (.expr e) fun w => Node.tourAll visit w (Node.expr e).places := by
  cases e with
  | absent => cases h
  | _ => simp [tour, Node.places, children, Node.tourAll, Node.tour, tourAll_eq]

namespace Stmt

theorem tourAll_eq (v : V) (ss : List Stmt) : tourAll visit v ss = Node.tourAll visit v (ss.map .stmt) := by
  induction ss with
  | nil => rfl
  | cons s ss ih => simp [tourAll, Node.tourAll, Node.tour, ih]

theorem tourArms_eq (v : V) (arms : List (Expr × Stmt)) :
    tourArms visit v arms = Node.tourAll visit v (arms.flatMap fun a => [.expr a.1, .stmt a.2]) := by
  induction arms with
  | nil => rfl
  | cons a arms ih => simp [tourArms, Node.tourAll, Node.tour, ih]

theorem forM_eq {α : Type} {f : α → StateM σ Unit} {g : α → List Expr} (v : V)
    (h : ∀ a, f a = Node.tourAll visit v ((g a).map .expr)) (as : List α) :
    as.forM f = Node.tourAll visit v ((as.flatMap g).map .expr) := by
  induction as with
  | nil => rfl
  | cons a as ih =>
    change (do f a; as.forM f) = _
    rw [h, ih, List.flatMap_cons, List.map_append, Node.tourAll_append]

theorem tourHead_eq (v : V) (h : FnHead) : tourHead visit v h = Node.tourAll visit v ((headExprs h).map .expr) := by
  have hparams := forM_eq visit (f := fun p : FnParam => p.type.tour visit v) (g := fun p => [p.type]) v
    (by simp [Node.tourAll, Node.tour]) h.params
  rw [← List.map_eq_flatMap] at hparams
  simp only [tourHead, hparams]
  simp [headExprs, Node.tourAll, Node.tour, Node.tourAll_append]

theorem tour_eq (v : V) {s : Stmt} (h : s.isAbsent = false) :
    s.tour visit v = visit.around v (.stmt s) fun w => Node.tourAll visit w (Node.stmt s).places := by
  have hmembers (w : V) := forM_eq visit (f := tourMember visit w) (g := memberExprs) w
    (by simp [tourMember, memberExprs, Node.tourAll, Node.tour])
  have hvars (w : V) := forM_eq visit (f := tourExternal visit w) (g := externalExprs) w
    (by simp [tourExternal, externalExprs, Node.tourAll, Node.tour])
  cases s with
  | absent => cases h
  | _ =>
    simp [tour, Node.places, ownExprs, children, Node.tourAll, Node.tour, tourAll_eq, tourArms_eq, tourHead_eq,
      hmembers, hvars, Node.tourAll_append]

end Stmt

/-- A walk calls the visitor for a node, walks through what is directly inside it and closes the visit. -/
theorem Node.tour_eq (v : V) {n : Node} (h : n.isPresent = true) :
    n.tour visit v = visit.around v n fun w => Node.tourAll visit w n.fields := by
  simp only [fields, tourAll_present]
  cases n with
  | expr e => exact Expr.tour_eq visit v h
  | stmt s => exact Stmt.tour_eq visit v (by simpa [isPresent] using h)

end Laws

theorem Node.mem_places {s : Stmt} {n : Node} (h : n ∈ (Node.stmt s).places) :
    (∃ e, n = .expr e) ∨ ∃ t ∈ s.children, n = .stmt t := by
  cases s with
  | branch s c arms other =>
    simp only [places, List.mem_append, List.mem_flatMap, List.mem_cons, List.not_mem_nil, or_false] at h
    rcases h with ⟨a, ha, rfl | rfl⟩ | rfl
    · exact .inl ⟨a.1, rfl⟩
    · exact .inr ⟨a.2, List.mem_append_left _ (List.mem_map_of_mem ha), rfl⟩
    · exact .inr ⟨other, List.mem_append_right _ (List.mem_singleton_self _), rfl⟩
  | _ =>
    simp only [places, List.mem_append, List.mem_map] at h
    rcases h with ⟨e, -, rfl⟩ | ⟨t, ht, rfl⟩
    · exact .inl ⟨e, rfl⟩
    · exact .inr ⟨t, ht, rfl⟩

theorem Node.isPresent_of_mem_fields {n c : Node} (h : c ∈ n.fields) : c.isPresent = true := (List.mem_filter.mp h).2

/-- What holds of a node if it holds of those directly inside it holds of every node. -/
theorem Node.induction_fields {P : Node → Prop} (h : ∀ n : Node, (∀ c ∈ n.fields, P c) → P n) (n : Node) : P n := by
  have hexpr (e : Expr) : P (.expr e) := by
    induction e using Expr.induction_children with
    | h e ih =>
      refine h _ fun c hc => ?_
      obtain ⟨f, hf, rfl⟩ := List.mem_map.mp (List.mem_filter.mp hc).1
      exact ih f hf
  cases n with
  | expr e => exact hexpr e
  | stmt s =>
    induction s using Stmt.induction_children with
    | h s ih =>
      refine h _ fun c hc => ?_
      rcases Node.mem_places (List.mem_filter.mp hc).1 with ⟨e, rfl⟩ | ⟨t, ht, rfl⟩
      · exact hexpr e
      · exact ih t ht

namespace Tours

variable {σ V : Type} {visit : Visitor σ V} {p : List Nat} {i : Nat} {v : V} {ns : List Node} {s s' : σ}
  {calls : List (Call V)}

theorem exists_of_fields (h : ∀ n ∈ ns, ∀ p i v s, ∃ s' calls, Tours visit p i v n.fields s s' calls)
    (p : List Nat) (i : Nat) (v : V) (s : σ) : ∃ s' calls, Tours visit p i v ns s s' calls := by
  induction ns generalizing i s with
  | nil => exact ⟨s, [], .nil p i v s⟩
  | cons n ns ih =>
    have hrest := ih fun c hc => h c (List.mem_cons_of_mem n hc)
    rcases hanswer : (visit v (some n)).run s with ⟨w, s₁⟩
    cases w with
    | none =>
      obtain ⟨s₂, rest, hrest⟩ := hrest (i + 1) s₁
      exact ⟨s₂, _, .pruned hanswer hrest⟩
    | some w =>
      obtain ⟨s₂, inner, hinner⟩ := h n List.mem_cons_self (p ++ [i]) 0 w s₁
      rcases hclose : (visit w none).run s₂ with ⟨u, s₃⟩
      obtain ⟨s₄, rest, hrest⟩ := hrest (i + 1) s₃
      exact ⟨s₄, _, .kept hanswer hinner hclose hrest⟩

theorem exists_tours (visit : Visitor σ V) (p : List Nat) (i : Nat) (v : V) (ns : List Node) (s : σ) :
    ∃ s' calls, Tours visit p i v ns s s' calls := by
  have hfields (n : Node) : ∀ p i v s, ∃ s' calls, Tours visit p i v n.fields s s' calls := by
    induction n using Node.induction_fields with
    | h n ih => exact exists_of_fields ih
  exact exists_of_fields (fun n _ => hfields n) p i v s

/-- A walk ends in the state that its calls lead to. -/
theorem run_eq (h : Tours visit p i v ns s s' calls) (hns : ∀ n ∈ ns, n.isPresent = true) :
    (Node.tourAll visit v ns).run s = ((), s') := by
  induction h with
  | nil => rfl
  | pruned henter hrest ih =>
    obtain ⟨hn, hns⟩ := List.forall_mem_cons.mp hns
    rw [Node.tourAll, Node.tour_eq visit _ hn, StateT.run_bind, Visitor.around_pruned henter]
    exact ih hns
  | kept henter hinner hleave hrest ihinner ih =>
    obtain ⟨hn, hns⟩ := List.forall_mem_cons.mp hns
    have hbelow := ihinner fun c => Node.isPresent_of_mem_fields
    rw [Node.tourAll, Node.tour_eq visit _ hn, StateT.run_bind, Visitor.around_kept henter hbelow hleave]
    exact ih hns

theorem logged (h : Tours visit p i v ns s s' calls) (log : List (V × Option Node)) :
    Tours visit.logged p i v ns (s, log) (s', log ++ calls.map Call.made) calls := by
  induction h generalizing log with
  | nil p i v s => simpa using Tours.nil p i v (s, log)
  | @pruned p i v n ns s s₁ s₂ rest henter hrest ih =>
    have hcall : (visit.logged v (some n)).run (s, log) = (none, (s₁, log ++ [(v, some n)])) :=
      Visitor.run_logged henter log
    simpa [Call.made] using Tours.pruned hcall (ih (log ++ [(v, some n)]))
  | @kept p i v w u n ns s s₁ s₂ s₃ s₄ inner rest henter hinner hleave hrest ihinner ih =>
    have hcall : (visit.logged v (some n)).run (s, log) = (some w, (s₁, log ++ [(v, some n)])) :=
      Visitor.run_logged henter log
    have hclose (log' : List (V × Option Node)) :
        (visit.logged w none).run (s₂, log') = (u, (s₃, log' ++ [(w, none)])) := Visitor.run_logged hleave log'
    simpa [Call.made] using Tours.kept hcall (ihinner _) (hclose _) (ih _)

/-- Every call is made for a node below the address of the list, and for the one that stands at its address. -/
theorem address_eq (h : Tours visit p i v ns s s' calls) : ∀ c ∈ calls, ∃ k q, c.address = p ++ (i + k) :: q ∧
    ∀ m, c.node = some m → Node.at? ns (k :: q) = some m := by
  induction h with
  | nil => exact fun c hc => absurd hc List.not_mem_nil
  | @pruned p i v n ns s s₁ s₂ rest henter hrest ih =>
    rintro c (_ | ⟨_, hc⟩)
    · exact ⟨0, [], rfl, fun m hm => by simpa [Node.at?] using hm⟩
    · obtain ⟨k, q, haddress, hat⟩ := ih c hc
      exact ⟨k + 1, q, by rw [haddress, Nat.add_right_comm]; rfl, fun m hm => by simpa [Node.at?] using hat m hm⟩
  | @kept p i v w u n ns s s₁ s₂ s₃ s₄ inner rest henter hinner hleave hrest ihinner ih =>
    simp only [List.mem_cons, List.mem_append]
    rintro c (rfl | hc | rfl | hc)
    · exact ⟨0, [], rfl, fun m hm => by simpa [Node.at?] using hm⟩
    · obtain ⟨k, q, haddress, hat⟩ := ihinner c hc
      exact ⟨0, k :: q, by simp [haddress], fun m hm => by simpa [Node.at?] using hat m hm⟩
    · exact ⟨0, [], rfl, fun m hm => by cases hm⟩
    · obtain ⟨k, q, haddress, hat⟩ := ih c hc
      exact ⟨k + 1, q, by rw [haddress, Nat.add_right_comm]; rfl, fun m hm => by simpa [Node.at?] using hat m hm⟩

theorem mem_address (h : Tours visit p i v ns s s' calls) {a : List Nat} (ha : a ∈ calls.map Call.address) :
    ∃ k q, a = p ++ (i + k) :: q := by
  obtain ⟨c, hc, rfl⟩ := List.mem_map.mp ha
  obtain ⟨k, q, haddress, -⟩ := h.address_eq c hc
  exact ⟨k, q, haddress⟩

/-- The calls for later nodes are not made below an earlier one. -/
theorem not_mem_before (h : Tours visit p (i + 1) v ns s s' calls) (q : List Nat) :
    p ++ i :: q ∉ calls.map Call.address := by
  intro hmem
  obtain ⟨k, r, heq⟩ := h.mem_address hmem
  simp only [List.append_cancel_left_eq, List.cons.injEq] at heq
  omega

/-- The calls below a node are not made for it or for a later one. -/
theorem not_mem_inside (h : Tours visit (p ++ [i]) 0 v ns s s' calls) {a : List Nat}
    (ha : a = p ++ [i] ∨ ∃ k q, a = p ++ (i + 1 + k) :: q) : a ∉ calls.map Call.address := by
  intro hmem
  obtain ⟨k, r, rfl⟩ := h.mem_address hmem
  rcases ha with heq | ⟨k', q, heq⟩
  · simp at heq
  · simp only [List.append_assoc, List.append_cancel_left_eq, List.singleton_append, List.cons.injEq] at heq
    omega

/-- No node is visited twice. -/
theorem entered_nodup (h : Tours visit p i v ns s s' calls) : (Call.entered calls).Nodup := by
  induction h with
  | nil => exact List.nodup_nil
  | pruned henter hrest ih =>
    rw [Call.entered_enter, List.nodup_cons]
    exact ⟨fun hmem => hrest.not_mem_before [] (Call.entered_subset hmem), ih⟩
  | kept henter hinner hleave hrest ihinner ih =>
    rw [Call.entered_enter, Call.entered_append, Call.entered_leave, List.nodup_cons, List.nodup_append]
    refine ⟨fun hmem => ?_, ihinner, ih, fun a ha b hb hab => ?_⟩
    · rcases List.mem_append.mp hmem with hmem | hmem
      · exact hinner.not_mem_inside (.inl rfl) (Call.entered_subset hmem)
      · exact hrest.not_mem_before [] (Call.entered_subset hmem)
    · exact hinner.not_mem_inside (.inr (hrest.mem_address (Call.entered_subset hb))) (hab ▸ Call.entered_subset ha)

/-- Every node of the list is visited. -/
theorem top_entered (h : Tours visit p i v ns s s' calls) {k : Nat} (hk : k < ns.length) :
    p ++ [i + k] ∈ Call.entered calls := by
  induction h generalizing k with
  | nil => cases hk
  | pruned henter hrest ih =>
    rw [Call.entered_enter, List.mem_cons]
    cases k with
    | zero => exact .inl rfl
    | succ k =>
      have hmem := ih (Nat.lt_of_succ_lt_succ hk)
      rw [Nat.add_right_comm] at hmem
      exact .inr hmem
  | kept henter hinner hleave hrest ihinner ih =>
    rw [Call.entered_enter, Call.entered_append, Call.entered_leave, List.mem_cons, List.mem_append]
    cases k with
    | zero => exact .inl rfl
    | succ k =>
      have hmem := ih (Nat.lt_of_succ_lt_succ hk)
      rw [Nat.add_right_comm] at hmem
      exact .inr (.inr hmem)

/-- A node inside another one is visited if and only if the visit of the other is closed. -/
theorem entered_iff (h : Tours visit p i v ns s s' calls) {k j : Nat} {q : List Nat}
    (hat : (Node.at? ns (k :: (q ++ [j]))).isSome = true) :
    p ++ (i + k) :: (q ++ [j]) ∈ Call.entered calls ↔ p ++ (i + k) :: q ∈ Call.left calls := by
  induction h generalizing k q with
  | nil => simp [Node.at?] at hat
  | @pruned p i v n ns s s₁ s₂ rest henter hrest ih =>
    rw [Call.entered_enter, Call.left_enter, List.mem_cons, or_iff_right (by simp)]
    cases k with
    | zero =>
      exact iff_of_false (fun hmem => hrest.not_mem_before _ (Call.entered_subset hmem))
        fun hmem => hrest.not_mem_before _ (Call.left_subset hmem)
    | succ k =>
      have hiff := ih (k := k) (q := q) (by simpa [Node.at?] using hat)
      rwa [Nat.add_right_comm] at hiff
  | @kept p i v w u n ns s s₁ s₂ s₃ s₄ inner rest henter hinner hleave hrest ihinner ih =>
    rw [Call.entered_enter, Call.entered_append, Call.entered_leave, Call.left_enter, Call.left_append, Call.left_leave,
      List.mem_cons, or_iff_right (by simp), List.mem_append, List.mem_append, List.mem_cons]
    cases k with
    | zero =>
      have hentered : p ++ (i + 0) :: (q ++ [j]) ∉ Call.entered rest := fun hmem =>
        hrest.not_mem_before _ (Call.entered_subset hmem)
      have hleft : p ++ (i + 0) :: q ∉ Call.left rest := fun hmem =>
        hrest.not_mem_before _ (Call.left_subset hmem)
      rw [or_iff_left hentered]
      have hbelow : (Node.at? n.fields (q ++ [j])).isSome = true := by simpa [Node.at?] using hat
      cases q with
      | nil =>
        have hj : j < n.fields.length := by
          rcases Nat.lt_or_ge j n.fields.length with hj | hge
          · exact hj
          · simp [Node.at?, List.getElem?_eq_none hge] at hbelow
        exact iff_of_true (by simpa using hinner.top_entered hj) (.inr (.inl rfl))
      | cons k q =>
        have hiff := ihinner (k := k) (q := q) (by simpa using hbelow)
        simp only [List.append_assoc, List.singleton_append, Nat.zero_add] at hiff
        rw [or_iff_left (by simpa using hleft)]
        exact hiff
    | succ k =>
      have hiff := ih (k := k) (q := q) (by simpa [Node.at?] using hat)
      have hentered : p ++ (i + 1 + k) :: (q ++ [j]) ∉ Call.entered inner := fun hmem =>
        hinner.not_mem_inside (.inr ⟨k, _, rfl⟩) (Call.entered_subset hmem)
      have hleft : p ++ (i + 1 + k) :: q ∉ Call.left inner := fun hmem =>
        hinner.not_mem_inside (.inr ⟨k, _, rfl⟩) (Call.left_subset hmem)
      rw [show i + 1 + k = i + (k + 1) from Nat.add_right_comm ..] at hiff hentered hleft
      rw [or_iff_right hentered, or_iff_right hleft, or_iff_right (by simp)]
      exact hiff

/-- A visit that is closed was made. -/
theorem left_subset_entered (h : Tours visit p i v ns s s' calls) : Call.left calls ⊆ Call.entered calls := by
  induction h with
  | nil => exact List.Subset.refl _
  | pruned henter hrest ih =>
    rw [Call.entered_enter, Call.left_enter]
    exact fun a ha => List.mem_cons_of_mem _ (ih ha)
  | kept henter hinner hleave hrest ihinner ih =>
    rw [Call.entered_enter, Call.entered_append, Call.entered_leave, Call.left_enter, Call.left_append, Call.left_leave]
    intro a ha
    rcases List.mem_append.mp ha with ha | ha
    · exact List.mem_cons_of_mem _ (List.mem_append_left _ (ihinner ha))
    · rcases List.mem_cons.mp ha with rfl | ha
      · exact List.mem_cons_self
      · exact List.mem_cons_of_mem _ (List.mem_append_right _ (ih ha))

/-- A visitor that leaves nothing out closes every visit. -/
theorem entered_subset_left (h : Tours visit p i v ns s s' calls)
    (hkeeps : ∀ w m t, ((visit w (some m)).run t).1.isSome = true) : Call.entered calls ⊆ Call.left calls := by
  induction h with
  | nil => exact List.Subset.refl _
  | @pruned p i v n ns s s₁ s₂ rest henter hrest ih =>
    have hkept := hkeeps v n s
    rw [henter] at hkept
    cases hkept
  | kept henter hinner hleave hrest ihinner ih =>
    rw [Call.entered_enter, Call.entered_append, Call.entered_leave, Call.left_enter, Call.left_append, Call.left_leave]
    intro a ha
    rcases List.mem_cons.mp ha with rfl | ha
    · exact List.mem_append_right _ List.mem_cons_self
    · rcases List.mem_append.mp ha with ha | ha
      · exact List.mem_append_left _ (ihinner ha)
      · exact List.mem_append_right _ (List.mem_cons_of_mem _ (ih ha))

theorem at?_of_append {ns : List Node} {i j : Nat} {q : List Nat}
    (h : (Node.at? ns (i :: (q ++ [j]))).isSome = true) : (Node.at? ns (i :: q)).isSome = true := by
  induction q generalizing ns i with
  | nil => cases hn : ns[i]? <;> simp_all [Node.at?]
  | cons k q ih =>
    cases hn : ns[i]? with
    | none => simp [Node.at?, hn] at h
    | some n =>
      have hbelow : (Node.at? n.fields (k :: (q ++ [j]))).isSome = true := by simpa [Node.at?, hn] using h
      simpa [Node.at?, hn] using ih hbelow

/-- A visitor that leaves nothing out visits every node. -/
theorem mem_entered (h : Tours visit p i v ns s s' calls)
    (hkeeps : ∀ w m t, ((visit w (some m)).run t).1.isSome = true) {k : Nat} (q : List Nat)
    (hat : (Node.at? ns (k :: q)).isSome = true) : p ++ (i + k) :: q ∈ Call.entered calls := by
  induction q using List.reverseRecOn with
  | nil =>
    refine h.top_entered ?_
    rcases Nat.lt_or_ge k ns.length with hk | hge
    · exact hk
    · simp [Node.at?, List.getElem?_eq_none hge] at hat
  | append_singleton q j ih => exact (h.entered_iff hat).mpr (h.entered_subset_left hkeeps (ih (at?_of_append hat)))

end Tours

/-- The calls that a walk makes are those of a tour. -/
theorem Node.exists_tour {σ V : Type} (visit : Visitor σ V) (v : V) (n : Node) (s : σ) :
    ∃ s' calls, Tours visit [] 0 v (present [n]) s s' calls ∧ (n.tour visit v).run s = ((), s') ∧
      (n.tour visit.logged v).run (s, []) = ((), (s', calls.map Call.made)) := by
  obtain ⟨s', calls, h⟩ := Tours.exists_tours visit [] 0 v (present [n]) s
  have hpresent : ∀ c ∈ present [n], c.isPresent = true := fun c hc => (List.mem_filter.mp hc).2
  have hrun {τ : Type} (visit : Visitor τ V) : tourAll visit v (present [n]) = n.tour visit v := by
    simp [tourAll_present, tourAll]
  refine ⟨s', calls, h, ?_, ?_⟩
  · rw [← hrun visit]
    exact h.run_eq hpresent
  · rw [← hrun visit.logged]
    exact (h.logged []).run_eq hpresent

/-- For every visitor, the calls that a walk makes are those of a tour: each node before its children, and a closing
visit behind the children of each node that is not left out. No node is visited twice, every call is for the node at
its address, and a node inside another one is visited if and only if the other is not left out. If nothing is left
out, every node is visited. -/
theorem Node.tour_visits {σ V : Type} (visit : Visitor σ V) (v : V) (n : Node) (s : σ) :
    ∃ s' calls, Tours visit [] 0 v (present [n]) s s' calls ∧ (n.tour visit v).run s = ((), s') ∧
      (n.tour visit.logged v).run (s, []) = ((), (s', calls.map Call.made)) ∧
      (Call.entered calls).Nodup ∧ Call.left calls ⊆ Call.entered calls ∧
      (∀ c ∈ calls, ∀ m, c.node = some m → at? (present [n]) c.address = some m) ∧
      (∀ i p j, (at? (present [n]) (i :: (p ++ [j]))).isSome = true →
        (i :: (p ++ [j]) ∈ Call.entered calls ↔ i :: p ∈ Call.left calls)) ∧
      ((∀ w m t, ((visit w (some m)).run t).1.isSome = true) →
        ∀ a, (at? (present [n]) a).isSome = true → a ∈ Call.entered calls) := by
  obtain ⟨s', calls, h, hrun, hlogged⟩ := exists_tour visit v n s
  refine ⟨s', calls, h, hrun, hlogged, h.entered_nodup, h.left_subset_entered, fun c hc m hm => ?_,
    fun i p j hat => ?_, fun hkeeps a hat => ?_⟩
  · obtain ⟨k, q, haddress, hat⟩ := h.address_eq c hc
    rw [haddress]
    simpa using hat m hm
  · simpa using h.entered_iff hat
  · cases a with
    | nil => simp [at?] at hat
    | cons k q => simpa using h.mem_entered hkeeps q hat

namespace Expr

variable (keep : Node → Bool)

theorem walkAll_eq (es : List Expr) : walkAll keep es = es.flatMap (walk keep) := by
  induction es with
  | nil => rfl
  | cons e es ih => rw [walkAll, ih, List.flatMap_cons]

theorem walk_eq {e : Expr} (h : e.isPresent = true) :
    e.walk keep = Visit.around keep (.expr e) (e.children.flatMap (walk keep)) := by
  cases e with
  | absent => cases h
  | _ => simp [walk, children, walkAll_eq]

end Expr

/-- The walk through a node. -/
def Node.walk (keep : Node → Bool) : Node → List Visit
  | .expr e => e.walk keep
  | .stmt s => s.walk keep

namespace Stmt

variable (keep : Node → Bool)

theorem walkAll_eq (ss : List Stmt) : walkAll keep ss = ss.flatMap (walk keep) := by
  induction ss with
  | nil => rfl
  | cons s ss ih => rw [walkAll, ih, List.flatMap_cons]

theorem walkArms_eq (arms : List (Expr × Stmt)) :
    walkArms keep arms = (arms.flatMap fun a => [.expr a.1, .stmt a.2]).flatMap (Node.walk keep) := by
  induction arms with
  | nil => rfl
  | cons a arms ih => simp [walkArms, ih, Node.walk]

theorem walk_eq {s : Stmt} (h : s.isAbsent = false) :
    s.walk keep = Visit.around keep (.stmt s) ((Node.stmt s).places.flatMap (Node.walk keep)) := by
  have hmember : walkMember keep = fun m => (memberExprs m).flatMap (Expr.walk keep) :=
    funext fun m => by simp [walkMember, memberExprs, Attr.walk]
  have hexternal : walkExternal keep = fun v => (externalExprs v).flatMap (Expr.walk keep) :=
    funext fun v => by simp [walkExternal, externalExprs, Attr.walk]
  cases s with
  | absent => cases h
  | _ =>
    simp [walk, Node.places, ownExprs, children, Node.walk, walkAll_eq, walkArms_eq, walkHead, headExprs, hmember,
      hexternal, Attr.walk, List.flatMap_map, List.flatMap_assoc]

end Stmt

namespace Node

theorem walk_of_absent (keep : Node → Bool) {n : Node} (h : n.isPresent = false) : n.walk keep = [] := by
  cases n with
  | expr e => cases e <;> first | rfl | cases h
  | stmt s => cases s <;> first | rfl | cases h

theorem walk_present (keep : Node → Bool) (ns : List Node) :
    (present ns).flatMap (walk keep) = ns.flatMap (walk keep) := by
  induction ns with
  | nil => rfl
  | cons n ns ih =>
    cases hn : n.isPresent with
    | true => simp_all [present]
    | false => simp_all [present, walk_of_absent]

theorem walk_eq (keep : Node → Bool) {n : Node} (h : n.isPresent = true) :
    n.walk keep = Visit.around keep n (n.fields.flatMap (walk keep)) := by
  rw [fields, walk_present]
  cases n with
  | expr e =>
    rw [walk, Expr.walk_eq keep h, places, List.flatMap_map]
    rfl
  | stmt s => exact Stmt.walk_eq keep (by simpa [isPresent] using h)

end Node

theorem Tours.nodes_eq {keep : Node → Bool} {p : List Nat} {i : Nat} {v : Unit} {ns : List Node} {s s' : Unit}
    {calls : List (Call Unit)} (h : Tours (.keeping keep) p i v ns s s' calls)
    (hns : ∀ n ∈ ns, n.isPresent = true) : calls.map Call.node = (ns.flatMap (Node.walk keep)).map Visit.node? := by
  induction h with
  | nil => rfl
  | @pruned p i v n ns s s₁ s₂ rest henter hrest ih =>
    obtain ⟨hn, hns⟩ := List.forall_mem_cons.mp hns
    have hkeep : keep n = false := by
      rw [← Visitor.keeping_isSome keep v n s, henter]
      rfl
    simp [Node.walk_eq keep hn, Visit.around, Visit.node?, hkeep, ih hns]
  | @kept p i v w u n ns s s₁ s₂ s₃ s₄ inner rest henter hinner hleave hrest ihinner ih =>
    obtain ⟨hn, hns⟩ := List.forall_mem_cons.mp hns
    have hkeep : keep n = true := by
      rw [← Visitor.keeping_isSome keep v n s, henter]
      rfl
    have hbelow := ihinner fun c => Node.isPresent_of_mem_fields
    simp [Node.walk_eq keep hn, Visit.around, Visit.node?, hkeep, ih hns, hbelow]

/-- A walk that is told which nodes to keep is that of a visitor without a state. -/
theorem Node.walk_eq_tour (keep : Node → Bool) (n : Node) :
    ((n.tour (Visitor.keeping keep).logged ()).run ((), [])).2.2.map Prod.snd = (n.walk keep).map Visit.node? := by
  obtain ⟨s', calls, h, -, hlog⟩ := exists_tour (.keeping keep) () n ()
  have hnodes := h.nodes_eq fun c hc => (List.mem_filter.mp hc).2
  rw [walk_present] at hnodes
  rw [hlog]
  simpa [Call.made, Function.comp_def] using hnodes

end Shading
