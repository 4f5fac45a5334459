import Shading.Proofs.Meaning.Relation
import Shading.Lowering

/-! What runs leave alone: variables that a program does not name, variables that it does not change, and
the number of rounds that are left over. -/
namespace Shading.Meaning

variable {α β : Type}

theorem bind_apply (x : Run α) (f : α → Run β) (σ : Store) :
    (x >>= f) σ = match x σ with
      | none => none
      | some (.ok a, σ') => f a σ'
      | some (.error e, σ') => some (.error e, σ') := by
  change (x σ >>= fun r => ExceptT.bindCont f r.1 r.2) = _
  cases x σ with
  | none => rfl
  | some o =>
    obtain ⟨r, σ'⟩ := o
    cases r <;> rfl

theorem bind_of_ok {x : Run α} {σ σ' : Store} {a : α} (h : x σ = some (.ok a, σ')) (f : α → Run β) :
    (x >>= f) σ = f a σ' := by
  rw [bind_apply, h]

theorem bind_of_error {x : Run α} {σ σ' : Store} {e : Stop} (h : x σ = some (.error e, σ')) (f : α → Run β) :
    (x >>= f) σ = some (.error e, σ') := by
  rw [bind_apply, h]

theorem load_apply (id : Int) (σ : Store) : load id σ = orFault (σ id) σ := rfl

theorem store_apply (id : Int) (d : Option Datum) (σ : Store) :
    store id d σ = some (.ok (), Function.update σ id d) := rfl

@[simp] theorem diverge_bind (f : α → Run β) : diverge >>= f = diverge := by
  funext σ
  rw [bind_apply]
  rfl

-- A run that has a result has the same one if it is given more rounds.

/-- Where the first run has a result, the second one has the same. -/
def Refines (α : Type) (x y : Run α) : Prop := ∀ σ o, x σ = some o → y σ = some o

/-- Everything may be used. -/
def Footprint.everything : Footprint := ⟨fun _ => True, fun _ => True, fun _ => True⟩

theorem Footprint.everything_covers (ns : List Node) : Footprint.everything.Covers ns :=
  fun _ _ => ⟨fun _ _ => trivial, fun _ _ => trivial, fun _ _ => trivial⟩

theorem Footprint.everything_closed (M : Machine) : Footprint.everything.Closed M :=
  fun _ _ _ _ _ => ⟨fun _ _ => trivial, fun _ _ => everything_covers _⟩

theorem Refines.logical (k : Nat) : Logical (k + 1) Refines .everything where
  pure _ _ _ h := h
  throw _ _ _ h := h
  load _ _ _ h := h
  store _ _ _ _ h := h
  stop _ _ _ h := by cases h
  bind {α β x y f g} hx hf σ o h := by
    rw [bind_apply] at h ⊢
    cases hr : x σ with
    | none => simp [hr] at h
    | some p =>
      obtain ⟨r, σ'⟩ := p
      rw [hx σ _ hr]
      cases r with
      | ok a =>
        simp only [hr] at h
        exact hf a σ' o h
      | error e =>
        simp only [hr] at h
        exact h

namespace Machine

variable {M : Machine} {s : Stmt} {σ : Store}

theorem exec_of_le {n m : Nat} {o : Except Stop Flow × Store} (h : M.exec n s σ = some o) (hle : n ≤ m) :
    M.exec m s σ = some o := by
  obtain ⟨k, rfl⟩ := Nat.exists_eq_add_of_le hle
  cases k with
  | zero => exact h
  | succ k => exact (Refines.logical k).runs (Footprint.everything_closed M) n (Footprint.everything_covers _) σ o h

/-- A statement has one end at most. -/
theorem Ends.unique {r r' : Except Stop Flow} {σ₁ σ₂ : Store} (h₁ : M.Ends s σ r σ₁) (h₂ : M.Ends s σ r' σ₂) :
    r = r' ∧ σ₁ = σ₂ := by
  obtain ⟨n, hn⟩ := h₁
  obtain ⟨m, hm⟩ := h₂
  have h := (exec_of_le hn (Nat.le_max_left n m)).symm.trans (exec_of_le hm (Nat.le_max_right n m))
  simpa using h

end Machine

/-- A store whose variables hold what another one says where it says something. -/
def overlay (τ σ : Store) : Store := fun id => (τ id).or (σ id)

theorem overlay_of_none {τ : Store} {id : Int} (h : τ id = none) (σ : Store) : overlay τ σ id = σ id := by
  rw [overlay, h, Option.none_or]

theorem overlay_of_some {τ : Store} {id : Int} {d : Datum} (h : τ id = some d) (σ : Store) :
    overlay τ σ id = some d := by
  rw [overlay, h, Option.some_or]

@[simp] theorem overlay_empty (σ : Store) : overlay (fun _ => none) σ = σ := rfl

theorem overlay_update {τ : Store} {id : Int} (h : τ id = none) (σ : Store) (d : Option Datum) :
    overlay τ (Function.update σ id d) = Function.update (overlay τ σ) id d := by
  funext v
  by_cases hv : v = id
  · subst hv
    rw [overlay_of_none h, Function.update_self, Function.update_self]
  · rw [Function.update_of_ne hv, overlay, overlay, Function.update_of_ne hv]

theorem update_overlay (τ σ : Store) (id : Int) (d : Datum) :
    Function.update (overlay τ σ) id (some d) = overlay (Function.update τ id (some d)) σ := by
  funext v
  by_cases hv : v = id
  · subst hv
    rw [Function.update_self, overlay, Function.update_self, Option.some_or]
  · rw [Function.update_of_ne hv, overlay, overlay, Function.update_of_ne hv]

/-- The second run does with other variables in place what the first one does. -/
def Frame (τ : Store) (α : Type) (x y : Run α) : Prop :=
  ∀ σ, y (overlay τ σ) = (x σ).map (Prod.map id (overlay τ))

theorem Frame.bind {τ : Store} {x y : Run α} {f g : α → Run β} (hx : Frame τ α x y)
    (hf : ∀ a, Frame τ β (f a) (g a)) : Frame τ β (x >>= f) (y >>= g) := by
  intro σ
  rw [bind_apply, bind_apply, hx σ]
  cases hr : x σ with
  | none => rfl
  | some p =>
    obtain ⟨r, σ'⟩ := p
    cases r with
    | ok a => exact hf a σ'
    | error e => rfl

theorem map_overlay_empty (o : Option (Except Stop α × Store)) : o.map (Prod.map id (overlay fun _ => none)) = o := by
  have hid : (Prod.map id (overlay fun _ => none) : Except Stop α × Store → _) = id := rfl
  rw [hid, Option.map_id_fun, id]

/-- With no other variables, a run does what it does itself. -/
theorem Frame.empty (x : Run α) : Frame (fun _ => none) α x x := fun σ => (map_overlay_empty (x σ)).symm

theorem Frame.eq_of_empty {x y : Run α} (h : Frame (fun _ => none) α x y) : y = x := by
  funext σ
  exact (h σ).trans (map_overlay_empty (x σ))

theorem Frame.orFault {τ : Store} (o : Option α) : Frame τ α (orFault o) (orFault o) := by
  cases o <;> exact fun _ => rfl

theorem Frame.load {τ : Store} {id : Int} (h : τ id = none) : Frame τ Datum (load id) (load id) := by
  intro σ
  rw [load_apply, load_apply, overlay_of_none h]
  exact Frame.orFault _ σ

theorem Frame.store {τ : Store} {id : Int} (h : τ id = none) (d : Option Datum) :
    Frame τ Unit (store id d) (store id d) := by
  intro σ
  rw [store_apply, store_apply, ← overlay_update h]
  rfl

theorem Frame.logical {τ : Store} (F : Footprint) (hreads : ∀ v, F.reads v → τ v = none)
    (hwrites : ∀ v, F.writes v → τ v = none) : Logical 0 (Frame τ) F where
  pure _ _ := rfl
  throw _ _ := rfl
  bind := Frame.bind
  load {id} h := Frame.load (hreads id h)
  store {id} d h := Frame.store (hwrites id h) d
  stop h := by
    rw [h rfl]
    intro σ
    rfl

/-- Both runs are the same, and they leave some variables as they are. -/
def Keeps (kept : Int → Prop) (α : Type) (x y : Run α) : Prop :=
  x = y ∧ ∀ σ r σ', x σ = some (r, σ') → ∀ v, kept v → σ' v = σ v

namespace Keeps

variable {kept : Int → Prop}

theorem of_result {x : Run α} {o : Store → Except Stop α} (h : ∀ σ, x σ = some (o σ, σ)) : Keeps kept α x x := by
  refine ⟨rfl, fun σ r σ' hx v _ => ?_⟩
  rw [h σ] at hx
  cases hx
  rfl

theorem orFault (o : Option α) : Keeps kept α (orFault o) (orFault o) := by
  cases o with
  | none => exact of_result fun _ => rfl
  | some a => exact of_result fun _ => rfl

theorem load (id : Int) : Keeps kept Datum (load id) (load id) :=
  ⟨rfl, fun σ => (orFault (σ id)).2 σ⟩

theorem store {id : Int} (h : ¬kept id) (d : Option Datum) : Keeps kept Unit (store id d) (store id d) := by
  refine ⟨rfl, fun σ r σ' hstore v hv => ?_⟩
  have hne : v ≠ id := fun heq => h (heq ▸ hv)
  rw [store_apply] at hstore
  cases hstore
  exact Function.update_of_ne hne d σ

theorem bind {x y : Run α} {f g : α → Run β} (hx : Keeps kept α x y) (hf : ∀ a, Keeps kept β (f a) (g a)) :
    Keeps kept β (x >>= f) (y >>= g) := by
  obtain ⟨rfl, hx⟩ := hx
  obtain rfl : f = g := funext fun a => (hf a).1
  refine ⟨rfl, fun σ r σ' h v hv => ?_⟩
  rw [bind_apply] at h
  cases hr : x σ with
  | none => simp [hr] at h
  | some p =>
    obtain ⟨q, σ₁⟩ := p
    have hfirst := hx σ q σ₁ hr v hv
    cases q with
    | ok a =>
      simp only [hr] at h
      exact ((hf a).2 σ₁ r σ' h v hv).trans hfirst
    | error e =>
      simp only [hr] at h
      cases h
      exact hfirst

theorem logical (F : Footprint) (hF : ∀ v, F.writes v → ¬kept v) : Logical 0 (Keeps kept) F where
  pure _ := of_result fun _ => rfl
  throw _ := of_result fun _ => rfl
  bind := bind
  load {id} _ := load id
  store {id} d hid := store (hF id hid) d
  stop h := by
    rw [h rfl]
    refine ⟨rfl, fun σ r σ' h => ?_⟩
    cases h

end Keeps

/-- The run has a result, it changes nothing, and it depends on some variables only. -/
def Observes (seen : Int → Prop) (x : Run α) : Prop :=
  ∀ σ : Store, ∃ r, ∀ σ' : Store, (∀ v, seen v → σ' v = σ v) → x σ' = some (r, σ')

namespace Observes

variable {seen : Int → Prop}

theorem ofPure (a : α) : Observes seen (pure a) := fun _ => ⟨.ok a, fun _ _ => rfl⟩

theorem orFault (o : Option α) : Observes seen (Meaning.orFault o) := by
  cases o with
  | none => exact fun _ => ⟨.error .fault, fun _ _ => rfl⟩
  | some a => exact ofPure a

theorem load {id : Int} (h : seen id) : Observes seen (Meaning.load id) := by
  intro σ
  have hheld : Observes seen (Meaning.orFault (σ id)) := orFault _
  obtain ⟨r, hr⟩ := hheld σ
  refine ⟨r, fun σ' hσ => ?_⟩
  rw [load_apply, hσ id h]
  exact hr σ' hσ

theorem bind {x : Run α} {f : α → Run β} (hx : Observes seen x) (hf : ∀ a, Observes seen (f a)) :
    Observes seen (x >>= f) := by
  intro σ
  obtain ⟨r, hr⟩ := hx σ
  cases r with
  | ok a =>
    obtain ⟨r', hr'⟩ := hf a σ
    refine ⟨r', fun σ' hσ => ?_⟩
    rw [bind_apply, hr σ' hσ]
    exact hr' σ' hσ
  | error e =>
    refine ⟨.error e, fun σ' hσ => ?_⟩
    rw [bind_apply, hr σ' hσ]

variable {M : Machine} {call : Int → List Datum → Run Datum}

mutual

theorem place (e : Expr) (hplace : e.isPlace) (h : ∀ n ∈ e.nodes, ∀ v ∈ reads n, seen v) :
    Observes seen (eval M call e) := by
  match e with
  | .var i id => exact load (h _ (Expr.mem_nodes_self rfl) id List.mem_cons_self)
  | .const i id => exact orFault _
  | .literal i v => exact ofPure _
  | .index i b is =>
    rw [Expr.isPlace, Bool.and_eq_true] at hplace
    rw [Expr.nodes_eq rfl] at h
    have hb := place b hplace.2 fun n hn => h n (by simp [Expr.children, hn])
    have his := items is hplace.1 fun a ha n hn =>
      h n (List.mem_cons_of_mem _ (List.mem_flatMap.mpr ⟨a, List.mem_cons_of_mem _ ha, hn⟩))
    rw [eval]
    exact bind hb fun _ => bind his fun _ => orFault _
  | .swizzle i b s =>
    rw [Expr.isPlace] at hplace
    rw [Expr.nodes_eq rfl] at h
    have hb := place b hplace fun n hn => h n (by simp [Expr.children, hn])
    rw [eval]
    exact bind hb fun _ => orFault _
  | .absent | .name .. | .binary .. | .unary .. | .assign .. | .cast .. | .ternary .. | .member .. | .call ..
  | .method .. | .intrinsic .. | .function .. | .intrinsicRef .. | .structRef .. | .typeRef .. =>
    simp [Expr.isPlace] at hplace

theorem items (es : List Expr) (hplaces : Expr.arePlaces es)
    (h : ∀ e ∈ es, ∀ n ∈ e.nodes, ∀ v ∈ reads n, seen v) : Observes seen (Meaning.items M call es) := by
  match es with
  | [] => exact ofPure _
  | e :: es =>
    rw [Expr.arePlaces, Bool.and_eq_true] at hplaces
    have he := place e hplaces.1 (h e List.mem_cons_self)
    have hes := items es hplaces.2 fun a ha => h a (List.mem_cons_of_mem _ ha)
    rw [Meaning.items]
    exact bind he fun _ => bind (orFault _) fun _ => bind hes fun _ => ofPure _

end

end Observes

end Shading.Meaning
