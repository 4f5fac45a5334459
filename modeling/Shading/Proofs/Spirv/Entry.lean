import Shading.Proofs.Spirv.Code
import Shading.Spirv.Entry

/-! The functions that the pipeline calls: how they take their parameter and give their result. -/
namespace Shading.Spirv.Code

variable {α β : Type}

theorem unplaced_ok {c : Context} {x : Pooling α} {s s' : State} {a : α} (h : unplaced x c s = .ok (a, s')) :
    ∃ pool, x s.pool = .ok (a, pool) ∧ s' = { s with pool } := by
  obtain ⟨_, _, hget, hs⟩ := bind_ok.mp h
  cases hget
  cases hx : x s.pool with
  | error e =>
    rw [hx] at hs
    cases hs
  | ok r =>
    rw [hx] at hs
    cases hs
    exact ⟨r.2, rfl, rfl⟩

section

variable {K : ∀ {α : Type}, Code α → Prop} (hK : Closed @K)
include hK

theorem closed_unplaced {x : Pooling α} (h : Pooling.Adds x) : K (unplaced x) := hK.added h fun _ _ _ _ => unplaced_ok

theorem closed_decorate {decoration : UInt32} (h : decoration ≠ Decoration.offset ∧
    decoration ≠ Decoration.arrayStride ∧ decoration ≠ Decoration.matrixStride) (id : UInt32) (args : List UInt32) :
    K (built (Builder.decorate id decoration args)) :=
  hK.built (Build.adds_decorate h id args)

theorem closed_declared (r : Record Ty) (i : Nat) : K (declared? r i) := hK.bind hK.read fun _ => hK.pure _

theorem closed_interfaceVariable (r : Record Ty) (i : Nat) (name : Text) (t : Ty) (storage : UInt32) (stage : Stage) :
    K (interfaceVariable r i name t storage stage) := by
  apply hK.bind (closed_declared hK r i)
  intro member
  split
  · exact closed_fail hK _ _
  · rename_i m
    apply hK.bind (closed_pointerTo hK _ _ _ _)
    intro pointer
    apply hK.bind (hK.built (Build.numbers_global _ _).adds)
    intro id
    have hname : K (do
        giveName id (r.name ++ "_" ++ name)
        return id) := hK.bind (closed_giveName hK _ _) fun _ => hK.pure id
    dsimp only
    split
    · split
      · exact hK.bind (closed_decorate hK (by decide) _ _) fun _ => hname
      · exact hK.bind (closed_fail hK _ _) fun _ => hname
    · apply hK.bind (closed_decorate hK (by decide) _ _)
      intro _
      split
      · exact hK.bind (closed_decorate hK (by decide) _ _) fun _ => hname
      · exact hname
    · exact hK.bind (closed_fail hK _ _) fun _ => hname

theorem closed_takeMembers (r : Record Ty) (stage : Stage) (members : List ((Text × Ty) × Nat)) :
    K (takeMembers r stage members) := by
  induction members with
  | nil => exact hK.pure _
  | cons m members ih =>
    apply hK.bind (closed_interfaceVariable hK _ _ _ _ _ _)
    intro id
    apply hK.bind (closed_unplaced hK (Pooling.adds_typeId _))
    intro type
    apply hK.bind (hK.result rfl _ _)
    intro value
    exact hK.bind ih fun _ => hK.pure _

theorem closed_giveMembers (r : Record Ty) (stage : Stage) (result : UInt32) (members : List ((Text × Ty) × Nat)) :
    K (giveMembers r stage result members) := by
  induction members with
  | nil => exact hK.pure _
  | cons m members ih =>
    apply hK.bind (closed_interfaceVariable hK _ _ _ _ _ _)
    intro id
    apply hK.bind (closed_unplaced hK (Pooling.adds_typeId _))
    intro type
    apply hK.bind (closed_extract hK _ _ _)
    intro value
    apply hK.bind (hK.store _ _)
    intro _
    exact hK.bind ih fun _ => hK.pure _

theorem closed_takeParameter (f : FunctionDecl) (stage : Stage) : K (takeParameter f stage) := by
  unfold takeParameter
  split
  · split
    · apply hK.bind (closed_unplaced hK (Pooling.adds_typeId _))
      intro type
      apply hK.bind (closed_takeMembers hK _ _ _)
      intro _
      exact hK.bind (closed_construct hK _ _) fun input => hK.pure _
    · exact closed_fail hK _ _
  · exact hK.pure _

theorem closed_giveResult (t : Ty) (stage : Stage) (result : UInt32) : K (giveResult t stage result) := by
  unfold giveResult
  split
  · apply hK.bind (closed_giveMembers hK _ _ _ _)
    intro ids
    exact hK.bind (hK.bind hK.read fun _ => hK.pure _) fun _ => hK.pure _
  · exact hK.pure _

end

/-- Code that adds outside functions only. -/
def Appends (x : Code α) : Prop := ∀ c s a s', x c s = .ok (a, s') → s.pool.Adds s'.pool []

theorem appends_fail (span : Span) (obstacle : Obstacle) : Appends (fail span obstacle : Code α) := by
  intro c s a s' h
  cases h

theorem appends_pure (a : α) : Appends (pure a) := by
  intro c s a s' h
  cases h
  exact .refl _

theorem appends_built {x : Build α} (h : Build.Adds x) : Appends (built x) := by
  intro c s a s' hx
  cases hx
  obtain ⟨n, hadds⟩ := h s.pool.builder
  exact .of_builder hadds

theorem Appends.bind {x : Code α} {f : α → Code β} (hx : Appends x) (hf : ∀ a, Appends (f a)) : Appends (x >>= f) := by
  intro c s b s' h
  obtain ⟨a, s₁, hxs, hfs⟩ := bind_ok.mp h
  exact (hx c s a s₁ hxs).trans (hf a c s₁ b s' hfs)

/-- A step that may be left out. -/
theorem Appends.optional {p : Prop} [Decidable p] {x : Code Unit} {f : Unit → Code α} (hx : Appends x)
    (hf : ∀ u, Appends (f u)) : Appends (if p then x >>= f else f ()) := by
  split
  · exact hx.bind hf
  · exact hf ()

theorem appends_declareEntry (f : FunctionDecl) (id : UInt32) (interfaces : List UInt32) (depth : Bool) :
    Appends (declareEntry f id interfaces depth) := by
  have hentry : ∀ model, Appends (built (Builder.entryPoint model id f.head.name interfaces)) := fun _ =>
    appends_built (Build.adds_entryPoint _ _ _ _)
  have hmode : ∀ m args, Appends (built (Builder.executionMode id m args)) := fun _ _ =>
    appends_built (Build.adds_executionMode _ _ _)
  unfold declareEntry
  dsimp only
  split
  · exact hentry _
  · apply (hentry _).bind
    intro _
    apply (hmode _ _).bind
    intro _
    apply Appends.optional (hmode _ _)
    intro _
    split
    · apply (hmode _ _).bind
      intro _
      split
      · exact hmode _ _
      · exact appends_pure _
    · exact appends_pure _
  · apply (hentry _).bind
    intro _
    exact hmode _ _
  · exact appends_fail _ _

end Shading.Spirv.Code
