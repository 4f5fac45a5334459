import Shading.Check.Session

/-! What is known of a check that has been run without a refusal. -/
namespace Shading

/-- A step after another one has a result if both have. -/
theorem run_bind_ok {ρ σ ε α β : Type} {x : ReaderT ρ (StateT σ (Except ε)) α} {f : α → ReaderT ρ (StateT σ (Except ε)) β}
    {c : ρ} {s s' : σ} {b : β} :
    (x >>= f) c s = .ok (b, s') ↔ ∃ a s₁, x c s = .ok (a, s₁) ∧ f a c s₁ = .ok (b, s') := by
  change ((x c s) >>= fun r => f r.1 c r.2) = .ok (b, s') ↔ _
  cases hx : x c s with
  | error e =>
    constructor
    · intro h
      cases h
    · rintro ⟨a, s₁, h, -⟩
      cases h
  | ok r =>
    constructor
    · intro h
      exact ⟨r.1, r.2, rfl, h⟩
    · rintro ⟨a, s₁, h, hf⟩
      cases h
      exact hf

namespace Check

variable {α β : Type} {site : Site} {σ σ' : State} {a : α} {b : β}

theorem bind_ok {x : Check α} {f : α → Check β} :
    (x >>= f) site σ = .ok (b, σ') ↔ ∃ a σ₁, x site σ = .ok (a, σ₁) ∧ f a site σ₁ = .ok (b, σ') := run_bind_ok

theorem pure_ok {a' : α} : (pure a' : Check α) site σ = .ok (a, σ') ↔ a = a' ∧ σ' = σ := by
  constructor
  · intro h
    cases h
    exact ⟨rfl, rfl⟩
  · rintro ⟨rfl, rfl⟩
    rfl

@[simp] theorem reject_ok {span : Span} {r : Rejection} : (reject span r : Check α) site σ = .ok (a, σ') ↔ False := by
  constructor
  · intro h
    cases h
  · exact False.elim

@[simp] theorem reject_bind {span : Span} {r : Rejection} {f : α → Check β} :
    (reject span r >>= f) = reject span r := rfl

theorem ite_bind {c : Prop} [Decidable c] {x y : Check α} {f : α → Check β} :
    (if c then x >>= f else y >>= f) = (if c then x else y) >>= f := by
  split <;> rfl

theorem read_ok {s : Site} : (read : Check Site) site σ = .ok (s, σ') ↔ s = site ∧ σ' = σ := by
  constructor
  · intro h
    cases h
    exact ⟨rfl, rfl⟩
  · rintro ⟨rfl, rfl⟩
    rfl

theorem get_ok {s : State} : (get : Check State) site σ = .ok (s, σ') ↔ s = σ ∧ σ' = σ := by
  constructor
  · intro h
    cases h
    exact ⟨rfl, rfl⟩
  · rintro ⟨rfl, rfl⟩
    rfl

theorem getSession_ok {s : Session} : getSession site σ = .ok (s, σ') ↔ s = σ.session ∧ σ' = σ := by
  constructor
  · intro h
    cases h
    exact ⟨rfl, rfl⟩
  · rintro ⟨rfl, rfl⟩
    rfl

theorem getDraft_ok {d : Draft} : getDraft site σ = .ok (d, σ') ↔ d = σ.draft ∧ σ' = σ := by
  constructor
  · intro h
    cases h
    exact ⟨rfl, rfl⟩
  · rintro ⟨rfl, rfl⟩
    rfl

theorem modifySession_ok {f : Session → Session} {u : Unit} :
    modifySession f site σ = .ok (u, σ') ↔ σ' = { σ with session := f σ.session } := by
  constructor
  · intro h
    cases h
    rfl
  · rintro rfl
    rfl

theorem modifyDraft_ok {f : Draft → Draft} {u : Unit} :
    modifyDraft f site σ = .ok (u, σ') ↔ σ' = { σ with draft := f σ.draft } := by
  constructor
  · intro h
    cases h
    rfl
  · rintro rfl
    rfl

theorem withReader_ok {f : Site → Site} {x : Check α} :
    (withReader f x : Check α) site σ = .ok (a, σ') ↔ x (f site) σ = .ok (a, σ') := Iff.rfl

theorem lookup_ok {name : Text} {r : Option Binding} :
    lookup? name site σ = .ok (r, σ') ↔ r = σ.draft.scopes.lookup? name ∧ σ' = σ := by
  constructor
  · intro h
    cases h
    exact ⟨rfl, rfl⟩
  · rintro ⟨rfl, rfl⟩
    rfl

theorem typing_ok {span : Span} {x : Except TypeError α} :
    typing span x site σ = .ok (a, σ') ↔ x = .ok a ∧ σ' = σ := by
  cases x with
  | error e => simp [typing]
  | ok b =>
    rw [typing, pure_ok]
    constructor
    · rintro ⟨rfl, rfl⟩
      exact ⟨rfl, rfl⟩
    · rintro ⟨h, rfl⟩
      cases h
      exact ⟨rfl, rfl⟩

theorem evaluate_ok {e : Expr} {r : Except EvalError Value} :
    evaluate e site σ = .ok (r, σ') ↔ r = e.evaluate σ.session.value? ∧ σ' = σ := by
  constructor
  · intro h
    cases h
    exact ⟨rfl, rfl⟩
  · rintro ⟨rfl, rfl⟩
    rfl

theorem evaluateWithDefaults_ok {e : Expr} {r : Except EvalError Value} :
    evaluateWithDefaults e site σ = .ok (r, σ') ↔ r = e.evaluate σ.session.valueOrDefault? ∧ σ' = σ := by
  constructor
  · intro h
    cases h
    exact ⟨rfl, rfl⟩
  · rintro ⟨rfl, rfl⟩
    rfl

/-- A check that changes nothing. -/
structure Reads (x : Check α) : Prop where
  run : ∀ {site σ a σ'}, x site σ = .ok (a, σ') → σ' = σ

namespace Reads

theorem pure (a : α) : Reads (Pure.pure a) := ⟨fun h => (pure_ok.mp h).2⟩

theorem reject (span : Span) (r : Rejection) : Reads (Check.reject span r : Check α) := ⟨fun h => (reject_ok.mp h).elim⟩

theorem bind {x : Check α} {f : α → Check β} (hx : Reads x) (hf : ∀ a, Reads (f a)) : Reads (x >>= f) := by
  refine ⟨fun h => ?_⟩
  obtain ⟨a, σ₁, hrun, hrest⟩ := bind_ok.mp h
  rw [(hf a).run hrest, hx.run hrun]

theorem read : Reads (MonadReader.read : Check Site) := ⟨fun h => (read_ok.mp h).2⟩

theorem getSession : Reads getSession := ⟨fun h => (getSession_ok.mp h).2⟩

theorem getDraft : Reads getDraft := ⟨fun h => (getDraft_ok.mp h).2⟩

theorem evaluate (e : Expr) : Reads (evaluate e) := ⟨fun h => (evaluate_ok.mp h).2⟩

theorem evaluateWithDefaults (e : Expr) : Reads (evaluateWithDefaults e) :=
  ⟨fun h => (evaluateWithDefaults_ok.mp h).2⟩

end Reads

end Check

end Shading
