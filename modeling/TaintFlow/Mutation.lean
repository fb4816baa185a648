import TaintFlow.Error

/-!
# Changes that may be refused

A change of some state ends with a value or with a refusal. It leaves a state behind in
both cases: what it had changed up to then. That a refusal changes nothing is therefore a
property of each change, to be shown of it.
-/

namespace TaintFlow

/-- A computation that changes a state, and may be refused on the way. -/
abbrev Mutation (σ : Type) := ExceptT Error (StateM σ)

namespace Mutation

variable {σ τ α β : Type}

/-- The outcome on a state, and the state that is left. -/
def run (change : Mutation σ α) (state : σ) : Except Error α × σ :=
  Id.run (StateT.run (ExceptT.run change) state)

/-- A change of one part of a larger state. -/
def within (part : τ → σ) (replace : τ → σ → τ) (change : Mutation σ α) : Mutation τ α :=
  ExceptT.mk fun state =>
    let (outcome, changed) := change.run (part state)
    pure (outcome, replace state changed)

@[simp] theorem run_liftExcept (result : Except Error α) (state : σ) :
    run (liftM result : Mutation σ α) state = (result, state) := rfl

@[simp] theorem run_get (state : σ) : run (get : Mutation σ σ) state = (.ok state, state) := rfl

/-- What follows a change starts where it ended, unless it failed. -/
theorem run_bind (change : Mutation σ α) (next : α → Mutation σ β) (state : σ) :
    run (change >>= next) state =
      match run change state with
      | (.ok a, state) => run (next a) state
      | (.error e, state) => (.error e, state) := by
  simp only [run, ExceptT.run_bind, StateT.run_bind]
  rcases h : StateT.run (ExceptT.run change) state with ⟨result, after⟩
  cases result <;> rfl

theorem run_bind_of_error {x : Except Error α} {e : Error} (h : x = .error e)
    (next : α → Mutation σ β) (state : σ) :
    run (liftM x >>= next) state = (.error e, state) := by
  rw [run_bind, run_liftExcept, h]

theorem run_bind_of_ok {x : Except Error α} {a : α} (h : x = .ok a)
    (next : α → Mutation σ β) (state : σ) :
    run (liftM x >>= next) state = run (next a) state := by
  rw [run_bind, run_liftExcept, h]

end Mutation

end TaintFlow
