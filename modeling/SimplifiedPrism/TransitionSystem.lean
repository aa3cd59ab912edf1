import Mathlib.Data.List.Basic
import Mathlib.Tactic.Common

/-!
# Runs of a transition system

A system moves by a partial step function: given a state and an action it
either yields the next state or is not enabled.  A run is a finite sequence of
states and actions.  The induction over a run is stated once, for invariants
that every step preserves and for invariants that only the steps meeting a
condition preserve.
-/

/-- A finite run of a step function from one of the starting states. -/
structure Run {State Action : Type*} (step : State → Action → Option State)
    (start : State → Prop) where
  length : Nat
  states : Nat → State
  actions : Nat → Action
  starts : start (states 0)
  steps : ∀ index < length,
    step (states index) (actions index) = some (states (index + 1))

namespace Run

variable {State Action : Type*} {step : State → Action → Option State}
variable {start : State → Prop}

/-- A run from one of some starting states, seen as a run from one of more. -/
def weaken {more : State → Prop} (run : Run step start)
    (weaker : ∀ state, start state → more state) : Run step more :=
  { run with starts := weaker _ run.starts }

/-- Every step of the run meets the condition. -/
def Meets (run : Run step start) (condition : State → Action → Prop) : Prop :=
  ∀ index < run.length, condition (run.states index) (run.actions index)

/-- What the start satisfies, and the steps that meet the condition preserve,
holds in every state of a run that meets the condition. -/
theorem invariant_of_meets (run : Run step start)
    {condition : State → Action → Prop} (meets : run.Meets condition)
    (holds : State → Prop) (initial : ∀ state, start state → holds state)
    (preserved : ∀ before action after, holds before → condition before action →
      step before action = some after → holds after) :
    ∀ index ≤ run.length, holds (run.states index) := by
  intro index bound
  induction index with
  | zero => exact initial _ run.starts
  | succ index ih =>
      exact preserved _ _ _ (ih (by omega)) (meets index (by omega))
        (run.steps index (by omega))

/-- What the start satisfies and every step preserves holds in every state. -/
theorem invariant (run : Run step start) (holds : State → Prop)
    (initial : ∀ state, start state → holds state)
    (preserved : ∀ before action after, holds before →
      step before action = some after → holds after) :
    ∀ index ≤ run.length, holds (run.states index) :=
  have always : run.Meets fun _ _ => True := fun _ _ => trivial
  run.invariant_of_meets always holds initial
    fun before action after held _ stepped => preserved before action after held stepped

end Run

/-! ## Running a list of actions -/

/-- The state after a list of actions, when each of them is enabled. -/
def runActions {State Action : Type*} (step : State → Action → Option State) :
    State → List Action → Option State
  | state, [] => some state
  | state, action :: actions =>
      (step state action).bind fun next => runActions step next actions

section RunActions

variable {State Action : Type*} {step : State → Action → Option State}

theorem runActions_append (state : State) (first second : List Action) :
    runActions step state (first ++ second) =
      (runActions step state first).bind fun middle => runActions step middle second := by
  induction first generalizing state with
  | nil => rfl
  | cons action first ih =>
      cases stepped : step state action with
      | none => simp [runActions, stepped]
      | some next => simpa [runActions, stepped] using ih next

/-- The run of a list of enabled actions. -/
def Run.ofActions {start : State → Prop} [Inhabited Action] (initial : State)
    (starts : start initial) (actions : List Action)
    (enabled : (runActions step initial actions).isSome = true) : Run step start where
  length := actions.length
  states := fun index => (runActions step initial (actions.take index)).getD initial
  actions := fun index => actions.getD index default
  starts := by simpa [runActions] using starts
  steps := by
    intro index bound
    obtain ⟨final, completed⟩ := Option.isSome_iff_exists.mp enabled
    have split : actions.take (index + 1) ++ actions.drop (index + 1) = actions :=
      List.take_append_drop _ _
    have prefixRuns : ∃ next, runActions step initial (actions.take (index + 1)) = some next := by
      rw [← split, runActions_append, Option.bind_eq_some_iff] at completed
      obtain ⟨next, reached, -⟩ := completed
      exact ⟨next, reached⟩
    obtain ⟨next, reached⟩ := prefixRuns
    rw [reached, Option.getD_some]
    rw [List.take_succ_eq_append_getElem bound, runActions_append,
      Option.bind_eq_some_iff] at reached
    obtain ⟨middle, before, last⟩ := reached
    rw [before, Option.getD_some]
    simpa [runActions, List.getElem?_eq_getElem bound] using last

end RunActions
