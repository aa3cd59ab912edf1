import Mathlib.Algebra.Order.BigOperators.Group.Finset
import Mathlib.Data.Fintype.Basic
import Mathlib.Order.WellFounded
import SimplifiedPrism.TransitionSystem

/-!
# Runs that come to an end

When every action of some kind makes a measure smaller, and in every state only
finitely many are enabled, there is a bound on the number of such actions in a row.
-/

section Bounded

variable {State Action Measure : Type*} {step : State → Action → Option State}
variable {holds : State → Prop} {kind : Action → Prop}

theorem runActions_preserves
    (preserved : ∀ before action after, holds before → kind action →
      step before action = some after → holds after)
    {state final : State} {actions : List Action} (start : holds state)
    (kinds : ∀ action ∈ actions, kind action)
    (completed : runActions step state actions = some final) : holds final := by
  induction actions generalizing state with
  | nil =>
      cases completed
      exact start
  | cons action actions ih =>
      obtain ⟨next, stepped, rest⟩ := Option.bind_eq_some_iff.mp completed
      have kept := preserved state action next start (kinds action List.mem_cons_self) stepped
      exact ih kept (fun other member => kinds other (List.mem_cons_of_mem _ member)) rest

/-- Finitely many actions have a common bound on the lists that begin with one of them. -/
theorem exists_bound_of_forall {state : State} {first : List Action}
    (bounded : ∀ action after, kind action → step state action = some after →
      ∃ bound, ∀ actions, (∀ other ∈ actions, kind other) →
        (runActions step after actions).isSome → actions.length ≤ bound) :
    ∃ bound, ∀ action ∈ first, ∀ actions, (∀ other ∈ action :: actions, kind other) →
      (runActions step state (action :: actions)).isSome → actions.length ≤ bound := by
  induction first with
  | nil => exact ⟨0, by simp⟩
  | cons action first ih =>
      obtain ⟨later, laterBound⟩ := ih
      have own : ∃ bound, ∀ actions, (∀ other ∈ action :: actions, kind other) →
          (runActions step state (action :: actions)).isSome → actions.length ≤ bound := by
        by_cases enabled : kind action ∧ (step state action).isSome
        · obtain ⟨after, stepped⟩ := Option.isSome_iff_exists.mp enabled.2
          obtain ⟨bound, within⟩ := bounded action after enabled.1 stepped
          refine ⟨bound, fun actions kinds completed => within actions ?_ ?_⟩
          · exact fun other member => kinds other (List.mem_cons_of_mem _ member)
          · rwa [runActions, stepped, Option.bind_some] at completed
        · refine ⟨0, fun actions kinds completed => absurd ⟨kinds action List.mem_cons_self, ?_⟩
            enabled⟩
          cases stepped : step state action with
          | none => simp [runActions, stepped] at completed
          | some after => rfl
      obtain ⟨bound, ownBound⟩ := own
      refine ⟨max bound later, fun other member actions kinds completed => ?_⟩
      rcases List.mem_cons.mp member with rfl | inFirst
      · exact le_max_of_le_left (ownBound actions kinds completed)
      · exact le_max_of_le_right (laterBound other inFirst actions kinds completed)

/-- Actions that make a measure smaller, finitely many in every state, can only be taken
a bounded number of times in a row. -/
theorem exists_bound_of_descent [Preorder Measure] [WellFoundedLT Measure]
    (measure : State → Measure) (enabled : State → List Action)
    (listed : ∀ state action after, kind action → step state action = some after →
      action ∈ enabled state)
    (descends : ∀ before action after, holds before → kind action →
      step before action = some after → holds after ∧ measure after < measure before)
    {state : State} (start : holds state) :
    ∃ bound, ∀ actions, (∀ action ∈ actions, kind action) →
      (runActions step state actions).isSome → actions.length ≤ bound := by
  induction reached : measure state using WellFoundedLT.induction generalizing state with
  | ind value ih =>
      subst reached
      obtain ⟨bound, within⟩ : ∃ bound, ∀ action ∈ enabled state, ∀ actions : List Action,
          (∀ other ∈ action :: actions, kind other) →
            (runActions step state (action :: actions)).isSome → actions.length ≤ bound := by
        apply exists_bound_of_forall
        intro action after kindly stepped
        obtain ⟨kept, smaller⟩ := descends state action after start kindly stepped
        exact ih (measure after) smaller kept rfl
      refine ⟨bound + 1, fun actions kinds completed => ?_⟩
      cases actions with
      | nil => exact Nat.zero_le _
      | cons action actions =>
          obtain ⟨after, stepped⟩ : ∃ after, step state action = some after := by
            cases stepped : step state action with
            | none => simp [runActions, stepped] at completed
            | some after => exact ⟨after, rfl⟩
          have member := listed state action after (kinds action List.mem_cons_self) stepped
          exact Nat.succ_le_succ (within action member actions kinds completed)

end Bounded

/-! ## Measures -/

section Missing

variable {α : Type*} {all : Finset α} {known more : α → Prop}
variable [DecidablePred known] [DecidablePred more]

/-- How many of finitely many things are not known. -/
def missing (all : Finset α) (known : α → Prop) [DecidablePred known] : Nat :=
  (all.filter fun each => ¬ known each).card

theorem missing_le (kept : ∀ each, known each → more each) :
    missing all more ≤ missing all known := by
  apply Finset.card_le_card
  intro each member
  rw [Finset.mem_filter] at member ⊢
  exact ⟨member.1, fun old => member.2 (kept each old)⟩

theorem missing_lt (kept : ∀ each, known each → more each) {each : α} (inside : each ∈ all)
    (absent : ¬ known each) (found : more each) : missing all more < missing all known := by
  apply Finset.card_lt_card
  rw [Finset.ssubset_iff_of_subset]
  · exact ⟨each, by simp [inside, absent], by simp [found]⟩
  · intro other member
    rw [Finset.mem_filter] at member ⊢
    exact ⟨member.1, fun old => member.2 (kept other old)⟩

end Missing

section Sum

variable {Index Value : Type*} [Fintype Index] [DecidableEq Index]
variable {values : Index → Value} {index : Index} {value : Value} {measure : Value → Nat}

theorem sum_update_eq (same : measure value = measure (values index)) :
    ∑ other, measure (Function.update values index value other) =
      ∑ other, measure (values other) := by
  apply Finset.sum_congr rfl
  intro other _
  by_cases own : other = index
  · rw [own, Function.update_self, same]
  · rw [Function.update_of_ne own]

theorem sum_update_lt (fewer : measure value < measure (values index)) :
    ∑ other, measure (Function.update values index value other) <
      ∑ other, measure (values other) := by
  apply Finset.sum_lt_sum
  · intro other _
    by_cases own : other = index
    · rw [own, Function.update_self]
      exact Nat.le_of_lt fewer
    · rw [Function.update_of_ne own]
  · exact ⟨index, Finset.mem_univ index, by rwa [Function.update_self]⟩

end Sum
