import SimplifiedPrism.TransitionSystem

/-!
# Simulations

A relation between the states of two systems such that the second can answer every
step of the first, by any number of steps of its own.  Then beside every run of the
first system goes a run of the second.
-/

section Simulation

variable {State Action Abstract Move : Type*}

/-- Every start and every step that meets the condition is answered. -/
structure Simulation (step : State → Action → Option State) (start : State → Prop)
    (condition : State → Action → Prop) (move : Abstract → Move → Option Abstract)
    (origin : Abstract → Prop) (related : State → Abstract → Prop) : Prop where
  initial : ∀ state, start state → ∃ abstract, origin abstract ∧ related state abstract
  answer : ∀ before action after abstract, related before abstract → condition before action →
    step before action = some after →
      ∃ moves final, runActions move abstract moves = some final ∧ related after final

variable {step : State → Action → Option State} {start : State → Prop}
variable {condition : State → Action → Prop} {move : Abstract → Move → Option Abstract}
variable {origin : Abstract → Prop} {related : State → Abstract → Prop}

/-- A run goes beside another: the states of the one are related to states of the other,
in the same order. -/
structure Run.Beside (run : Run step start) (other : Run move origin)
    (related : State → Abstract → Prop) (place : Nat → Nat) : Prop where
  ordered : ∀ index ≤ run.length, ∀ earlier ≤ index, place earlier ≤ place index
  last : place run.length = other.length
  related : ∀ index ≤ run.length, related (run.states index) (other.states (place index))

/-- The moves that have answered a run so far, and how many of them each state took. -/
structure Answered (run : Run step start) (move : Abstract → Move → Option Abstract)
    (related : State → Abstract → Prop) (index : Nat) (initial : Abstract) (moves : List Move)
    (place : Nat → Nat) : Prop where
  total : place index = moves.length
  ordered : ∀ later ≤ index, ∀ earlier ≤ later, place earlier ≤ place later
  related : ∀ earlier ≤ index, ∃ abstract,
    runActions move initial (moves.take (place earlier)) = some abstract ∧
      related (run.states earlier) abstract

namespace Simulation

variable {run : Run step start}

/-- One more step is answered by some more moves. -/
theorem extend (simulation : Simulation step start condition move origin related)
    (meets : run.Meets condition) {index : Nat} (bound : index < run.length) {initial : Abstract}
    {moves : List Move} {place : Nat → Nat}
    (answered : Answered run move related index initial moves place) :
    ∃ more next, Answered run move related (index + 1) initial (moves ++ more) next := by
  obtain ⟨abstract, reached, here⟩ := answered.related index (Nat.le_refl index)
  rw [answered.total, List.take_length] at reached
  obtain ⟨more, final, moved, there⟩ :=
    simulation.answer _ _ _ abstract here (meets index bound) (run.steps index bound)
  let next (time : Nat) : Nat := if time ≤ index then place time else (moves ++ more).length
  have old {time : Nat} (before : time ≤ index) : next time = place time := if_pos before
  have new : next (index + 1) = (moves ++ more).length := if_neg (by omega)
  have within {time : Nat} (before : time ≤ index) : place time ≤ moves.length :=
    answered.total ▸ answered.ordered index (Nat.le_refl index) time before
  refine ⟨more, next, new, fun later bound earlier before => ?_, fun earlier bound => ?_⟩
  · rcases Nat.le_succ_iff.mp bound with early | rfl
    · rw [old early, old (Nat.le_trans before early)]
      exact answered.ordered later early earlier before
    · rcases Nat.le_succ_iff.mp before with early | rfl
      · rw [new, old early, List.length_append]
        exact Nat.le_trans (within early) (Nat.le_add_right _ _)
      · exact Nat.le_refl _
  · rcases Nat.le_succ_iff.mp bound with early | rfl
    · rw [old early, List.take_append_of_le_length (within early)]
      exact answered.related earlier early
    · refine ⟨final, ?_, there⟩
      rw [new, List.take_length, runActions_append, reached]
      exact moved

/-- Beside every run goes a run of the other system. -/
theorem beside [Inhabited Move] (simulation : Simulation step start condition move origin related)
    (run : Run step start) (meets : run.Meets condition) :
    ∃ (other : Run move origin) (place : Nat → Nat), run.Beside other related place := by
  obtain ⟨initial, starts, here⟩ := simulation.initial _ run.starts
  have upTo (index : Nat) : index ≤ run.length →
      ∃ moves place, Answered run move related index initial moves place := by
    induction index with
    | zero =>
        intro _
        refine ⟨[], fun _ => 0, rfl, fun _ _ _ _ => Nat.le_refl 0, fun earlier bound => ?_⟩
        rw [Nat.le_zero.mp bound]
        exact ⟨initial, rfl, here⟩
    | succ index ih =>
        intro bound
        obtain ⟨moves, place, answered⟩ := ih (Nat.le_of_lt bound)
        obtain ⟨more, next, extended⟩ := simulation.extend meets bound answered
        exact ⟨moves ++ more, next, extended⟩
  obtain ⟨moves, place, answered⟩ := upTo run.length (Nat.le_refl _)
  have enabled : (runActions move initial moves).isSome = true := by
    obtain ⟨final, reached, -⟩ := answered.related run.length (Nat.le_refl _)
    rw [answered.total, List.take_length] at reached
    rw [reached]
    rfl
  refine ⟨.ofActions initial starts moves enabled, place, answered.ordered, answered.total,
    fun index bound => ?_⟩
  obtain ⟨abstract, reached, relates⟩ := answered.related index bound
  change related _ ((runActions move initial (moves.take (place index))).getD initial)
  rw [reached, Option.getD_some]
  exact relates

end Simulation

end Simulation
