import SimplifiedPrism.TransitionSystem

/-!
# Histories

The steps of a run send signals, handle them, or make moves in another system.  What they
contribute, in order, is a history of the run.  A queue holds what has been sent and not yet
handled, a state that only the handled signals change is a fold over them, and the moves
lead the other system along.
-/

namespace Run

variable {State Action Entry : Type*} {step : State → Action → Option State}
variable {start : State → Prop}

/-- What the first steps of a run contribute, in order. -/
def history (run : Run step start) (entries : State → Action → List Entry) : Nat → List Entry
  | 0 => []
  | index + 1 => run.history entries index ++ entries (run.states index) (run.actions index)

variable (run : Run step start)

theorem history_grows (entries : State → Action → List Entry) {index later : Nat}
    (bound : index ≤ later) : run.history entries index <+: run.history entries later := by
  induction bound with
  | refl => exact List.prefix_rfl
  | step _ ih => exact ih.trans (List.prefix_append _ _)

variable {run} in
theorem mem_history {entries : State → Action → List Entry} {index : Nat} {entry : Entry} :
    entry ∈ run.history entries index ↔
      ∃ earlier < index, entry ∈ entries (run.states earlier) (run.actions earlier) := by
  induction index with
  | zero => simp [history]
  | succ index ih =>
      rw [history, List.mem_append, ih]
      constructor
      · rintro (⟨earlier, before, member⟩ | member)
        · exact ⟨earlier, by omega, member⟩
        · exact ⟨index, by omega, member⟩
      · rintro ⟨earlier, before, member⟩
        rcases Nat.lt_succ_iff_lt_or_eq.mp before with early | rfl
        · exact .inl ⟨earlier, early, member⟩
        · exact .inr member

/-- What was sent is what was handled, followed by what waits in the queue. -/
theorem history_queue (queue : State → List Entry) {sent handled : State → Action → List Entry}
    (empty : ∀ state, start state → queue state = [])
    (law : ∀ before action after, step before action = some after →
      queue before ++ sent before action = handled before action ++ queue after) :
    ∀ index ≤ run.length,
      run.history sent index = run.history handled index ++ queue (run.states index) := by
  intro index bound
  induction index with
  | zero =>
      rw [empty _ run.starts]
      rfl
  | succ index ih =>
      have here := law _ _ _ (run.steps index (by omega))
      rw [history, history, ih (by omega), List.append_assoc, here, List.append_assoc]

/-- What only the handled signals change is a fold over them. -/
theorem history_foldl {Value : Type*} (view : State → Value) {react : Value → Entry → Value}
    {handled : State → Action → List Entry}
    (law : ∀ before action after, step before action = some after →
      view after = (handled before action).foldl react (view before)) :
    ∀ index ≤ run.length,
      view (run.states index) = (run.history handled index).foldl react (view (run.states 0)) := by
  intro index bound
  induction index with
  | zero => rfl
  | succ index ih =>
      rw [history, List.foldl_append, ← ih (by omega)]
      exact law _ _ _ (run.steps index (by omega))

variable {run} in
/-- An entry of a history was contributed by some step, after what stands before it. -/
theorem exists_time {entries : State → Action → List Entry}
    (single : ∀ state action, (entries state action).length ≤ 1) {index : Nat}
    {front back : List Entry} {entry : Entry}
    (split : run.history entries index = front ++ entry :: back) :
    ∃ time < index, entries (run.states time) (run.actions time) = [entry] ∧
      run.history entries time = front := by
  induction index generalizing back with
  | zero => simp [history] at split
  | succ index ih =>
      have earlier {rest : List Entry}
          (split : run.history entries index = front ++ entry :: rest) :
          ∃ time < index + 1, entries (run.states time) (run.actions time) = [entry] ∧
            run.history entries time = front := by
        obtain ⟨time, before, contributed, same⟩ := ih split
        exact ⟨time, by omega, contributed, same⟩
      rw [history] at split
      have atMost := single (run.states index) (run.actions index)
      cases contributed : entries (run.states index) (run.actions index) with
      | nil =>
          rw [contributed, List.append_nil] at split
          exact earlier split
      | cons last others =>
          rw [contributed, List.length_cons] at atMost
          obtain rfl : others = [] := List.eq_nil_of_length_eq_zero (by omega)
          rw [contributed] at split
          rcases List.eq_nil_or_concat back with rfl | ⟨rest, final, rfl⟩
          · obtain ⟨same, lastSame⟩ := List.append_inj' split rfl
            exact ⟨index, by omega, contributed.trans lastSame, same⟩
          · rw [List.concat_eq_append, ← List.cons_append, ← List.append_assoc] at split
            exact earlier (List.append_inj' split rfl).1

/-- What only one step contributes, and once, stands once in the history. -/
theorem history_countP_le_one {entries : State → Action → List Entry} {counted : Entry → Bool}
    (single : ∀ state action, (entries state action).length ≤ 1) {index : Nat}
    (once : ∀ time < index, ∀ later < index,
      (∃ entry ∈ entries (run.states time) (run.actions time), counted entry = true) →
      (∃ entry ∈ entries (run.states later) (run.actions later), counted entry = true) →
        time = later) :
    (run.history entries index).countP counted ≤ 1 := by
  induction index with
  | zero => exact Nat.zero_le 1
  | succ index ih =>
      rw [history, List.countP_append]
      by_cases here : ∃ entry ∈ entries (run.states index) (run.actions index),
          counted entry = true
      · have before : (run.history entries index).countP counted = 0 := by
          rw [List.countP_eq_zero]
          intro entry member isCounted
          obtain ⟨time, early, contributed⟩ := mem_history.mp member
          have same := once time (by omega) index (by omega) ⟨entry, contributed, isCounted⟩ here
          omega
        have atMost := single (run.states index) (run.actions index)
        have part : (entries (run.states index) (run.actions index)).countP counted ≤
            (entries (run.states index) (run.actions index)).length := List.countP_le_length
        omega
      · have none : (entries (run.states index) (run.actions index)).countP counted = 0 := by
          rw [List.countP_eq_zero]
          exact fun entry member isCounted => here ⟨entry, member, isCounted⟩
        rw [none]
        exact ih fun time early later earlyToo => once time (by omega) later (by omega)

/-- Two histories count the same where every step does. -/
theorem history_countP {Other : Type*} {entries : State → Action → List Entry}
    {others : State → Action → List Other} {counted : Entry → Bool} {countedToo : Other → Bool}
    (law : ∀ before action after, step before action = some after →
      (entries before action).countP counted = (others before action).countP countedToo) :
    ∀ index ≤ run.length, (run.history entries index).countP counted =
      (run.history others index).countP countedToo := by
  intro index bound
  induction index with
  | zero => rfl
  | succ index ih =>
      rw [history, history, List.countP_append, List.countP_append, ih (by omega),
        law _ _ _ (run.steps index (by omega))]

section Moves

variable {Abstract : Type*} {move : Abstract → Entry → Option Abstract}
variable (view : State → Abstract) {moves : State → Action → List Entry}

/-- The moves of the steps, one after the other, lead to what the states show. -/
theorem runActions_history
    (law : ∀ before action after, step before action = some after →
      runActions move (view before) (moves before action) = some (view after)) :
    ∀ index ≤ run.length, runActions move (view (run.states 0)) (run.history moves index) =
      some (view (run.states index)) := by
  intro index bound
  induction index with
  | zero => rfl
  | succ index ih =>
      rw [history, runActions_append, ih (by omega)]
      exact law _ _ _ (run.steps index (by omega))

variable [Inhabited Entry] {origin : Abstract → Prop}

/-- The run of the other system that the moves make up. -/
def shown
    (law : ∀ before action after, step before action = some after →
      runActions move (view before) (moves before action) = some (view after))
    (starts : ∀ state, start state → origin (view state)) : Run move origin :=
  Run.ofActions (view (run.states 0)) (starts _ run.starts) (run.history moves run.length) (by
    rw [run.runActions_history view law run.length (Nat.le_refl _)]
    rfl)

/-- The other run comes through what the states of the first show. -/
theorem states_shown
    (law : ∀ before action after, step before action = some after →
      runActions move (view before) (moves before action) = some (view after))
    (starts : ∀ state, start state → origin (view state)) {index : Nat}
    (bound : index ≤ run.length) :
    (run.shown view law starts).states (run.history moves index).length =
      view (run.states index) := by
  obtain ⟨rest, split⟩ := run.history_grows moves bound
  have reached : (run.history moves run.length).take (run.history moves index).length =
      run.history moves index := by
    rw [← split, List.take_left]
  change (runActions move _ ((run.history moves run.length).take _)).getD _ = _
  rw [reached, run.runActions_history view law index bound, Option.getD_some]

end Moves

end Run
