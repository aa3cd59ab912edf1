import SimplifiedPrism.PartialUpdate
import SimplifiedPrism.SpendableMempool

/-!
# Outputs that remain

Whether an outpoint is in a ledger can be told from the transactions behind it.
Going back from the newest one, the outpoint was there from the start or is an
output that one of them has for an input that remained until then; and none since
names it as its last input, the only one that the ledger update removes.
-/

namespace SimplifiedPrism

variable {crypto : Crypto}

variable (crypto) in
/-- The outpoint remains after some transactions, the newest first. -/
def Remains (ledger : Ledger) : List SignedTransaction → Outpoint → Prop
  | [], outpoint => outpoint ∈ ledger
  | tx :: earlier, outpoint => tx.transaction.lastInput ≠ some outpoint ∧
      (Remains ledger earlier outpoint ∨
        ∃ i < tx.transaction.inputPrevious.length, outpoint = (tx.hash crypto, UInt32.ofNat i) ∧
          ∃ input ∈ tx.transaction.lookupKey i, Remains ledger earlier input)

instance decidableRemains (ledger : Ledger) :
    ∀ earlier outpoint, Decidable (Remains crypto ledger earlier outpoint)
  | [], outpoint => inferInstanceAs (Decidable (outpoint ∈ ledger))
  | tx :: earlier, outpoint =>
      have _ := decidableRemains ledger earlier
      inferInstanceAs (Decidable (tx.transaction.lastInput ≠ some outpoint ∧
        (Remains crypto ledger earlier outpoint ∨
          ∃ i < tx.transaction.inputPrevious.length,
            outpoint = (tx.hash crypto, UInt32.ofNat i) ∧
              ∃ input ∈ tx.transaction.lookupKey i, Remains crypto ledger earlier input)))

/-! ## One transaction -/

section Update

variable {before after : Ledger} {tx : SignedTransaction} {outpoint : Outpoint}

/-- The loop over the inputs writes an output for every input that was there. -/
theorem Spending.mem_of_finds {txHash : H256} {transaction : Transaction} {count i : Nat}
    {spending : Spending}
    (looped : Spending.loop txHash transaction before count = some spending)
    (bound : i < count) (finds : transaction.FindsInput before i) :
    (txHash, UInt32.ofNat i) ∈ spending.currState := by
  induction count generalizing spending with
  | zero => omega
  | succ count ih =>
      rw [Spending.loop_succ, Option.bind_eq_some_iff] at looped
      obtain ⟨earlier, looped, stepped⟩ := looped
      obtain ⟨key, keyed, -, step⟩ := Spending.next_cases stepped
      by_cases now : i = count
      · subst now
        obtain ⟨input, found, present⟩ := finds
        rw [Option.mem_def, keyed, Option.some.injEq] at found
        subst found
        rcases step with ⟨-, coin, -, written, -⟩ | ⟨absent, -, -⟩
        · rw [written, Finmap.mem_insert]
          exact .inl rfl
        · exact absurd ((Spending.loop_frame looped).keeps key present) absent
      · have written := ih looped (by omega)
        rcases step with ⟨-, coin, -, grown, -⟩ | ⟨-, kept, -⟩
        · rw [grown, Finmap.mem_insert]
          exact .inr written
        · rw [kept]
          exact written

/-- What is there or has been written is there after the update, unless it is the
last input. -/
theorem mem_updateState (updated : updateState crypto before tx = some after)
    (notLast : tx.transaction.lastInput ≠ some outpoint)
    (present : outpoint ∈ before ∨ ∃ i < tx.transaction.inputPrevious.length,
      outpoint = (tx.hash crypto, UInt32.ofNat i) ∧ tx.transaction.FindsInput before i) :
    outpoint ∈ after := by
  simp only [updateState, Option.bind_eq_bind, Option.bind_eq_some_iff, Option.pure_def,
    Option.some.injEq] at updated
  obtain ⟨spending, looped, rfl⟩ := updated
  have frame := Spending.loop_frame looped
  have inLoop : outpoint ∈ spending.currState := by
    rcases present with stored | ⟨i, bound, rfl, finds⟩
    · exact frame.keeps outpoint stored
    · exact Spending.mem_of_finds looped bound finds
  cases existed : spending.exist with
  | false => exact inLoop
  | true =>
      rw [if_pos rfl, Finmap.mem_erase]
      refine ⟨?_, inLoop⟩
      rintro rfl
      exact notLast (frame.last (frame.counted existed))

/-- A transaction that names no output of its own leaves nothing else. -/
theorem mem_updateState_iff (foreign : tx.Foreign crypto)
    (updated : updateState crypto before tx = some after) :
    outpoint ∈ after ↔ tx.transaction.lastInput ≠ some outpoint ∧
      (outpoint ∈ before ∨ ∃ i < tx.transaction.inputPrevious.length,
        outpoint = (tx.hash crypto, UInt32.ofNat i) ∧ tx.transaction.FindsInput before i) := by
  refine ⟨fun member => ?_, fun ⟨notLast, present⟩ => mem_updateState updated notLast present⟩
  obtain ⟨spending, applied⟩ := updated_of_updateState foreign updated
  by_cases found : ∃ i < tx.transaction.inputPrevious.length, tx.transaction.FindsInput before i
  · obtain ⟨i, bound, finds⟩ := found
    rw [Finmap.mem_iff, applied.lookup_of_finds bound finds] at member
    split at member
    · simp at member
    · next notLast =>
        refine ⟨notLast, ?_⟩
        by_contra neither
        rw [not_or] at neither
        have same := applied.written.others outpoint fun j inside finds named =>
          neither.2 ⟨j, inside, named, finds⟩
        rw [same] at member
        exact neither.1 (Finmap.mem_iff.mpr member)
  · have missed : spending.exist = false := by
      rw [Bool.eq_false_iff, Ne, applied.written.exist]
      exact found
    have unchanged : after = before := by
      rw [applied.ledger, missed]
      exact applied.frame.unspent missed
    subst unchanged
    refine ⟨fun last => found ?_, .inl member⟩
    have nonempty : 0 < tx.transaction.inputPrevious.length := by
      by_contra empty
      rw [Transaction.lastInput, Transaction.lookupKey, List.getElem?_eq_none (by omega)] at last
      cases last
    exact ⟨_, Nat.sub_lt nonempty Nat.one_pos, outpoint, last, member⟩

end Update

/-! ## A list of transactions -/

section Remains

variable {ledger after : Ledger} {listed : List SignedTransaction} {outpoint : Outpoint}

theorem applyTransactions_reverse_cons {tx : SignedTransaction} :
    applyTransactions crypto ledger (tx :: listed).reverse = some after ↔
      ∃ before, applyTransactions crypto ledger listed.reverse = some before ∧
        updateState crypto before tx = some after := by
  rw [List.reverse_cons, applyTransactions_append, Option.bind_eq_some_iff]
  simp [applyTransactions_cons]

/-- What remains is in the ledger. -/
theorem Remains.mem (remains : Remains crypto ledger listed outpoint)
    (applied : applyTransactions crypto ledger listed.reverse = some after) :
    outpoint ∈ after := by
  induction listed generalizing after outpoint with
  | nil =>
      rw [List.reverse_nil, applyTransactions_nil, Option.some.injEq] at applied
      exact applied ▸ remains
  | cons tx listed ih =>
      obtain ⟨before, earlier, updated⟩ := applyTransactions_reverse_cons.mp applied
      obtain ⟨notLast, stayed | ⟨i, bound, named, input, keyed, remained⟩⟩ := remains
      · exact mem_updateState updated notLast (.inl (ih stayed earlier))
      · exact mem_updateState updated notLast
          (.inr ⟨i, bound, named, input, keyed, ih remained earlier⟩)

/-- Nothing else is in the ledger, when no transaction names an output of its own. -/
theorem remains_of_mem (foreign : ∀ tx ∈ listed, tx.Foreign crypto)
    (applied : applyTransactions crypto ledger listed.reverse = some after)
    (member : outpoint ∈ after) : Remains crypto ledger listed outpoint := by
  induction listed generalizing after outpoint with
  | nil =>
      rw [List.reverse_nil, applyTransactions_nil, Option.some.injEq] at applied
      exact applied ▸ member
  | cons tx listed ih =>
      obtain ⟨before, earlier, updated⟩ := applyTransactions_reverse_cons.mp applied
      have foreignRest : ∀ other ∈ listed, other.Foreign crypto :=
        fun other inside => foreign other (List.mem_cons_of_mem _ inside)
      obtain ⟨notLast, stayed | ⟨i, bound, named, input, keyed, found⟩⟩ :=
        (mem_updateState_iff (foreign tx List.mem_cons_self) updated).mp member
      · exact ⟨notLast, .inl (ih foreignRest earlier stayed)⟩
      · exact ⟨notLast, .inr ⟨i, bound, named, input, keyed, ih foreignRest earlier found⟩⟩

end Remains

end SimplifiedPrism
