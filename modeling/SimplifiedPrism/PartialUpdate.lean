import SimplifiedPrism.Invariants

/-!
# Transactions that take effect in part

The ledger update writes an output for every input it finds and then removes the
last input.  A transaction should be applied as a whole or not at all: all its
inputs go and all its outputs appear, or the ledger stays as it is.  This file
computes the ledger after the loop over the inputs, and from it the transactions
that are applied as a whole.
-/

namespace SimplifiedPrism

/-! ## The ledger after the loop -/

/-- The `i`-th input of a transaction is in a ledger. -/
def Transaction.FindsInput (transaction : Transaction) (ledger : Ledger) (i : Nat) : Prop :=
  ∃ key ∈ transaction.lookupKey i, key ∈ ledger

instance (transaction : Transaction) (ledger : Ledger) (i : Nat) :
    Decidable (transaction.FindsInput ledger i) :=
  inferInstanceAs (Decidable (∃ key ∈ transaction.lookupKey i, key ∈ ledger))

/-- The last pass among the first `count` that writes the output with the index
of the `i`-th.  The index is a `u32`, so that a later pass can have the same. -/
structure Transaction.LastWrites (transaction : Transaction) (ledger : Ledger)
    (count i : Nat) : Prop where
  bound : i < count
  finds : transaction.FindsInput ledger i
  last : ∀ j < count, i < j → transaction.FindsInput ledger j →
    UInt32.ofNat j ≠ UInt32.ofNat i

instance (transaction : Transaction) (ledger : Ledger) (count i : Nat) :
    Decidable (transaction.LastWrites ledger count i) :=
  decidable_of_iff
    (i < count ∧ transaction.FindsInput ledger i ∧
      ∀ j < count, i < j → transaction.FindsInput ledger j →
        UInt32.ofNat j ≠ UInt32.ofNat i)
    ⟨fun writes => ⟨writes.1, writes.2.1, writes.2.2⟩,
      fun writes => ⟨writes.bound, writes.finds, writes.last⟩⟩

/-- No input of a transaction names an output of the transaction itself. -/
def SignedTransaction.Foreign (crypto : Crypto) (tx : SignedTransaction) : Prop :=
  ∀ previous ∈ tx.transaction.inputPrevious, previous ≠ tx.hash crypto

instance (crypto : Crypto) (tx : SignedTransaction) : Decidable (tx.Foreign crypto) :=
  inferInstanceAs (Decidable (∀ previous ∈ tx.transaction.inputPrevious, _))

section Loop

variable {txHash : H256} {transaction : Transaction} {before : Ledger} {count : Nat}

/-- Every pass that finds its input has a last pass that writes its output. -/
theorem exists_lastWrites {i : Nat} (bound : i < count)
    (finds : transaction.FindsInput before i) :
    ∃ j, transaction.LastWrites before count j ∧ UInt32.ofNat j = UInt32.ofNat i := by
  induction count with
  | zero => omega
  | succ count ih =>
      by_cases overwrites : transaction.FindsInput before count ∧
          UInt32.ofNat count = UInt32.ofNat i
      · refine ⟨count, ⟨by omega, overwrites.1, ?_⟩, overwrites.2⟩
        intro j upper lower
        omega
      · have earlier : i < count := by
          by_contra atEnd
          obtain rfl : i = count := by omega
          exact overwrites ⟨finds, rfl⟩
        obtain ⟨j, writes, same⟩ := ih earlier
        refine ⟨j, ⟨?_, writes.finds, ?_⟩, same⟩
        · have := writes.bound
          omega
        · intro later upper lower findsLater sameIndex
          by_cases atEnd : later = count
          · subst atEnd
            exact overwrites ⟨findsLater, sameIndex.trans same⟩
          · exact writes.last later (by omega) lower findsLater sameIndex

/-- What the first `count` passes have written: for every input found the
output of the last pass with its index, and nothing else. -/
structure Spending.Written (txHash : H256) (transaction : Transaction) (before : Ledger)
    (count : Nat) (spending : Spending) : Prop where
  outputs : ∀ i, transaction.LastWrites before count i →
    spending.currState.lookup (txHash, UInt32.ofNat i) = transaction.output i
  others : ∀ outpoint : Outpoint,
    (∀ i < count, transaction.FindsInput before i → outpoint ≠ (txHash, UInt32.ofNat i)) →
      spending.currState.lookup outpoint = before.lookup outpoint
  exist : spending.exist = true ↔ ∃ i < count, transaction.FindsInput before i

/-- An input that does not name an output of the transaction is found during the
loop if and only if it was there before. -/
theorem Spending.mem_iff_of_loop
    (foreign : ∀ previous ∈ transaction.inputPrevious, previous ≠ txHash)
    {spending : Spending} (frame : Spending.Frame txHash transaction before count spending)
    {i : Nat} {key : Outpoint} (keyed : transaction.lookupKey i = some key) :
    key ∈ spending.currState ↔ transaction.FindsInput before i := by
  have named : key.1 ∈ transaction.inputPrevious := by
    simp only [Transaction.lookupKey, Option.bind_eq_bind, Option.bind_eq_some_iff,
      Option.pure_def, Option.some.injEq] at keyed
    obtain ⟨previous, found, index, -, rfl⟩ := keyed
    exact List.mem_of_getElem? found
  have same := frame.others key (foreign key.1 named)
  rw [Transaction.FindsInput, keyed]
  simp only [Option.mem_def, Option.some.injEq, exists_eq_left']
  rw [Finmap.mem_iff, Finmap.mem_iff, same]

theorem Spending.loop_written
    (foreign : ∀ previous ∈ transaction.inputPrevious, previous ≠ txHash)
    {spending : Spending}
    (looped : Spending.loop txHash transaction before count = some spending) :
    Spending.Written txHash transaction before count spending := by
  induction count generalizing spending with
  | zero =>
      rw [Spending.loop_zero, Option.some.injEq] at looped
      subst looped
      refine ⟨?_, fun _ _ => rfl, by simp⟩
      intro i writes
      have := writes.bound
      omega
  | succ count ih =>
      rw [Spending.loop_succ, Option.bind_eq_some_iff] at looped
      obtain ⟨earlier, looped, stepped⟩ := looped
      have written := ih looped
      obtain ⟨key, keyed, -, step⟩ := Spending.next_cases stepped
      rw [Spending.mem_iff_of_loop foreign (Spending.loop_frame looped) keyed] at step
      rcases step with ⟨finds, coin, produced, currState, exist⟩ | ⟨misses, currState, exist⟩
      · constructor
        · intro i writes
          rw [currState, HashMap.lookup_insert_ite]
          by_cases atEnd : i = count
          · subst atEnd
            rw [if_pos rfl, produced]
          · have bound := writes.bound
            have apart := writes.last count (by omega) (by omega) finds
            rw [if_neg fun same => apart (congrArg Prod.snd same).symm]
            refine written.outputs i ⟨by omega, writes.finds, ?_⟩
            exact fun j upper => writes.last j (by omega)
        · intro outpoint other
          rw [currState, HashMap.lookup_insert_ite, if_neg (other count (by omega) finds)]
          exact written.others outpoint fun i bound => other i (by omega)
        · rw [exist]
          exact ⟨fun _ => ⟨count, by omega, finds⟩, fun _ => rfl⟩
      · have atEarlier : ∀ i < count + 1, transaction.FindsInput before i → i < count := by
          intro i bound finds
          by_contra atEnd
          obtain rfl : i = count := by omega
          exact misses finds
        constructor
        · intro i writes
          rw [currState]
          refine written.outputs i ⟨atEarlier i writes.bound writes.finds, writes.finds, ?_⟩
          exact fun j upper => writes.last j (by omega)
        · intro outpoint other
          rw [currState]
          exact written.others outpoint fun i bound => other i (by omega)
        · rw [exist, written.exist]
          constructor
          · rintro ⟨i, bound, finds⟩
            exact ⟨i, by omega, finds⟩
          · rintro ⟨i, bound, finds⟩
            exact ⟨i, atEarlier i bound finds, finds⟩

end Loop

/-! ## All or nothing -/

variable {crypto : Crypto}

/-- A transaction with as many outputs as inputs has been applied as a whole. -/
structure AppliedWhole (crypto : Crypto) (before : Ledger) (tx : SignedTransaction)
    (after : Ledger) : Prop where
  inputs : ∀ i < tx.transaction.inputPrevious.length,
    ∀ key ∈ tx.transaction.lookupKey i, key ∉ after
  outputs : ∀ i < tx.transaction.inputPrevious.length,
    after.lookup (tx.hash crypto, UInt32.ofNat i) = tx.transaction.output i
  others : ∀ outpoint : Outpoint,
    (∀ i < tx.transaction.inputPrevious.length,
      tx.transaction.lookupKey i ≠ some outpoint ∧ outpoint ≠ (tx.hash crypto, UInt32.ofNat i)) →
    after.lookup outpoint = before.lookup outpoint

/-- All inputs of a transaction are in a ledger. -/
def Transaction.FindsAll (transaction : Transaction) (ledger : Ledger) : Prop :=
  ∀ i < transaction.inputPrevious.length, transaction.FindsInput ledger i

instance (transaction : Transaction) (ledger : Ledger) :
    Decidable (transaction.FindsAll ledger) :=
  inferInstanceAs (Decidable (∀ i < _, transaction.FindsInput ledger i))

/-- A transaction has been applied as a whole, or not at all if it misses an
input. -/
def AllOrNothing (crypto : Crypto) (before : Ledger) (tx : SignedTransaction)
    (after : Ledger) : Prop :=
  (tx.transaction.FindsAll before → AppliedWhole crypto before tx after) ∧
    (¬ tx.transaction.FindsAll before → after = before)

/-- All inputs of a transaction are one and the same unspent outpoint, and the
outputs do not overwrite each other with different ones. -/
structure OneInput (before : Ledger) (tx : SignedTransaction) : Prop where
  finds : tx.transaction.FindsAll before
  same : ∀ i < tx.transaction.inputPrevious.length, ∀ j < tx.transaction.inputPrevious.length,
    tx.transaction.lookupKey i = tx.transaction.lookupKey j
  outputs : ∀ i < tx.transaction.inputPrevious.length,
    ∀ j < tx.transaction.inputPrevious.length, UInt32.ofNat i = UInt32.ofNat j →
      tx.transaction.output i = tx.transaction.output j

/-- The last input of a transaction is missing, and what it writes for the others
that are not is in the ledger already. -/
structure NothingNew (crypto : Crypto) (before : Ledger) (tx : SignedTransaction) : Prop where
  nonempty : 0 < tx.transaction.inputPrevious.length
  misses : ¬ tx.transaction.FindsInput before (tx.transaction.inputPrevious.length - 1)
  written : ∀ i < tx.transaction.inputPrevious.length,
    tx.transaction.LastWrites before tx.transaction.inputPrevious.length i →
      before.lookup (tx.hash crypto, UInt32.ofNat i) = tx.transaction.output i

section Update

variable {before after : Ledger} {tx : SignedTransaction}

/-- The ledger that an update makes out of what the loop has written. -/
structure Updated (crypto : Crypto) (before : Ledger) (tx : SignedTransaction)
    (spending : Spending) (after : Ledger) : Prop where
  frame : spending.Frame (tx.hash crypto) tx.transaction before
    tx.transaction.inputPrevious.length
  written : spending.Written (tx.hash crypto) tx.transaction before
    tx.transaction.inputPrevious.length
  ledger : after =
    if spending.exist then spending.currState.erase spending.lookupKey else spending.currState

theorem updated_of_updateState (foreign : tx.Foreign crypto)
    (ran : updateState crypto before tx = some after) :
    ∃ spending, Updated crypto before tx spending after := by
  simp only [updateState, Option.bind_eq_bind, Option.bind_eq_some_iff, Option.pure_def,
    Option.some.injEq] at ran
  obtain ⟨spending, looped, rfl⟩ := ran
  exact ⟨spending, Spending.loop_frame looped, Spending.loop_written foreign looped, rfl⟩

namespace Updated

variable {spending : Spending}

/-- The outpoint that the update removes is no output of the transaction. -/
theorem lookup_output (updated : Updated crypto before tx spending after)
    (foreign : tx.Foreign crypto) (index : UInt32) :
    after.lookup (tx.hash crypto, index) = spending.currState.lookup (tx.hash crypto, index) := by
  rw [updated.ledger]
  cases existed : spending.exist with
  | false => rfl
  | true =>
      have counted := updated.frame.counted existed
      have last := updated.frame.last counted
      have apart : (tx.hash crypto, index) ≠ spending.lookupKey := by
        intro same
        apply foreign spending.lookupKey.1 _ (congrArg Prod.fst same).symm
        simp only [Transaction.lookupKey, Option.bind_eq_bind, Option.bind_eq_some_iff,
          Option.pure_def, Option.some.injEq] at last
        obtain ⟨previous, found, _, -, named⟩ := last
        exact named ▸ List.mem_of_getElem? found
      rw [if_pos rfl, HashMap.lookup_erase_ite, if_neg apart]

/-- A transaction that finds one of its inputs removes the last of them. -/
theorem lookup_of_finds (updated : Updated crypto before tx spending after)
    {i : Nat} (bound : i < tx.transaction.inputPrevious.length)
    (finds : tx.transaction.FindsInput before i) (outpoint : Outpoint) :
    after.lookup outpoint =
      if tx.transaction.lastInput = some outpoint then none
      else spending.currState.lookup outpoint := by
  have existed : spending.exist = true := updated.written.exist.mpr ⟨i, bound, finds⟩
  have last : tx.transaction.lastInput = some spending.lookupKey :=
    updated.frame.last (updated.frame.counted existed)
  rw [updated.ledger, if_pos existed, HashMap.lookup_erase_ite, last]
  refine if_congr ?_ rfl rfl
  rw [Option.some.injEq, eq_comm]

/-- Where all inputs are there, the transaction is applied as a whole if they
are one and the same. -/
theorem whole_of_oneInput (updated : Updated crypto before tx spending after)
    (foreign : tx.Foreign crypto) (one : OneInput before tx) :
    AppliedWhole crypto before tx after := by
  have removed : ∀ i < tx.transaction.inputPrevious.length, ∀ outpoint,
      tx.transaction.lastInput = some outpoint ↔
        tx.transaction.lookupKey i = some outpoint := by
    intro i bound outpoint
    rw [Transaction.lastInput, one.same _ (by omega) i bound]
  constructor
  · intro i bound key keyed
    rw [Finmap.mem_iff, not_exists]
    intro coin
    rw [updated.lookup_of_finds bound (one.finds i bound), if_pos ((removed i bound key).mpr keyed)]
    simp
  · intro i bound
    obtain ⟨j, writes, same⟩ := exists_lastWrites bound (one.finds i bound)
    rw [updated.lookup_output foreign, ← same, updated.written.outputs j writes]
    exact one.outputs j writes.bound i bound same
  · intro outpoint other
    have kept := updated.written.others outpoint fun i bound _ => (other i bound).2
    by_cases empty : tx.transaction.inputPrevious.length = 0
    · have missed : spending.exist = false := by
        rw [Bool.eq_false_iff, Ne, updated.written.exist]
        rintro ⟨i, bound, -⟩
        omega
      rw [updated.ledger, missed]
      exact kept
    · have bound : 0 < tx.transaction.inputPrevious.length := by omega
      rw [updated.lookup_of_finds bound (one.finds 0 bound), if_neg, kept]
      rw [removed 0 bound]
      exact (other 0 bound).1

theorem oneInput_of_whole (updated : Updated crypto before tx spending after)
    (finds : tx.transaction.FindsAll before)
    (whole : AppliedWhole crypto before tx after) : OneInput before tx := by
  -- an input that is not the last one would still be there
  have isLast : ∀ i < tx.transaction.inputPrevious.length,
      tx.transaction.lookupKey i = tx.transaction.lastInput := by
    intro i bound
    obtain ⟨key, keyed, present⟩ := finds i bound
    have removed := Finmap.lookup_eq_none.mpr (whole.inputs i bound key keyed)
    rw [updated.lookup_of_finds bound (finds i bound)] at removed
    split at removed
    · next last => rw [Option.mem_def.mp keyed, last]
    · have kept := updated.frame.keeps key present
      exact absurd removed (Finmap.lookup_eq_none.not.mpr (not_not.mpr kept))
  refine ⟨finds, fun i bound j other => ?_, fun i bound j other same => ?_⟩
  · rw [isLast i bound, isLast j other]
  · rw [← whole.outputs i bound, ← whole.outputs j other, same]

/-- Where an input is missing, the ledger stays as it is if nothing new is
written to it and nothing is removed. -/
theorem kept_iff_nothingNew (updated : Updated crypto before tx spending after)
    (foreign : tx.Foreign crypto) (misses : ¬ tx.transaction.FindsAll before) :
    after = before ↔ NothingNew crypto before tx := by
  have nonempty : 0 < tx.transaction.inputPrevious.length := by
    by_contra empty
    exact misses fun i bound => by omega
  constructor
  · rintro rfl
    refine ⟨nonempty, fun finds => ?_, fun i bound writes => ?_⟩
    · obtain ⟨key, keyed, present⟩ := finds
      have last : tx.transaction.lastInput = some key := keyed
      have removed := updated.lookup_of_finds (by omega) ⟨key, keyed, present⟩ key
      rw [if_pos last] at removed
      exact absurd present (Finmap.lookup_eq_none.mp removed)
    · rw [updated.lookup_output foreign, updated.written.outputs i writes]
  · intro nothing
    apply Finmap.ext_lookup
    intro outpoint
    by_cases found : ∃ i < tx.transaction.inputPrevious.length,
        tx.transaction.FindsInput before i
    · obtain ⟨i, bound, finds⟩ := found
      rw [updated.lookup_of_finds bound finds]
      split
      · next last =>
          symm
          rw [Finmap.lookup_eq_none]
          exact fun present => nothing.misses ⟨outpoint, last, present⟩
      · by_cases output : ∃ j < tx.transaction.inputPrevious.length,
            tx.transaction.FindsInput before j ∧ outpoint = (tx.hash crypto, UInt32.ofNat j)
        · obtain ⟨j, otherBound, otherFinds, rfl⟩ := output
          obtain ⟨last, writes, same⟩ := exists_lastWrites otherBound otherFinds
          rw [← same, updated.written.outputs last writes,
            nothing.written last writes.bound writes]
        · exact updated.written.others outpoint fun j otherBound otherFinds same =>
            output ⟨j, otherBound, otherFinds, same⟩
    · have missed : spending.exist = false := by
        rw [Bool.eq_false_iff, Ne, updated.written.exist]
        exact found
      rw [updated.ledger, missed, updated.frame.unspent missed]
      rfl

end Updated

/-- A transaction takes effect on a ledger all or nothing exactly when its inputs
are one unspent outpoint, or the last of them is missing and the others write
nothing new. -/
theorem allOrNothing_iff (before : Ledger) (tx : SignedTransaction)
    (shape : tx.transaction.WellShaped) (foreign : tx.Foreign crypto) :
    ∃ after, updateState crypto before tx = some after ∧
      (AllOrNothing crypto before tx after ↔
        OneInput before tx ∨ NothingNew crypto before tx) := by
  obtain ⟨after, ran⟩ := updateState_isSome shape before
  obtain ⟨spending, updated⟩ := updated_of_updateState foreign ran
  refine ⟨after, ran, ?_⟩
  by_cases finds : tx.transaction.FindsAll before
  · constructor
    · intro whole
      exact .inl (updated.oneInput_of_whole finds (whole.1 finds))
    · rintro (one | nothing)
      · exact ⟨fun _ => updated.whole_of_oneInput foreign one, fun misses => absurd finds misses⟩
      · have nonempty := nothing.nonempty
        exact absurd (finds _ (by omega)) nothing.misses
  · constructor
    · intro whole
      exact .inr ((updated.kept_iff_nothingNew foreign finds).mp (whole.2 finds))
    · rintro (one | nothing)
      · exact absurd one.finds finds
      · exact ⟨fun all => absurd all finds,
          fun _ => (updated.kept_iff_nothingNew foreign finds).mpr nothing⟩

end Update

/-- A transaction of the sample node, with an output to itself for each input. -/
def transfer (outpoints : List Outpoint) (values : List UInt32) : SignedTransaction :=
  let transaction : Transaction :=
    { inputPrevious := outpoints.map Prod.fst
      inputIndex := outpoints.map Prod.snd
      outputValue := values
      outputAddress := values.map fun _ => .sample }
  ⟨transaction, ⟨sign Crypto.sample transaction .sample, Crypto.sample.publicKey .sample⟩⟩

/-- The format of the generator: an output for the payment and one for the rest. -/
theorem allOrNothing_transfer :
    ∃ after, updateState Crypto.sample (icoState [.sample, .sample])
        (transfer [(H256.zero, 0), (H256.zero, 0)] [300, 700]) = some after ∧
      AllOrNothing Crypto.sample (icoState [.sample, .sample])
        (transfer [(H256.zero, 0), (H256.zero, 0)] [300, 700]) after := by
  have one : OneInput (icoState [.sample, .sample])
      (transfer [(H256.zero, 0), (H256.zero, 0)] [300, 700]) := by
    constructor
    · decide +kernel
    · decide +kernel
    · decide +kernel
  obtain ⟨after, updated, whole⟩ := @allOrNothing_iff Crypto.sample
    (icoState [.sample, .sample]) (transfer [(H256.zero, 0), (H256.zero, 0)] [300, 700])
    (by decide) (by decide +kernel)
  exact ⟨after, updated, whole.mpr (.inl one)⟩

/-- A sound transaction that spends two coins: the first of them is still there. -/
theorem first_coin_of_transfer :
    (transfer [(H256.zero, 0), (H256.zero, 1)] [1000, 1000]).Sound Crypto.sample ∧
      (transfer [(H256.zero, 0), (H256.zero, 1)] [1000, 1000]).Foreign Crypto.sample ∧
      ∃ after, updateState Crypto.sample (icoState [.sample, .sample])
          (transfer [(H256.zero, 0), (H256.zero, 1)] [1000, 1000]) = some after ∧
        (H256.zero, 0) ∈ after ∧
        ¬ AllOrNothing Crypto.sample (icoState [.sample, .sample])
          (transfer [(H256.zero, 0), (H256.zero, 1)] [1000, 1000]) after := by
  obtain ⟨after, updated, stays⟩ : ∃ after,
      updateState Crypto.sample (icoState [.sample, .sample])
          (transfer [(H256.zero, 0), (H256.zero, 1)] [1000, 1000]) = some after ∧
        (H256.zero, 0) ∈ after := by
    decide +kernel
  refine ⟨by decide +kernel, by decide +kernel, after, updated, stays, fun whole => ?_⟩
  have applied := whole.1 (by decide +kernel)
  exact applied.inputs 0 (by decide) (H256.zero, 0) (by decide) stays

end SimplifiedPrism
