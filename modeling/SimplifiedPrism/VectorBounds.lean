import SimplifiedPrism.Admission

/-!
# Vectors indexed in range

A transaction from a peer has four vectors of any lengths, and every pass over
its inputs indexes some of them by the same counter.  Admission reads the input
vectors and the output values, the later passes read the addresses too.  This
file gives the transactions for which admission panics on no index, overflows no
sum and lets nothing into the mempool on which a later pass panics.
-/

namespace SimplifiedPrism

variable {crypto : Crypto}

/-! ## The loop over the inputs -/

/-- An input that can be read is not in a ledger. -/
def Transaction.Misses (transaction : Transaction) (ledger : Ledger) : Prop :=
  ∃ i < transaction.inputPrevious.length, ∃ key ∈ transaction.lookupKey i, key ∉ ledger

instance (transaction : Transaction) (ledger : Ledger) :
    Decidable (transaction.Misses ledger) :=
  inferInstanceAs (Decidable (∃ i < _, ∃ key ∈ transaction.lookupKey i, key ∉ ledger))

/-- A test of a list that ends early has found an element that fails it. -/
theorem exists_of_allM_eq_false {α : Type} {test : α → Option Bool} {list : List α}
    (tested : list.allM test = some false) : ∃ element ∈ list, test element = some false := by
  induction list with
  | nil => cases tested
  | cons head list ih =>
      rw [List.allM, Option.bind_eq_bind, Option.bind_eq_some_iff] at tested
      obtain ⟨passed, testedHead, tested⟩ := tested
      cases passed with
      | false => exact ⟨head, List.mem_cons_self, testedHead⟩
      | true =>
          obtain ⟨element, member, failed⟩ := ih tested
          exact ⟨element, List.mem_cons_of_mem head member, failed⟩

/-- A test of a list that panics has passed everything before the element on
which it does. -/
theorem exists_of_allM_eq_none {α : Type} {test : α → Option Bool} {list : List α}
    (tested : list.allM test = none) : ∃ before element after,
      list = before ++ element :: after ∧ test element = none ∧
        ∀ earlier ∈ before, test earlier = some true := by
  induction list with
  | nil => cases tested
  | cons head list ih =>
      rw [List.allM, Option.bind_eq_bind, Option.bind_eq_none_iff] at tested
      cases testedHead : test head with
      | none => exact ⟨[], head, list, rfl, testedHead, by simp⟩
      | some passed =>
          have tested := tested passed testedHead
          cases passed with
          | false => cases tested
          | true =>
              obtain ⟨before, element, after, rfl, panics, passes⟩ := ih tested
              refine ⟨head :: before, element, after, rfl, panics, ?_⟩
              intro earlier member
              rcases List.mem_cons.mp member with rfl | member
              · exact testedHead
              · exact passes earlier member

section Inputs

variable {transaction : Transaction} {ledger : Ledger}

theorem lookupKey_eq_none {i : Nat} (bound : i < transaction.inputPrevious.length) :
    transaction.lookupKey i = none ↔ transaction.inputIndex.length ≤ i := by
  rw [Transaction.lookupKey, List.getElem?_eq_getElem bound, ← List.getElem?_eq_none_iff]
  cases transaction.inputIndex[i]? <;> simp

/-- The check that the inputs are unspent panics when the indices run out before
an input is missing. -/
theorem inputsUnspent_eq_none (panics : inputsUnspent ledger transaction = none) :
    ¬ transaction.Indexed ∧ ¬ transaction.Misses ledger := by
  obtain ⟨before, i, after, split, panics, passes⟩ := exists_of_allM_eq_none panics
  have bound : i < transaction.inputPrevious.length := by
    rw [← List.mem_range, split]
    simp
  have earlier : ∀ j < i, j ∈ before := by
    have position : before.length = i := by
      have inside : before.length < transaction.inputPrevious.length := by
        have lengths := congrArg List.length split
        simp only [List.length_range, List.length_append, List.length_cons] at lengths
        omega
      have read := congrArg (fun list => list[before.length]?) split
      simpa [inside] using read
    intro j less
    have read := congrArg (fun list => list[j]?) split
    rw [List.getElem?_range (by omega), List.getElem?_append_left (by omega)] at read
    exact List.mem_of_getElem? read.symm
  have unread : transaction.lookupKey i = none := by
    cases keyed : transaction.lookupKey i with
    | none => rfl
    | some key => simp [keyed] at panics
  have short := (lookupKey_eq_none bound).mp unread
  refine ⟨fun indexed => ?_, ?_⟩
  · rw [Transaction.Indexed] at indexed
    omega
  · rintro ⟨j, otherBound, key, keyed, missing⟩
    have less : j < i := by
      by_contra later
      have unreadToo := (lookupKey_eq_none otherBound).mpr (by omega)
      rw [unreadToo] at keyed
      cases keyed
    have passed := passes j (earlier j less)
    simp [Option.mem_def.mp keyed, missing] at passed

theorem inputsUnspent_of_misses (misses : transaction.Misses ledger) :
    inputsUnspent ledger transaction = some false := by
  cases checked : inputsUnspent ledger transaction with
  | none => exact absurd misses (inputsUnspent_eq_none checked).2
  | some passed =>
      cases passed with
      | false => rfl
      | true =>
          obtain ⟨i, bound, key, keyed, missing⟩ := misses
          have passed := allM_eq_some_true.mp checked i (List.mem_range.mpr bound)
          simp [Option.mem_def.mp keyed, missing] at passed

theorem misses_of_inputsUnspent (checked : inputsUnspent ledger transaction = some false) :
    transaction.Misses ledger := by
  obtain ⟨i, member, failed⟩ := exists_of_allM_eq_false checked
  simp only [Option.bind_eq_bind, Option.bind_eq_some_iff, Option.pure_def, Option.some.injEq,
    decide_eq_false_iff_not] at failed
  obtain ⟨key, keyed, missing⟩ := failed
  exact ⟨i, List.mem_range.mp member, key, keyed, missing⟩

end Inputs

/-! ## What the later passes read -/

/-- The passes over the mempool and the ledger update index the vectors of a
transaction in range, whatever the ledger. -/
structure InRange (crypto : Crypto) (tx : SignedTransaction) : Prop where
  pruned : ∀ ledger, ∃ txPool, pruneTxPool
    ((∅ : HashMap H256 SignedTransaction).insert (tx.hash crypto) tx) ledger = some txPool
  selected : ∀ ledger, ∃ content, selectTransactions
    ((∅ : HashMap H256 SignedTransaction).insert (tx.hash crypto) tx) ledger
    [tx.hash crypto] 0 = some content
  updated : ∀ ledger, ∃ after, updateState crypto ledger tx = some after

section Later

variable {tx : SignedTransaction}

/-- A ledger with a coin for every input of a transaction. -/
def Transaction.fundedLedger (transaction : Transaction) (coin : Coin) : Ledger :=
  (transaction.inputPrevious.zip transaction.inputIndex).foldr
    (fun outpoint ledger => ledger.insert outpoint coin) ∅

theorem mem_fundedLedger {transaction : Transaction} {coin : Coin} {i : Nat} {key : Outpoint}
    (keyed : transaction.lookupKey i = some key) : key ∈ transaction.fundedLedger coin := by
  have member : key ∈ transaction.inputPrevious.zip transaction.inputIndex := by
    simp only [Transaction.lookupKey, Option.bind_eq_bind, Option.bind_eq_some_iff,
      Option.pure_def, Option.some.injEq] at keyed
    obtain ⟨previous, foundPrevious, index, foundIndex, rfl⟩ := keyed
    apply List.mem_of_getElem? (i := i)
    rw [List.getElem?_zip_eq_some]
    exact ⟨foundPrevious, foundIndex⟩
  rw [Transaction.fundedLedger]
  generalize transaction.inputPrevious.zip transaction.inputIndex = outpoints at member
  induction outpoints with
  | nil => cases member
  | cons outpoint outpoints ih =>
      rw [List.foldr_cons, Finmap.mem_insert]
      rcases List.mem_cons.mp member with same | member
      · exact .inl same
      · exact .inr (ih member)

theorem output_of_loop {txHash : H256} {transaction : Transaction} {ledger : Ledger}
    {count : Nat} {spending : Spending}
    (looped : Spending.loop txHash transaction ledger count = some spending)
    (finds : ∀ i < count, transaction.FindsInput ledger i) :
    ∀ i < count, ∃ coin, transaction.output i = some coin := by
  induction count generalizing spending with
  | zero =>
      intro i bound
      omega
  | succ count ih =>
      rw [Spending.loop_succ, Option.bind_eq_some_iff] at looped
      obtain ⟨before, looped, stepped⟩ := looped
      intro i bound
      by_cases atEnd : i = count
      · subst atEnd
        obtain ⟨key, keyed, present⟩ := finds i (by omega)
        have kept := (Spending.loop_frame looped).keeps key present
        obtain ⟨read, readKey, -, ⟨-, coin, produced, -⟩ | ⟨misses, -⟩⟩ :=
          Spending.next_cases stepped
        · exact ⟨coin, produced⟩
        · rw [Option.mem_def.mp keyed, Option.some.injEq] at readKey
          exact absurd (readKey ▸ kept) misses
      · exact ih looped (fun j less => finds j (by omega)) i (by omega)

/-- The later passes stay in range exactly for the well-shaped transactions. -/
theorem inRange_iff_wellShaped : InRange crypto tx ↔ tx.transaction.WellShaped := by
  constructor
  · intro inRange
    have indexed : tx.transaction.Indexed := by
      obtain ⟨txPool, pruned⟩ := inRange.pruned ∅
      rw [pruneTxPool, Option.ite_none_right_eq_some] at pruned
      refine pruned.1 ⟨tx.hash crypto, tx⟩ ?_
      rw [HashMap.mem_entries_iff, Finmap.lookup_insert]
    have outputs : ∀ i < tx.transaction.inputPrevious.length,
        ∃ coin, tx.transaction.output i = some coin := by
      obtain ⟨after, updated⟩ :=
        inRange.updated (tx.transaction.fundedLedger (0, addressOf crypto tx.sig.key))
      rw [updateState, Option.bind_eq_bind, Option.bind_eq_some_iff] at updated
      obtain ⟨spending, looped, -⟩ := updated
      refine output_of_loop looped fun i bound => ?_
      obtain ⟨key, keyed⟩ := indexed.lookupKey_isSome bound
      exact ⟨key, keyed, mem_fundedLedger keyed⟩
    cases count : tx.transaction.inputPrevious.length with
    | zero => exact ⟨indexed, by omega, by omega⟩
    | succ last =>
        obtain ⟨coin, output⟩ := outputs last (by omega)
        simp only [Transaction.output, Option.bind_eq_bind, Option.bind_eq_some_iff] at output
        obtain ⟨value, foundValue, address, foundAddress, -⟩ := output
        have values := (List.getElem?_eq_some_iff.mp foundValue).1
        have addresses := (List.getElem?_eq_some_iff.mp foundAddress).1
        exact ⟨indexed, by omega, by omega⟩
  · intro shape
    refine ⟨fun ledger => ?_, fun ledger => ?_, fun ledger => updateState_isSome shape ledger⟩
    · refine ⟨_, pruneTxPool_of_indexed ?_ ledger⟩
      intro hash stored found
      rw [HashMap.lookup_insert_ite] at found
      split at found
      · cases found
        exact shape.indexed
      · simp at found
    · have checked : ∃ valid, inputsUnspent ledger tx.transaction = some valid := by
        cases checked : inputsUnspent ledger tx.transaction with
        | none => exact absurd shape.indexed (inputsUnspent_eq_none checked).1
        | some valid => exact ⟨valid, rfl⟩
      obtain ⟨valid, checked⟩ := checked
      cases valid with
      | false => exact ⟨[], by simp [selectTransactions, checked]⟩
      | true => exact ⟨[tx], by simp [selectTransactions, checked]⟩

end Later

/-! ## Admission -/

/-- Admission comes to the loop over the sums, and a sum overflows. -/
structure Overflows (crypto : Crypto) (node : Node) (currState : Ledger)
    (tx : SignedTransaction) : Prop where
  fresh : tx.hash crypto ∉ node.txPool
  verified : tx.verified crypto = true
  unspent : inputsUnspent currState tx.transaction = some true
  owned : inputsOwned crypto currState tx = some true
  sums : SumOverflows currState tx.transaction

/-- Admission panics on no index and overflows no sum, and the later passes stay
in range for what it adds to the mempool. -/
structure Processed (crypto : Crypto) (node : Node) (tip : H256) (currState : Ledger)
    (tx : SignedTransaction) : Prop where
  runs : ∃ progress, handleTransaction crypto node tip tx = .ok progress
  sums : ¬ Overflows crypto node currState tx
  later : ∀ progress, handleTransaction crypto node tip tx = .ok progress →
    tx.hash crypto ∉ node.txPool → tx.hash crypto ∈ progress.node.txPool → InRange crypto tx

/-- There are enough output values, their sum is in the range of `u32`, and there
are enough addresses unless the sum exceeds the value of the last input. -/
def Transaction.PaysInRange (transaction : Transaction) (currState : Ledger) : Prop :=
  transaction.inputPrevious.length ≤ transaction.outputValue.length ∧
    transaction.outputTotal transaction.inputPrevious.length < 2 ^ 32 ∧
    (transaction.inputPrevious.length ≤ transaction.outputAddress.length ∨
      transaction.lastValue currState <
        transaction.outputTotal transaction.inputPrevious.length)

/-- A transaction is refused before its vectors run out, or they do not run out. -/
def Fits (crypto : Crypto) (node : Node) (currState : Ledger) (tx : SignedTransaction) : Prop :=
  tx.hash crypto ∈ node.txPool ∨ tx.verified crypto = false ∨ tx.transaction.Misses currState ∨
    tx.transaction.Indexed ∧
      (¬ tx.OwnsInputs crypto currState ∨ tx.transaction.PaysInRange currState)

section Admission

variable {node : Node} {tip : H256} {currState : Ledger} {tx : SignedTransaction}

theorem processed_of_refused (ran : handleTransaction crypto node tip tx = .ok { node })
    (early : tx.hash crypto ∉ node.txPool → tx.verified crypto = true →
      inputsUnspent currState tx.transaction = some true →
      inputsOwned crypto currState tx ≠ some true) :
    Processed crypto node tip currState tx := by
  refine ⟨⟨_, ran⟩, fun exceeds =>
    early exceeds.fresh exceeds.verified exceeds.unspent exceeds.owned, ?_⟩
  intro progress again fresh member
  rw [ran, Except.ok.injEq] at again
  subst again
  exact absurd member fresh

theorem inputsOwned_of_foreign (unspent : inputsUnspent currState tx.transaction = some true)
    (foreign : ¬ tx.OwnsInputs crypto currState) :
    inputsOwned crypto currState tx = some false := by
  have reads : ∀ i < tx.transaction.inputPrevious.length, ∃ key coin,
      tx.transaction.lookupKey i = some key ∧ currState.lookup key = some coin := by
    intro i bound
    have checked := allM_eq_some_true.mp unspent i (List.mem_range.mpr bound)
    simp only [Option.bind_eq_bind, Option.bind_eq_some_iff, Option.pure_def, Option.some.injEq,
      decide_eq_true_eq] at checked
    obtain ⟨key, keyed, present⟩ := checked
    obtain ⟨coin, found⟩ := HashMap.lookup_of_mem present
    exact ⟨key, coin, keyed, found⟩
  cases checked : inputsOwned crypto currState tx with
  | none =>
      obtain ⟨before, i, after, split, panics, -⟩ := exists_of_allM_eq_none checked
      have bound : i < tx.transaction.inputPrevious.length := by
        rw [← List.mem_range, split]
        simp
      obtain ⟨key, coin, keyed, found⟩ := reads i bound
      simp [keyed, found] at panics
  | some owned =>
      cases owned with
      | false => rfl
      | true =>
          refine absurd (fun i bound => ?_) foreign
          have passed := allM_eq_some_true.mp checked i (List.mem_range.mpr bound)
          obtain ⟨key, coin, keyed, found⟩ := reads i bound
          simp only [keyed, found, Option.bind_eq_bind, Option.bind_some, Option.pure_def,
            Option.some.injEq, decide_eq_true_eq] at passed
          exact ⟨key, coin, keyed, found, passed⟩

theorem length_of_sumsLoop {count : Nat} {sums : UInt32 × UInt32}
    (looped : sumsLoop currState tx.transaction count = some sums) :
    count ≤ tx.transaction.outputValue.length := by
  cases count with
  | zero => exact Nat.zero_le _
  | succ count =>
      rw [sumsLoop_succ, Option.bind_eq_some_iff] at looped
      obtain ⟨_, -, stepped⟩ := looped
      simp only [nextSums, Option.bind_eq_bind, Option.bind_eq_some_iff] at stepped
      obtain ⟨_, -, _, -, value, found, -⟩ := stepped
      exact (List.getElem?_eq_some_iff.mp found).1

/-- With owned inputs, the output vectors decide. -/
theorem processed_of_owned (fresh : tx.hash crypto ∉ node.txPool)
    (verified : tx.verified crypto = true)
    (tipState : node.globState.lookup tip = some currState) (indexed : tx.transaction.Indexed)
    (owns : tx.OwnsInputs crypto currState) :
    Processed crypto node tip currState tx ↔ tx.transaction.PaysInRange currState := by
  obtain ⟨unspent, owned⟩ := loops_of_owned owns
  by_cases values : tx.transaction.inputPrevious.length ≤ tx.transaction.outputValue.length
  · obtain ⟨progress, ran, admitted⟩ := admitted_of_owned fresh verified tipState owns values
    constructor
    · intro processed
      have small : tx.transaction.outputTotal tx.transaction.inputPrevious.length < 2 ^ 32 := by
        by_contra outOfRange
        refine processed.sums ⟨fresh, verified, unspent, owned, ?_⟩
        exact (sumOverflows_iff owns values).mpr (Nat.le_of_not_lt outOfRange)
      refine ⟨values, small, ?_⟩
      by_cases covered : tx.transaction.outputTotal tx.transaction.inputPrevious.length ≤
          tx.transaction.lastValue currState
      · rw [Nat.mod_eq_of_lt small] at admitted
        have inRange := processed.later progress ran fresh (admitted.mpr covered)
        exact .inl (inRange_iff_wellShaped.mp inRange).addresses
      · exact .inr (Nat.lt_of_not_le covered)
    · rintro ⟨-, small, pays⟩
      refine ⟨⟨progress, ran⟩, fun exceeds => ?_, fun again same _ member => ?_⟩
      · have outOfRange := (sumOverflows_iff owns values).mp exceeds.sums
        omega
      · rw [ran, Except.ok.injEq] at same
        subst same
        rw [admitted, Nat.mod_eq_of_lt small] at member
        refine inRange_iff_wellShaped.mpr ⟨indexed, values, ?_⟩
        omega
  · constructor
    · intro processed
      obtain ⟨progress, ran⟩ := processed.runs
      rw [handleTransaction_of_owned fresh verified tipState owns, inputOutputSums_eq] at ran
      simp only [bind_eq_ok, Node.attempt_eq_ok, index_eq_ok] at ran
      obtain ⟨sums, looped, -⟩ := ran
      exact absurd (length_of_sumsLoop looped) values
    · intro pays
      exact absurd pays.1 values

end Admission

/-- A received transaction is processed without a panic or an overflow, now and
later, exactly when it fits: it is pooled already or badly signed, or an input
that can be read is missing, or its inputs have indices and are not all owned, or
its output vectors are long enough and their sum is in range. -/
theorem processed_iff_fits (node : Node) (tip : H256) (currState : Ledger)
    (tx : SignedTransaction) (tipState : node.globState.lookup tip = some currState) :
    Processed crypto node tip currState tx ↔ Fits crypto node currState tx := by
  by_cases pooled : tx.hash crypto ∈ node.txPool
  · refine iff_of_true (processed_of_refused ?_ fun fresh => absurd pooled fresh) (.inl pooled)
    rw [handleTransaction, if_pos pooled]
  cases verified : tx.verified crypto with
  | false =>
      refine iff_of_true (processed_of_refused ?_ fun _ signed => ?_) (.inr (.inl verified))
      · rw [handleTransaction, if_neg pooled, if_pos verified]
      · rw [verified] at signed
        cases signed
  | true =>
  by_cases misses : tx.transaction.Misses currState
  · have unspent := inputsUnspent_of_misses misses
    refine iff_of_true (processed_of_refused ?_ fun _ _ found => ?_) (.inr (.inr (.inl misses)))
    · simp [handleTransaction, pooled, verified, tipState, unspent]
      rfl
    · rw [unspent] at found
      cases found
  cases unspent : inputsUnspent currState tx.transaction with
  | none =>
      have short := (inputsUnspent_eq_none unspent).1
      refine iff_of_false (fun processed => ?_) ?_
      · obtain ⟨progress, ran⟩ := processed.runs
        simp [handleTransaction, pooled, verified, tipState, unspent] at ran
      · rintro (member | unsigned | missing | ⟨indexed, -⟩)
        · exact pooled member
        · rw [verified] at unsigned
          cases unsigned
        · exact misses missing
        · exact short indexed
  | some found =>
  cases found with
  | false => exact absurd (misses_of_inputsUnspent unspent) misses
  | true =>
  have indexed := indexed_of_inputsUnspent unspent
  have fits : Fits crypto node currState tx ↔
      (¬ tx.OwnsInputs crypto currState ∨ tx.transaction.PaysInRange currState) := by
    simp [Fits, pooled, verified, misses, indexed]
  rw [fits]
  by_cases owns : tx.OwnsInputs crypto currState
  · rw [processed_of_owned pooled verified tipState indexed owns]
    simp [owns]
  · have foreign := inputsOwned_of_foreign unspent owns
    refine iff_of_true (processed_of_refused ?_ fun _ _ _ owned => ?_) (.inl owns)
    · simp [handleTransaction, pooled, verified, tipState, unspent, foreign]
    · rw [foreign] at owned
      cases owned

/-- A transfer without the addresses it goes to. -/
def unaddressed : SignedTransaction :=
  let transaction : Transaction :=
    { inputPrevious := [H256.zero]
      inputIndex := [0]
      outputValue := [1000]
      outputAddress := [] }
  ⟨transaction, ⟨sign Crypto.sample transaction .sample, Crypto.sample.publicKey .sample⟩⟩

theorem processed_transfer :
    Processed Crypto.sample Node.twoCoins (genesisHash Crypto.sample)
      (icoState [.sample, .sample]) (transfer [(H256.zero, 0), (H256.zero, 0)] [300, 700]) := by
  refine (processed_iff_fits _ _ _ _ (by decide +kernel)).mpr (.inr (.inr (.inr ⟨?_, .inr ?_⟩)))
  · decide
  · refine ⟨?_, ?_, .inl ?_⟩
    · decide
    · decide +kernel
    · decide

/-- A transaction without addresses is admitted, and the update of the very ledger it
was checked against panics. -/
theorem admitted_unaddressed :
    Node.twoCoins.globState.lookup (genesisHash Crypto.sample) =
        some (icoState [.sample, .sample]) ∧
      updateState Crypto.sample (icoState [.sample, .sample]) unaddressed = none ∧
      ¬ Processed Crypto.sample Node.twoCoins (genesisHash Crypto.sample)
        (icoState [.sample, .sample]) unaddressed := by
  have admits : Admits Crypto.sample Node.twoCoins (genesisHash Crypto.sample) unaddressed := by
    refine ⟨by decide +kernel, by decide +kernel, icoState [.sample, .sample], (1000, 1000), ?_⟩
    decide +kernel
  have panics : updateState Crypto.sample (icoState [.sample, .sample]) unaddressed = none := by
    decide +kernel
  refine ⟨by decide +kernel, panics, fun processed => ?_⟩
  have inRange := processed.later _ admits.ran admits.fresh (Finmap.mem_insert.mpr (.inl rfl))
  obtain ⟨after, updated⟩ := inRange.updated (icoState [.sample, .sample])
  rw [panics] at updated
  cases updated

end SimplifiedPrism
