import Mathlib.Algebra.BigOperators.Group.Finset.Basic
import Mathlib.Algebra.Order.BigOperators.Group.Finset
import Mathlib.Algebra.Order.BigOperators.Group.List
import SimplifiedPrism.PartialUpdate
import SimplifiedPrism.SpendableMempool

/-!
# What admission checks and what it leaves out

A received transaction is checked in three loops over its inputs before it
enters the mempool.  The last one compares the sum of the output values with the
value of the last input alone, and panics where that sum overflows.  This file
gives the transactions for which that agrees with the exact balance: all but those
that need several inputs to pay for their outputs.
-/

namespace SimplifiedPrism

variable {crypto : Crypto}

/-! ## The loop over the sums -/

/-- One pass of the loop over the sums. -/
def nextSums (currState : Ledger) (transaction : Transaction) (sums : UInt32 × UInt32)
    (i : Nat) : Option (UInt32 × UInt32) := do
  let key ← transaction.lookupKey i
  let coin ← currState.lookup key
  let outputValue ← transaction.outputValue[i]?
  return (coin.1, sums.2 + outputValue)

/-- The first `count` passes. -/
def sumsLoop (currState : Ledger) (transaction : Transaction) (count : Nat) :
    Option (UInt32 × UInt32) :=
  (List.range count).foldlM (nextSums currState transaction) (0, 0)

/-- A pass of the loop over the sums adds an output value beyond the range of `u32`,
which panics in a build with overflow checks. -/
def SumOverflows (currState : Ledger) (transaction : Transaction) : Prop :=
  ∃ i < transaction.inputPrevious.length, ∃ sums, sumsLoop currState transaction i = some sums ∧
    ∃ value, transaction.outputValue[i]? = some value ∧ 2 ^ 32 ≤ sums.2.toNat + value.toNat

/-- The exact sum of the first output values. -/
def Transaction.outputTotal (transaction : Transaction) (count : Nat) : Nat :=
  ((transaction.outputValue.take count).map UInt32.toNat).sum

/-- The value of the last input, zero if there is none. -/
def Transaction.lastValue (transaction : Transaction) (currState : Ledger) : Nat :=
  (transaction.lastInput.map currState.valueAt).getD 0

section Sums

theorem ownsInputs_iff {currState : Ledger} {tx : SignedTransaction} :
    tx.OwnsInputs crypto currState ↔ ∀ i < tx.transaction.inputPrevious.length,
      ∃ key ∈ tx.transaction.lookupKey i, ∃ coin ∈ currState.lookup key,
        coin.2 = addressOf crypto tx.sig.key := by
  simp only [SignedTransaction.OwnsInputs, Option.mem_def, exists_and_left]

instance (currState : Ledger) (tx : SignedTransaction) :
    Decidable (tx.OwnsInputs crypto currState) :=
  decidable_of_iff _ ownsInputs_iff.symm

variable {currState : Ledger} {tx : SignedTransaction}

theorem inputOutputSums_eq (currState : Ledger) (transaction : Transaction) :
    inputOutputSums currState transaction =
      sumsLoop currState transaction transaction.inputPrevious.length :=
  rfl

theorem sumsLoop_succ (transaction : Transaction) (count : Nat) :
    sumsLoop currState transaction (count + 1) =
      (sumsLoop currState transaction count).bind
        fun sums => nextSums currState transaction sums count := by
  rw [sumsLoop, List.range_succ, List.foldlM_append]
  simp only [List.foldlM_cons, List.foldlM_nil, bind_pure]
  rfl

theorem outputTotal_succ {transaction : Transaction} {count : Nat}
    (bound : count < transaction.outputValue.length) :
    transaction.outputTotal (count + 1) =
      transaction.outputTotal count + transaction.outputValue[count].toNat := by
  rw [Transaction.outputTotal, List.take_add_one, List.getElem?_eq_getElem bound,
    List.map_append, List.sum_append]
  simp [Transaction.outputTotal]

theorem outputTotal_mono {transaction : Transaction} {first last : Nat} (ordered : first ≤ last) :
    transaction.outputTotal first ≤ transaction.outputTotal last := by
  rw [Transaction.outputTotal, Transaction.outputTotal, List.map_take, List.map_take]
  exact List.monotone_sum_take _ ordered

/-- What the loop has computed when the inputs are there: the value of the last
input that was read, and the sum of the output values modulo 2^32. -/
theorem sumsLoop_of_owned (owns : tx.OwnsInputs crypto currState) {count : Nat}
    (bound : count ≤ tx.transaction.inputPrevious.length)
    (values : count ≤ tx.transaction.outputValue.length) :
    ∃ sums, sumsLoop currState tx.transaction count = some sums ∧
      sums.1.toNat = ((if count = 0 then none else tx.transaction.lookupKey (count - 1)).map
        currState.valueAt).getD 0 ∧
      sums.2.toNat = tx.transaction.outputTotal count % 2 ^ 32 := by
  induction count with
  | zero => exact ⟨(0, 0), rfl, rfl, rfl⟩
  | succ count ih =>
      obtain ⟨sums, looped, -, total⟩ := ih (by omega) (by omega)
      obtain ⟨key, coin, keyed, found, -⟩ := owns count (by omega)
      have value : tx.transaction.outputValue[count]? =
          some tx.transaction.outputValue[count] := List.getElem?_eq_getElem (by omega)
      refine ⟨(coin.1, sums.2 + tx.transaction.outputValue[count]), ?_, ?_, ?_⟩
      · rw [sumsLoop_succ, looped, Option.bind_some, nextSums, keyed]
        simp [found, value]
      · rw [if_neg (by omega), Nat.add_sub_cancel, keyed]
        simp [Ledger.valueAt, HashMap.weightAt_of_lookup found]
      · rw [UInt32.toNat_add, total, outputTotal_succ (by omega), Nat.mod_add_mod]

theorem sumOverflows_iff (owns : tx.OwnsInputs crypto currState)
    (values : tx.transaction.inputPrevious.length ≤ tx.transaction.outputValue.length) :
    SumOverflows currState tx.transaction ↔
      2 ^ 32 ≤ tx.transaction.outputTotal tx.transaction.inputPrevious.length := by
  constructor
  · rintro ⟨i, bound, sums, looped, value, found, overflow⟩
    by_contra inRange
    obtain ⟨computed, again, -, total⟩ :=
      sumsLoop_of_owned owns (show i ≤ _ by omega) (by omega)
    rw [looped, Option.some.injEq] at again
    subst again
    have next := @outputTotal_succ tx.transaction i (by omega)
    have grows := @outputTotal_mono tx.transaction (i + 1)
      tx.transaction.inputPrevious.length (by omega)
    rw [List.getElem?_eq_getElem (by omega), Option.some.injEq] at found
    rw [found] at next
    have small : tx.transaction.outputTotal i < 2 ^ 32 := by omega
    rw [Nat.mod_eq_of_lt small] at total
    omega
  · intro outOfRange
    -- the first sum out of range is the one of the pass that overflows
    have exceeds : ∃ count, 2 ^ 32 ≤ tx.transaction.outputTotal count := ⟨_, outOfRange⟩
    have least := Nat.find_min' exceeds outOfRange
    have reached := Nat.find_spec exceeds
    cases first : Nat.find exceeds with
    | zero =>
        rw [first] at reached
        simp [Transaction.outputTotal] at reached
    | succ i =>
        rw [first] at least reached
        have small : ¬ 2 ^ 32 ≤ tx.transaction.outputTotal i :=
          Nat.find_min exceeds (by omega)
        obtain ⟨sums, looped, -, total⟩ :=
          sumsLoop_of_owned owns (show i ≤ _ by omega) (by omega)
        rw [Nat.mod_eq_of_lt (by omega)] at total
        rw [outputTotal_succ (by omega)] at reached
        refine ⟨i, by omega, sums, looped, _, List.getElem?_eq_getElem (by omega), ?_⟩
        omega

theorem loops_of_owned (owns : tx.OwnsInputs crypto currState) :
    inputsUnspent currState tx.transaction = some true ∧
      inputsOwned crypto currState tx = some true := by
  refine ⟨allM_eq_some_true.mpr fun i inside => ?_, allM_eq_some_true.mpr fun i inside => ?_⟩
  · obtain ⟨key, coin, keyed, found, -⟩ := owns i (List.mem_range.mp inside)
    simp [keyed, Finmap.mem_of_lookup_eq_some found]
  · obtain ⟨key, coin, keyed, found, owner⟩ := owns i (List.mem_range.mp inside)
    simp [keyed, found, owner]

variable {node : Node} {tip : H256}

/-- A new, signed transaction that owns its inputs comes to the loop over the
sums, which decides. -/
theorem handleTransaction_of_owned (fresh : tx.hash crypto ∉ node.txPool)
    (verified : tx.verified crypto = true)
    (tipState : node.globState.lookup tip = some currState)
    (owns : tx.OwnsInputs crypto currState) :
    handleTransaction crypto node tip tx = (do
      let sums ← node.attempt (index .vector (inputOutputSums currState tx.transaction))
      if sums.1 < sums.2 then
        return { node }
      return { node := { node with txPool := node.txPool.insert (tx.hash crypto) tx }
               sent := [.broadcast (.newTransactionHashes [tx.hash crypto])] }) := by
  obtain ⟨unspent, owned⟩ := loops_of_owned owns
  simp [handleTransaction, fresh, verified, tipState, unspent, owned]

/-- With enough output values, it admits the transaction exactly when the wrapped
sum of the output values is at most the value of the last input. -/
theorem admitted_of_owned (fresh : tx.hash crypto ∉ node.txPool)
    (verified : tx.verified crypto = true)
    (tipState : node.globState.lookup tip = some currState)
    (owns : tx.OwnsInputs crypto currState)
    (values : tx.transaction.inputPrevious.length ≤ tx.transaction.outputValue.length) :
    ∃ progress, handleTransaction crypto node tip tx = .ok progress ∧
      (tx.hash crypto ∈ progress.node.txPool ↔
        tx.transaction.outputTotal tx.transaction.inputPrevious.length % 2 ^ 32 ≤
          tx.transaction.lastValue currState) := by
  obtain ⟨sums, looped, last, total⟩ := sumsLoop_of_owned owns (le_refl _) values
  have lastValue : sums.1.toNat = tx.transaction.lastValue currState := by
    rw [last, Transaction.lastValue, Transaction.lastInput]
    split
    · next empty =>
        have none : tx.transaction.lookupKey (tx.transaction.inputPrevious.length - 1) = none := by
          rw [Transaction.lookupKey, List.getElem?_eq_none (by omega)]
          rfl
        rw [none]
    · rfl
  rw [handleTransaction_of_owned fresh verified tipState owns, inputOutputSums_eq, looped,
    index_some, Node.attempt_ok, ok_bind, ← total, ← lastValue]
  split
  · next larger =>
      refine ⟨_, rfl, iff_of_false fresh ?_⟩
      rw [UInt32.lt_iff_toNat_lt] at larger
      omega
  · next covered =>
      refine ⟨_, rfl, iff_of_true (Finmap.mem_insert.mpr (.inl rfl)) ?_⟩
      rw [UInt32.lt_iff_toNat_lt] at covered
      omega

end Sums

/-! ## The balance -/

/-- The input vectors and the output vectors are equally long. -/
structure Transaction.EquallyLong (transaction : Transaction) : Prop where
  inputIndex : transaction.inputIndex.length = transaction.inputPrevious.length
  outputValue : transaction.outputValue.length = transaction.inputPrevious.length
  outputAddress : transaction.outputAddress.length = transaction.inputPrevious.length

instance (transaction : Transaction) : Decidable transaction.EquallyLong :=
  decidable_of_iff
    (transaction.inputIndex.length = transaction.inputPrevious.length ∧
      transaction.outputValue.length = transaction.inputPrevious.length ∧
      transaction.outputAddress.length = transaction.inputPrevious.length)
    ⟨fun long => ⟨long.1, long.2.1, long.2.2⟩,
      fun long => ⟨long.inputIndex, long.outputValue, long.outputAddress⟩⟩

/-- The distinct outpoints that a transaction names as inputs. -/
def Transaction.inputs (transaction : Transaction) : Finset Outpoint :=
  (transaction.inputPrevious.zip transaction.inputIndex).toFinset

/-- The exact sum of the values of the distinct inputs. -/
def Transaction.exactInputSum (transaction : Transaction) (currState : Ledger) : Nat :=
  transaction.inputs.sum currState.valueAt

/-- The exact sum of the output values. -/
def Transaction.exactOutputSum (transaction : Transaction) : Nat :=
  (transaction.outputValue.map UInt32.toNat).sum

/-- The outputs are worth more than the last input, and at most as much as all the
inputs. -/
def Transaction.PaysFromSeveral (transaction : Transaction) (currState : Ledger) : Prop :=
  transaction.lastValue currState < transaction.exactOutputSum ∧
    transaction.exactOutputSum ≤ transaction.exactInputSum currState

instance (transaction : Transaction) (currState : Ledger) :
    Decidable (transaction.PaysFromSeveral currState) :=
  inferInstanceAs (Decidable (_ ∧ _))

/-- The handler adds the transaction to the mempool: no sum overflows, which would
stop the worker, and the transaction is there when the handler has finished. -/
def Added (crypto : Crypto) (node : Node) (tip : H256) (currState : Ledger)
    (tx : SignedTransaction) : Prop :=
  ¬ SumOverflows currState tx.transaction ∧
    ∃ progress, handleTransaction crypto node tip tx = .ok progress ∧
      tx.hash crypto ∈ progress.node.txPool

section Balance

variable {currState : Ledger} {transaction : Transaction}

theorem Transaction.EquallyLong.lookupKey (long : transaction.EquallyLong) {i : Nat}
    (bound : i < transaction.inputPrevious.length) : ∃ key, transaction.lookupKey i = some key := by
  have indexed : i < transaction.inputIndex.length := long.inputIndex ▸ bound
  exact ⟨(transaction.inputPrevious[i], transaction.inputIndex[i]),
    by simp [Transaction.lookupKey, bound, indexed]⟩

theorem lastValue_lt (transaction : Transaction) (currState : Ledger) :
    transaction.lastValue currState < 2 ^ 32 := by
  rw [Transaction.lastValue]
  cases transaction.lastInput with
  | none => exact Nat.two_pow_pos 32
  | some key =>
      rw [Option.map_some, Option.getD_some, Ledger.valueAt, HashMap.weightAt]
      cases currState.lookup key with
      | none => exact Nat.two_pow_pos 32
      | some coin => exact coin.1.toNat_lt

theorem lastInput_mem_inputs {key : Outpoint} (last : transaction.lastInput = some key) :
    key ∈ transaction.inputs := by
  rw [Transaction.lastInput, Transaction.lookupKey] at last
  simp only [Option.bind_eq_bind, Option.bind_eq_some_iff, Option.pure_def,
    Option.some.injEq] at last
  obtain ⟨previous, previousAt, index, indexAt, rfl⟩ := last
  rw [Transaction.inputs, List.mem_toFinset]
  exact List.mem_of_getElem? (List.getElem?_zip_eq_some.mpr ⟨previousAt, indexAt⟩)

theorem lastValue_le (transaction : Transaction) (currState : Ledger) :
    transaction.lastValue currState ≤ transaction.exactInputSum currState := by
  rw [Transaction.lastValue]
  cases last : transaction.lastInput with
  | none => exact Nat.zero_le _
  | some key =>
      exact Finset.single_le_sum_of_canonicallyOrdered (f := currState.valueAt)
        (lastInput_mem_inputs last)

theorem Transaction.PaysFromSeveral.inputs (long : transaction.EquallyLong)
    (pays : transaction.PaysFromSeveral currState) : 1 < transaction.inputs.card := by
  obtain ⟨beyond, within⟩ := pays
  by_contra few
  rcases Nat.eq_zero_or_pos transaction.inputPrevious.length with empty | some
  · have none : transaction.inputs = ∅ := by
      rw [Transaction.inputs, List.eq_nil_of_length_eq_zero empty]
      rfl
    rw [Transaction.exactInputSum, none, Finset.sum_empty] at within
    omega
  · obtain ⟨key, last⟩ := long.lookupKey (show transaction.inputPrevious.length - 1 < _ by omega)
    rw [← Transaction.lastInput] at last
    have only : {key} = transaction.inputs := by
      apply Finset.eq_of_subset_of_card_le
      · exact Finset.singleton_subset_iff.mpr (lastInput_mem_inputs last)
      · rw [Finset.card_singleton]
        omega
    rw [Transaction.exactInputSum, ← only, Finset.sum_singleton] at within
    rw [Transaction.lastValue, last, Option.map_some, Option.getD_some] at beyond
    omega

end Balance

/-- The handler adds a new transaction that owns its inputs exactly when the outputs are
worth at most as much as the last input. -/
theorem added_iff {node : Node} {tip : H256} {currState : Ledger} {tx : SignedTransaction}
    (tipState : node.globState.lookup tip = some currState)
    (fresh : tx.hash crypto ∉ node.txPool) (verified : tx.verified crypto = true)
    (long : tx.transaction.EquallyLong) (owns : tx.OwnsInputs crypto currState) :
    Added crypto node tip currState tx ↔
      tx.transaction.exactOutputSum ≤ tx.transaction.lastValue currState := by
  have total : tx.transaction.outputTotal tx.transaction.inputPrevious.length =
      tx.transaction.exactOutputSum := by
    rw [Transaction.outputTotal, ← long.outputValue, List.take_length, Transaction.exactOutputSum]
  have bounded := lastValue_lt tx.transaction currState
  obtain ⟨progress, ran, admitted⟩ :=
    admitted_of_owned fresh verified tipState owns long.outputValue.ge
  rw [total] at admitted
  rw [Added, sumOverflows_iff owns long.outputValue.ge, total, ran]
  constructor
  · rintro ⟨small, _, ⟨⟩, pooled⟩
    rw [admitted, Nat.mod_eq_of_lt (by omega)] at pooled
    exact pooled
  · intro covered
    refine ⟨by omega, progress, rfl, ?_⟩
    rw [admitted, Nat.mod_eq_of_lt (by omega)]
    exact covered

/-- A new, signed transaction that owns its inputs is added if and only if the
outputs are within the exact balance, unless it needs several of its inputs to pay
for its outputs. -/
theorem added_iff_not_paysFromSeveral (node : Node) (tip : H256) (currState : Ledger)
    (tx : SignedTransaction) (tipState : node.globState.lookup tip = some currState)
    (fresh : tx.hash crypto ∉ node.txPool) (verified : tx.verified crypto = true)
    (long : tx.transaction.EquallyLong) (owns : tx.OwnsInputs crypto currState) :
    (Added crypto node tip currState tx ↔
        tx.transaction.exactOutputSum ≤ tx.transaction.exactInputSum currState) ↔
      ¬ tx.transaction.PaysFromSeveral currState := by
  have last := lastValue_le tx.transaction currState
  rw [added_iff tipState fresh verified long owns, Transaction.PaysFromSeveral]
  omega

/-- A node after an offering of two coins to its own address. -/
def Node.twoCoins : Node :=
  (handleIco Node.sample (genesisHash Crypto.sample) (icoState [.sample, .sample])).node

theorem added_transfer :
    Added Crypto.sample Node.twoCoins (genesisHash Crypto.sample) (icoState [.sample, .sample])
        (transfer [(H256.zero, 0), (H256.zero, 1)] [300, 700]) ∧
      ¬ Added Crypto.sample Node.twoCoins (genesisHash Crypto.sample)
        (icoState [.sample, .sample])
        (transfer [(H256.zero, 0), (H256.zero, 1)] [1000, 1001]) := by
  have within := @added_iff_not_paysFromSeveral Crypto.sample Node.twoCoins
    (genesisHash Crypto.sample) (icoState [.sample, .sample])
    (transfer [(H256.zero, 0), (H256.zero, 1)] [300, 700]) (by decide +kernel)
    (by decide +kernel) (by decide +kernel) (by decide) (by decide +kernel)
  have beyond := @added_iff_not_paysFromSeveral Crypto.sample Node.twoCoins
    (genesisHash Crypto.sample) (icoState [.sample, .sample])
    (transfer [(H256.zero, 0), (H256.zero, 1)] [1000, 1001]) (by decide +kernel)
    (by decide +kernel) (by decide +kernel) (by decide) (by decide +kernel)
  constructor
  · exact (within.mpr (by decide +kernel)).mpr (by decide +kernel)
  · exact fun added => absurd ((beyond.mpr (by decide +kernel)).mp added) (by decide +kernel)

/-- The node refuses to send two coins of 1000 on as two outputs of 1000. -/
theorem not_added_transfer :
    Node.twoCoins.globState.lookup (genesisHash Crypto.sample) =
        some (icoState [.sample, .sample]) ∧
      (transfer [(H256.zero, 0), (H256.zero, 1)] [1000, 1000]).hash Crypto.sample ∉
        Node.twoCoins.txPool ∧
      (transfer [(H256.zero, 0), (H256.zero, 1)] [1000, 1000]).verified Crypto.sample = true ∧
      (transfer [(H256.zero, 0), (H256.zero, 1)] [1000, 1000]).transaction.EquallyLong ∧
      (transfer [(H256.zero, 0), (H256.zero, 1)] [1000, 1000]).OwnsInputs Crypto.sample
        (icoState [.sample, .sample]) ∧
      (transfer [(H256.zero, 0), (H256.zero, 1)] [1000, 1000]).transaction.exactOutputSum =
        (transfer [(H256.zero, 0), (H256.zero, 1)] [1000, 1000]).transaction.exactInputSum
          (icoState [.sample, .sample]) ∧
      ¬ Added Crypto.sample Node.twoCoins (genesisHash Crypto.sample)
        (icoState [.sample, .sample])
        (transfer [(H256.zero, 0), (H256.zero, 1)] [1000, 1000]) := by
  refine ⟨by decide +kernel, by decide +kernel, by decide +kernel, by decide, by decide +kernel,
    by decide +kernel, ?_⟩
  have exactly := @added_iff Crypto.sample Node.twoCoins (genesisHash Crypto.sample)
    (icoState [.sample, .sample]) (transfer [(H256.zero, 0), (H256.zero, 1)] [1000, 1000])
    (by decide +kernel) (by decide +kernel) (by decide +kernel) (by decide) (by decide +kernel)
  exact fun added => absurd (exactly.mp added) (by decide +kernel)

end SimplifiedPrism
