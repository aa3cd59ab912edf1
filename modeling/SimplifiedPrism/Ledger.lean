import SimplifiedPrism.FiniteMap
import SimplifiedPrism.Block

/-!
# The ledger update

The worker, the orphan release and the miner share one piece of code: walk
through the referenced transaction blocks and apply their transactions one
after the other to a copy of the parent's ledger.  This file models it with
its panicking lookups and gathers what a single transaction can do to a ledger.
-/

namespace SimplifiedPrism

abbrev Outpoint := H256 × UInt32

/-- The value and the recipient stored at an outpoint. -/
abbrev Coin := UInt32 × H160

abbrev Ledger := HashMap Outpoint Coin

/-- The sum of all values of a ledger, in unbounded integers. -/
def Ledger.total (ledger : Ledger) : Nat :=
  HashMap.weight (fun coin => coin.1.toNat) ledger

/-- The value at an outpoint, zero if it is not in the ledger. -/
def Ledger.valueAt (ledger : Ledger) (outpoint : Outpoint) : Nat :=
  HashMap.weightAt (fun coin => coin.1.toNat) ledger outpoint

/-- The operation that panicked: an index into one of the maps, an index into
a vector, or an arithmetic operation. -/
inductive Panic
  | blocks
  | heights
  | txBlockPool
  | txBlockRef
  | globState
  | vector
  | arithmetic
deriving DecidableEq

/-- An indexing operation, which panics when there is nothing to return. -/
def index {α : Type} (panic : Panic) : Option α → Except Panic α
  | none => .error panic
  | some value => .ok value

@[simp]
theorem ok_bind {ε α β : Type} (value : α) (next : α → Except ε β) :
    ((Except.ok value : Except ε α) >>= next) = next value :=
  rfl

@[simp]
theorem error_bind {ε α β : Type} (failure : ε) (next : α → Except ε β) :
    ((Except.error failure : Except ε α) >>= next) = .error failure :=
  rfl

theorem bind_eq_ok {ε α β : Type} {first : Except ε α} {next : α → Except ε β} {result : β} :
    (first >>= next) = .ok result ↔ ∃ value, first = .ok value ∧ next value = .ok result := by
  cases first <;> simp

theorem bind_eq_error {ε α β : Type} {first : Except ε α} {next : α → Except ε β}
    {failure : ε} :
    (first >>= next) = .error failure ↔
      first = .error failure ∨ ∃ value, first = .ok value ∧ next value = .error failure := by
  cases first <;> simp

@[simp]
theorem index_none {α : Type} (panic : Panic) :
    index panic (none : Option α) = .error panic :=
  rfl

@[simp]
theorem index_some {α : Type} (panic : Panic) (value : α) :
    index panic (some value) = .ok value :=
  rfl

theorem index_eq_error {α : Type} {panic failure : Panic} {found : Option α} :
    index panic found = .error failure ↔ found = none ∧ failure = panic := by
  cases found <;> simp [index, eq_comm]

theorem index_eq_ok {α : Type} {panic : Panic} {found : Option α} {value : α} :
    index panic found = .ok value ↔ found = some value := by
  cases found <;> simp [index]

section UpdateState

variable (txHash : H256) (transaction : Transaction)

/-- The variables of the loop over the inputs of a transaction. -/
structure Spending where
  currState : Ledger
  lookupKey : Outpoint
  exist : Bool

/-- One pass of the loop over the inputs. -/
def Spending.next (spending : Spending) (i : Nat) : Option Spending := do
  let lookupKey ← transaction.lookupKey i
  if lookupKey ∈ spending.currState then
    let coin ← transaction.output i
    return ⟨spending.currState.insert (txHash, UInt32.ofNat i) coin, lookupKey, true⟩
  else
    return { spending with lookupKey := lookupKey }

/-- The loop over the first `count` inputs. -/
def Spending.loop (currState : Ledger) (count : Nat) : Option Spending :=
  (List.range count).foldlM (Spending.next txHash transaction)
    ⟨currState, (H256.zero, 0), false⟩

end UpdateState

variable (crypto : Crypto)

/-- Apply one transaction: write an output for every input that is present and
then remove the last input. -/
def updateState (currState : Ledger) (tx : SignedTransaction) : Option Ledger := do
  let spending ← Spending.loop (tx.hash crypto) tx.transaction currState
    tx.transaction.inputPrevious.length
  return if spending.exist then spending.currState.erase spending.lookupKey
    else spending.currState

/-- Apply a list of transactions one after the other. -/
def applyTransactions (currState : Ledger) (txs : List SignedTransaction) : Option Ledger :=
  txs.foldlM (updateState crypto) currState

/-- Apply all transactions of the referenced transaction blocks. -/
def updateLedger (txBlockPool : HashMap H256 TXBlock) :
    List H256 → Ledger → Except Panic Ledger
  | [], currState => .ok currState
  | ref :: refs, currState => do
      let currTxBlock ← index .txBlockPool (txBlockPool.lookup ref)
      let next ← currTxBlock.content.transactionContent.foldlM
        (fun currState tx => index .vector (updateState crypto currState tx)) currState
      updateLedger txBlockPool refs next

/-- Check the signatures of the referenced transaction blocks up to the first
one that holds a badly signed transaction. -/
def signedCorrectly (txBlockPool : HashMap H256 TXBlock) :
    List H256 → Except Panic Bool
  | [] => .ok true
  | ref :: refs => do
      let currTxBlock ← index .txBlockPool (txBlockPool.lookup ref)
      if currTxBlock.content.transactionContent.all (SignedTransaction.verified crypto) then
        signedCorrectly txBlockPool refs
      else
        return false

/-- The transactions of the referenced transaction blocks, in the order in
which they are applied. -/
def referenced (txBlockPool : HashMap H256 TXBlock) :
    List H256 → Option (List SignedTransaction)
  | [] => some []
  | ref :: refs => do
      let txBlock ← txBlockPool.lookup ref
      let txs ← referenced txBlockPool refs
      return txBlock.content.transactionContent ++ txs

/-! ## The loop over the inputs -/

section Loop

variable {txHash : H256} {transaction : Transaction} {currState : Ledger}

theorem Spending.loop_zero :
    Spending.loop txHash transaction currState 0 = some ⟨currState, (H256.zero, 0), false⟩ :=
  rfl

theorem Spending.loop_succ (count : Nat) :
    Spending.loop txHash transaction currState (count + 1) =
      (Spending.loop txHash transaction currState count).bind
        fun spending => spending.next txHash transaction count := by
  rw [Spending.loop, List.range_succ, List.foldlM_append]
  simp only [List.foldlM_cons, List.foldlM_nil, bind_pure]
  rfl

/-- One pass either finds its input and writes an output, or only moves on. -/
theorem Spending.next_cases {spending after : Spending} {i : Nat}
    (stepped : spending.next txHash transaction i = some after) :
    ∃ key, transaction.lookupKey i = some key ∧ after.lookupKey = key ∧
      ((key ∈ spending.currState ∧ ∃ coin, transaction.output i = some coin ∧
          after.currState = spending.currState.insert (txHash, UInt32.ofNat i) coin ∧
          after.exist = true) ∨
        (key ∉ spending.currState ∧ after.currState = spending.currState ∧
          after.exist = spending.exist)) := by
  simp only [Spending.next, Option.bind_eq_bind, Option.bind_eq_some_iff] at stepped
  obtain ⟨key, keyed, stepped⟩ := stepped
  refine ⟨key, keyed, ?_⟩
  split at stepped
  · next present =>
      simp only [Option.bind_eq_some_iff, Option.pure_def, Option.some.injEq] at stepped
      obtain ⟨coin, produced, rfl⟩ := stepped
      exact ⟨rfl, .inl ⟨present, coin, produced, rfl, rfl⟩⟩
  · next absent =>
      simp only [Option.pure_def, Option.some.injEq] at stepped
      subst stepped
      exact ⟨rfl, .inr ⟨absent, rfl, rfl⟩⟩

/-- What every prefix of the loop keeps: nothing disappears, only outputs of
this transaction are written, and the last input read is remembered. -/
structure Spending.Frame (txHash : H256) (transaction : Transaction)
    (currState : Ledger) (count : Nat) (spending : Spending) : Prop where
  keeps : ∀ outpoint ∈ currState, outpoint ∈ spending.currState
  others : ∀ outpoint : Outpoint, outpoint.1 ≠ txHash →
    spending.currState.lookup outpoint = currState.lookup outpoint
  last : 0 < count → transaction.lookupKey (count - 1) = some spending.lookupKey
  unspent : spending.exist = false → spending.currState = currState
  counted : spending.exist = true → 0 < count

theorem Spending.loop_frame {count : Nat} {spending : Spending}
    (looped : Spending.loop txHash transaction currState count = some spending) :
    Spending.Frame txHash transaction currState count spending := by
  induction count generalizing spending with
  | zero =>
      rw [Spending.loop_zero, Option.some.injEq] at looped
      subst looped
      exact ⟨fun _ member => member, fun _ _ => rfl, by simp, fun _ => rfl, by simp⟩
  | succ count ih =>
      rw [Spending.loop_succ, Option.bind_eq_some_iff] at looped
      obtain ⟨before, looped, stepped⟩ := looped
      have frame := ih looped
      obtain ⟨key, keyed, lookupKey, written | skipped⟩ := Spending.next_cases stepped
      · obtain ⟨-, coin, -, currState, exist⟩ := written
        refine ⟨fun outpoint member => ?_, fun outpoint other => ?_, fun _ => ?_, ?_, ?_⟩
        · rw [currState, Finmap.mem_insert]
          exact .inr (frame.keeps outpoint member)
        · rw [currState, HashMap.lookup_insert_ite, if_neg, frame.others outpoint other]
          intro same
          exact other (congrArg Prod.fst same)
        · rw [lookupKey, Nat.add_sub_cancel, keyed]
        · simp [exist]
        · intro _
          omega
      · obtain ⟨-, currState, exist⟩ := skipped
        refine ⟨fun outpoint member => ?_, fun outpoint other => ?_, fun _ => ?_, ?_, ?_⟩
        · rw [currState]
          exact frame.keeps outpoint member
        · rw [currState]
          exact frame.others outpoint other
        · rw [lookupKey, Nat.add_sub_cancel, keyed]
        · rw [currState, exist]
          exact frame.unspent
        · intro _
          omega

theorem Spending.loop_isSome (shape : transaction.WellShaped) {count : Nat}
    (bound : count ≤ transaction.inputPrevious.length) :
    ∃ spending, Spending.loop txHash transaction currState count = some spending := by
  induction count with
  | zero => exact ⟨_, Spending.loop_zero⟩
  | succ count ih =>
      obtain ⟨before, looped⟩ := ih (by omega)
      have bound : count < transaction.inputPrevious.length := by omega
      obtain ⟨key, keyed⟩ := shape.indexed.lookupKey_isSome bound
      obtain ⟨coin, produced⟩ := shape.output_isSome bound
      rw [Spending.loop_succ, looped]
      simp only [Option.bind_some, Spending.next, keyed, produced, Option.bind_eq_bind]
      split
      · exact ⟨_, rfl⟩
      · exact ⟨_, rfl⟩

end Loop

variable {crypto}

/-- The last input of a transaction: the only outpoint it can remove. -/
def Transaction.lastInput (transaction : Transaction) : Option Outpoint :=
  transaction.lookupKey (transaction.inputPrevious.length - 1)

/-- A transaction either finds none of its inputs and changes nothing, or the
loop ends in a state from which its last input is removed. -/
theorem updateState_cases {currState after : Ledger} {tx : SignedTransaction}
    (updated : updateState crypto currState tx = some after) :
    after = currState ∨
      0 < tx.transaction.inputPrevious.length ∧
      ∃ spending, Spending.loop (tx.hash crypto) tx.transaction currState
          tx.transaction.inputPrevious.length = some spending ∧
        tx.transaction.lastInput = some spending.lookupKey ∧
        after = spending.currState.erase spending.lookupKey := by
  simp only [updateState, Option.bind_eq_bind, Option.bind_eq_some_iff,
    Option.pure_def, Option.some.injEq] at updated
  obtain ⟨spending, looped, rfl⟩ := updated
  have frame := Spending.loop_frame looped
  cases existed : spending.exist with
  | false =>
      left
      simpa using frame.unspent existed
  | true =>
      right
      have counted := frame.counted existed
      exact ⟨counted, spending, looped, frame.last counted, by simp⟩

theorem lastInput_of_removed {currState after : Ledger} {tx : SignedTransaction}
    (updated : updateState crypto currState tx = some after) {outpoint : Outpoint}
    (before : outpoint ∈ currState) (removed : outpoint ∉ after) :
    tx.transaction.lastInput = some outpoint := by
  rcases updateState_cases updated with rfl | ⟨-, spending, looped, last, rfl⟩
  · exact absurd before removed
  · have kept := (Spending.loop_frame looped).keeps outpoint before
    rw [Finmap.mem_erase, not_and] at removed
    by_cases same : outpoint = spending.lookupKey
    · rw [same, last]
    · exact absurd kept (removed same)

theorem updateState_isSome {tx : SignedTransaction} (shape : tx.transaction.WellShaped)
    (currState : Ledger) : ∃ after, updateState crypto currState tx = some after := by
  have completes : ∃ spending, Spending.loop (tx.hash crypto) tx.transaction currState
      tx.transaction.inputPrevious.length = some spending :=
    Spending.loop_isSome shape (le_refl _)
  obtain ⟨spending, looped⟩ := completes
  simp [updateState, looped]

/-! ## Lists of transactions and of references -/

@[simp]
theorem applyTransactions_nil (currState : Ledger) :
    applyTransactions crypto currState [] = some currState :=
  rfl

theorem applyTransactions_cons (currState : Ledger) (tx : SignedTransaction)
    (txs : List SignedTransaction) :
    applyTransactions crypto currState (tx :: txs) =
      (updateState crypto currState tx).bind
        fun next => applyTransactions crypto next txs :=
  rfl

theorem applyTransactions_append (currState : Ledger) (first second : List SignedTransaction) :
    applyTransactions crypto currState (first ++ second) =
      (applyTransactions crypto currState first).bind
        fun middle => applyTransactions crypto middle second :=
  List.foldlM_append

theorem applyTransactions_concat {currState after : Ledger} {txs : List SignedTransaction}
    {tx : SignedTransaction} :
    applyTransactions crypto currState (txs ++ [tx]) = some after ↔
      ∃ middle, applyTransactions crypto currState txs = some middle ∧
        updateState crypto middle tx = some after := by
  simp [applyTransactions_append, applyTransactions_cons, Option.bind_eq_some_iff]

theorem applyTransactions_isSome {txs : List SignedTransaction}
    (shapes : ∀ tx ∈ txs, tx.transaction.WellShaped) (currState : Ledger) :
    ∃ after, applyTransactions crypto currState txs = some after := by
  induction txs generalizing currState with
  | nil => exact ⟨currState, rfl⟩
  | cons tx txs ih =>
      obtain ⟨next, updated⟩ := updateState_isSome (shapes tx (by simp)) currState
      obtain ⟨after, applied⟩ := ih (fun other member => shapes other (by simp [member])) next
      exact ⟨after, by rw [applyTransactions_cons, updated, Option.bind_some, applied]⟩

theorem exists_lastInput_of_removed {txs : List SignedTransaction}
    {currState after : Ledger} (applied : applyTransactions crypto currState txs = some after)
    {outpoint : Outpoint} (before : outpoint ∈ currState) (removed : outpoint ∉ after) :
    ∃ tx ∈ txs, tx.transaction.lastInput = some outpoint := by
  induction txs generalizing currState with
  | nil =>
      rw [applyTransactions_nil, Option.some.injEq] at applied
      subst applied
      exact absurd before removed
  | cons tx txs ih =>
      rw [applyTransactions_cons, Option.bind_eq_some_iff] at applied
      obtain ⟨next, updated, applied⟩ := applied
      by_cases kept : outpoint ∈ next
      · obtain ⟨other, member, last⟩ := ih applied kept
        exact ⟨other, by simp [member], last⟩
      · exact ⟨tx, by simp, lastInput_of_removed updated before kept⟩

theorem foldlM_index (currState : Ledger) (txs : List SignedTransaction) :
    (txs.foldlM (fun currState tx => index .vector (updateState crypto currState tx))
        currState : Except Panic Ledger) =
      index .vector (applyTransactions crypto currState txs) := by
  induction txs generalizing currState with
  | nil => rfl
  | cons tx txs ih =>
      rw [List.foldlM_cons, applyTransactions_cons]
      cases updated : updateState crypto currState tx with
      | none => rfl
      | some next => exact ih next

section References

variable {txBlockPool : HashMap H256 TXBlock}

theorem referenced_cons {ref : H256} {refs : List H256} {txs : List SignedTransaction} :
    referenced txBlockPool (ref :: refs) = some txs ↔
      ∃ txBlock rest, txBlockPool.lookup ref = some txBlock ∧
        referenced txBlockPool refs = some rest ∧
        txs = txBlock.content.transactionContent ++ rest := by
  simp only [referenced, Option.bind_eq_bind, Option.bind_eq_some_iff, Option.pure_def,
    Option.some.injEq]
  constructor
  · rintro ⟨txBlock, found, rest, collected, rfl⟩
    exact ⟨txBlock, rest, found, collected, rfl⟩
  · rintro ⟨txBlock, rest, found, collected, rfl⟩
    exact ⟨txBlock, found, rest, collected, rfl⟩

theorem referenced_isSome {refs : List H256} (present : ∀ ref ∈ refs, ref ∈ txBlockPool) :
    ∃ txs, referenced txBlockPool refs = some txs := by
  induction refs with
  | nil => exact ⟨[], rfl⟩
  | cons ref refs ih =>
      obtain ⟨txBlock, found⟩ := HashMap.lookup_of_mem (present ref (by simp))
      obtain ⟨rest, collected⟩ := ih fun other member => present other (by simp [member])
      exact ⟨_, referenced_cons.mpr ⟨txBlock, rest, found, collected, rfl⟩⟩

theorem mem_pool_of_referenced {refs : List H256} {txs : List SignedTransaction}
    (collected : referenced txBlockPool refs = some txs) :
    ∀ ref ∈ refs, ref ∈ txBlockPool := by
  induction refs generalizing txs with
  | nil => simp
  | cons ref refs ih =>
      obtain ⟨txBlock, rest, found, collectedRest, rfl⟩ := referenced_cons.mp collected
      intro other member
      rcases List.mem_cons.mp member with rfl | member
      · exact Finmap.mem_of_lookup_eq_some found
      · exact ih collectedRest other member

theorem mem_referenced {refs : List H256} {txs : List SignedTransaction}
    (collected : referenced txBlockPool refs = some txs) {tx : SignedTransaction} :
    tx ∈ txs ↔ ∃ ref ∈ refs, ∃ txBlock, txBlockPool.lookup ref = some txBlock ∧
      tx ∈ txBlock.content.transactionContent := by
  induction refs generalizing txs with
  | nil =>
      simp only [referenced, Option.some.injEq] at collected
      simp [← collected]
  | cons ref refs ih =>
      obtain ⟨txBlock, rest, found, collectedRest, rfl⟩ := referenced_cons.mp collected
      rw [List.mem_append, ih collectedRest]
      constructor
      · rintro (member | ⟨other, member, block, lookup, inside⟩)
        · exact ⟨ref, by simp, txBlock, found, member⟩
        · exact ⟨other, by simp [member], block, lookup, inside⟩
      · rintro ⟨other, member, block, lookup, inside⟩
        rcases List.mem_cons.mp member with rfl | member
        · rw [found, Option.some.injEq] at lookup
          exact .inl (lookup ▸ inside)
        · exact .inr ⟨other, member, block, lookup, inside⟩

theorem referenced_congr {pool other : HashMap H256 TXBlock} {refs : List H256}
    (agree : ∀ ref ∈ refs, pool.lookup ref = other.lookup ref) :
    referenced pool refs = referenced other refs := by
  induction refs with
  | nil => rfl
  | cons ref refs ih =>
      rw [referenced, referenced, agree ref (by simp),
        ih fun other member => agree other (by simp [member])]

theorem updateLedger_of_referenced {refs : List H256} {txs : List SignedTransaction}
    (collected : referenced txBlockPool refs = some txs) (currState : Ledger) :
    updateLedger crypto txBlockPool refs currState =
      index .vector (applyTransactions crypto currState txs) := by
  induction refs generalizing txs currState with
  | nil =>
      simp only [referenced, Option.some.injEq] at collected
      subst collected
      rfl
  | cons ref refs ih =>
      obtain ⟨txBlock, rest, found, collectedRest, rfl⟩ := referenced_cons.mp collected
      rw [updateLedger, found, applyTransactions_append, index_some, ok_bind, foldlM_index]
      cases applyTransactions crypto currState txBlock.content.transactionContent with
      | none => rfl
      | some next =>
          rw [index_some, ok_bind, Option.bind_some]
          exact ih collectedRest next

theorem referenced_of_updateLedger {refs : List H256} {currState after : Ledger}
    (updated : updateLedger crypto txBlockPool refs currState = .ok after) :
    ∃ txs, referenced txBlockPool refs = some txs ∧
      applyTransactions crypto currState txs = some after := by
  have present : ∀ ref ∈ refs, ref ∈ txBlockPool := by
    induction refs generalizing currState with
    | nil => simp
    | cons ref refs ih =>
        obtain ⟨txBlock, found, rest⟩ := bind_eq_ok.mp updated
        obtain ⟨next, -, rest⟩ := bind_eq_ok.mp rest
        intro other member
        rcases List.mem_cons.mp member with rfl | member
        · exact Finmap.mem_of_lookup_eq_some (index_eq_ok.mp found)
        · exact ih rest other member
  obtain ⟨txs, collected⟩ := referenced_isSome present
  rw [updateLedger_of_referenced collected, index_eq_ok] at updated
  exact ⟨txs, collected, updated⟩

theorem signedCorrectly_eq_true {refs : List H256} :
    signedCorrectly crypto txBlockPool refs = .ok true ↔
      ∃ txs, referenced txBlockPool refs = some txs ∧
        ∀ tx ∈ txs, tx.verified crypto = true := by
  induction refs with
  | nil => simp [signedCorrectly, referenced]
  | cons ref refs ih =>
      cases found : txBlockPool.lookup ref with
      | none => simp [signedCorrectly, found, referenced]
      | some txBlock =>
          simp only [signedCorrectly, found, index_some, ok_bind]
          split
          · next allVerified =>
              rw [ih]
              constructor
              · rintro ⟨txs, collected, verified⟩
                refine ⟨_, referenced_cons.mpr ⟨txBlock, txs, found, collected, rfl⟩, ?_⟩
                intro tx member
                rcases List.mem_append.mp member with inside | later
                · exact List.all_eq_true.mp allVerified tx inside
                · exact verified tx later
              · rintro ⟨txs, collected, verified⟩
                obtain ⟨block, rest, lookup, collectedRest, rfl⟩ := referenced_cons.mp collected
                exact ⟨rest, collectedRest, fun tx member => verified tx (by simp [member])⟩
          · next someWrong =>
              constructor
              · intro impossible
                cases impossible
              · rintro ⟨txs, collected, verified⟩
                obtain ⟨block, rest, lookup, collectedRest, rfl⟩ := referenced_cons.mp collected
                rw [found, Option.some.injEq] at lookup
                subst lookup
                refine absurd (List.all_eq_true.mpr fun tx member => ?_) someWrong
                exact verified tx (by simp [member])

end References

end SimplifiedPrism
