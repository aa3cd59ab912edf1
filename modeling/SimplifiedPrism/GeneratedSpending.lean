import SimplifiedPrism.Invariants
import SimplifiedPrism.SpendHistory

/-!
# Ledgers under generated transactions

A generated transaction names its outpoint twice, so that the ledger update
erases this outpoint and writes two new ones, or does nothing.  On the keys of
the ledger that is a `SpendScheme`; this file makes the connection and derives
that the coin at an outpoint is the same in every ledger and that the total
never changes.
-/

namespace SimplifiedPrism

variable {crypto : Crypto}

/-! ## One transaction -/

section SpendsTwice

variable {tx : SignedTransaction} {outpoint : Outpoint} {first second : Coin}

theorem SpendsTwice.lastInput (spends : SpendsTwice tx outpoint first second) :
    tx.transaction.lastInput = some outpoint := by
  rw [Transaction.lastInput, spends.inputs]
  exact spends.input1

/-- The ledger after a transaction that finds its outpoint. -/
def spent (crypto : Crypto) (currState : Ledger) (tx : SignedTransaction) (outpoint : Outpoint)
    (first second : Coin) : Ledger :=
  ((currState.insert (tx.hash crypto, 0) first).insert (tx.hash crypto, 1) second).erase outpoint

theorem SpendsTwice.updateState_of_mem (spends : SpendsTwice tx outpoint first second)
    {currState : Ledger} (present : outpoint ∈ currState) :
    updateState crypto currState tx = some (spent crypto currState tx outpoint first second) := by
  have stillPresent : outpoint ∈ currState.insert (tx.hash crypto, 0) first :=
    Finmap.mem_insert.mpr (.inr present)
  have looped : Spending.loop (tx.hash crypto) tx.transaction currState 2 =
      some ⟨(currState.insert (tx.hash crypto, 0) first).insert (tx.hash crypto, 1) second,
        outpoint, true⟩ := by
    rw [Spending.loop_succ, Spending.loop_succ, Spending.loop_zero]
    simp [Spending.next, spends.input0, spends.input1, spends.output0, spends.output1, present,
      stillPresent]
  rw [updateState, spends.inputs, looped]
  rfl

theorem SpendsTwice.updateState_of_notMem (spends : SpendsTwice tx outpoint first second)
    {currState : Ledger} (absent : outpoint ∉ currState) :
    updateState crypto currState tx = some currState := by
  have looped : Spending.loop (tx.hash crypto) tx.transaction currState 2 =
      some ⟨currState, outpoint, false⟩ := by
    rw [Spending.loop_succ, Spending.loop_succ, Spending.loop_zero]
    simp [Spending.next, spends.input0, spends.input1, absent]
  rw [updateState, spends.inputs, looped]
  rfl

theorem mem_spent {currState : Ledger} {other : Outpoint} :
    other ∈ spent crypto currState tx outpoint first second ↔
      other ≠ outpoint ∧
        (other = (tx.hash crypto, 1) ∨ other = (tx.hash crypto, 0) ∨ other ∈ currState) := by
  rw [spent, Finmap.mem_erase, Finmap.mem_insert, Finmap.mem_insert]

theorem lookup_spent {currState : Ledger} {other : Outpoint} :
    (spent crypto currState tx outpoint first second).lookup other =
      if other = outpoint then none
      else if other = (tx.hash crypto, 1) then some second
      else if other = (tx.hash crypto, 0) then some first
      else currState.lookup other := by
  rw [spent, HashMap.lookup_erase_ite, HashMap.lookup_insert_ite, HashMap.lookup_insert_ite]

/-- When both new outpoints are fresh, the total changes by the difference
between what is created and what is spent. -/
theorem total_spent {currState : Ledger} {coin : Coin}
    (found : currState.lookup outpoint = some coin)
    (fresh0 : (tx.hash crypto, 0) ∉ currState) (fresh1 : (tx.hash crypto, 1) ∉ currState) :
    (spent crypto currState tx outpoint first second).total + coin.1.toNat =
      currState.total + first.1.toNat + second.1.toNat := by
  have present : outpoint ∈ currState := Finmap.mem_of_lookup_eq_some found
  have other0 : outpoint ≠ (tx.hash crypto, 0) := fun same => fresh0 (same ▸ present)
  have other1 : outpoint ≠ (tx.hash crypto, 1) := fun same => fresh1 (same ▸ present)
  have fresh1' : (tx.hash crypto, 1) ∉ currState.insert (tx.hash crypto, 0) first := by
    rw [Finmap.mem_insert, not_or]
    exact ⟨by simp, fresh1⟩
  have kept : ((currState.insert (tx.hash crypto, 0) first).insert
      (tx.hash crypto, 1) second).lookup outpoint = some coin := by
    rw [HashMap.lookup_insert_ite, if_neg other1, HashMap.lookup_insert_ite, if_neg other0, found]
  have erased := HashMap.weight_erase (fun coin : Coin => coin.1.toNat)
    ((currState.insert (tx.hash crypto, 0) first).insert (tx.hash crypto, 1) second) outpoint
  rw [HashMap.weightAt_of_lookup kept, HashMap.weight_insert_of_notMem _ _ fresh1',
    HashMap.weight_insert_of_notMem _ _ fresh0] at erased
  rw [spent, Ledger.total, Ledger.total, erased]
  omega

end SpendsTwice

/-! ## The transactions of a tree -/

/-- Transactions that spend a single outpoint each and whose hashes tell them
apart from each other and from the initial coin offering. -/
structure SingleSpends (crypto : Crypto) (txs : Set SignedTransaction) : Prop where
  spends : ∀ tx ∈ txs, ∃ outpoint first second, SpendsTwice tx outpoint first second
  injective : Set.InjOn (SignedTransaction.hash crypto) txs
  nonzero : ∀ tx ∈ txs, tx.hash crypto ≠ H256.zero

/-- All coins of a ledger were made by the initial coin offering. -/
def Ledger.Original (ledger : Ledger) : Prop :=
  ∀ outpoint ∈ ledger, outpoint.1 = H256.zero

theorem original_icoState (allAddr : List H160) : (icoState allAddr).Original := by
  have kept : ∀ (entries : List (H160 × Nat)) (state : Ledger), state.Original →
      Ledger.Original (entries.foldl
        (fun state entry => state.insert (H256.zero, UInt32.ofNat entry.2) (1000, entry.1))
        state) := by
    intro entries
    induction entries with
    | nil => exact fun _ original => original
    | cons entry entries ih =>
        intro state original
        apply ih
        intro outpoint member
        rcases Finmap.mem_insert.mp member with rfl | member
        · rfl
        · exact original outpoint member
  apply kept
  intro outpoint member
  exact absurd member Finmap.notMem_empty

/-- Spending seen on the keys of the ledger. -/
def spendScheme (crypto : Crypto) (initialLedger : Ledger) :
    SpendScheme SignedTransaction Outpoint where
  initial := {outpoint | outpoint ∈ initialLedger}
  input := fun tx => tx.transaction.lastInput.getD (H256.zero, 0)
  creates := fun tx => {(tx.hash crypto, 0), (tx.hash crypto, 1)}

section Histories

variable {initialLedger : Ledger} {txs : Set SignedTransaction}

theorem SpendsTwice.input {tx : SignedTransaction} {outpoint : Outpoint} {first second : Coin}
    (spends : SpendsTwice tx outpoint first second) :
    (spendScheme crypto initialLedger).input tx = outpoint := by
  simp [spendScheme, spends.lastInput]

theorem fresh_of_singleSpends (singles : SingleSpends crypto txs)
    (original : initialLedger.Original) : (spendScheme crypto initialLedger).Fresh txs := by
  have origin : ∀ (tx : SignedTransaction) (outpoint : Outpoint),
      outpoint ∈ (spendScheme crypto initialLedger).creates tx → outpoint.1 = tx.hash crypto := by
    rintro tx outpoint (rfl | rfl)
    · rfl
    · rfl
  constructor
  · intro tx member outpoint created initial
    have zero := original outpoint initial
    rw [origin tx outpoint created] at zero
    exact singles.nonzero tx member zero
  · intro tx member other otherMember outpoint created createdToo
    apply singles.injective member otherMember
    rw [← origin tx outpoint created, origin other outpoint createdToo]

/-- One transaction acts on the keys of the ledger as the scheme says. -/
theorem keys_updateState (singles : SingleSpends crypto txs) {tx : SignedTransaction}
    (member : tx ∈ txs) {currState after : Ledger}
    (updated : updateState crypto currState tx = some after) :
    {outpoint | outpoint ∈ after} =
      (spendScheme crypto initialLedger).spend {outpoint | outpoint ∈ currState} tx := by
  obtain ⟨outpoint, first, second, spends⟩ := singles.spends tx member
  rw [SpendScheme.spend, spends.input]
  by_cases present : outpoint ∈ currState
  · rw [spends.updateState_of_mem present, Option.some.injEq] at updated
    rw [← updated, if_pos (show outpoint ∈ {other | other ∈ currState} from present)]
    ext other
    simp only [Set.mem_ofPred_eq, mem_spent, spendScheme, Set.mem_sdiff, Set.mem_union,
      Set.mem_insert_iff, Set.mem_singleton_iff]
    tauto
  · rw [spends.updateState_of_notMem present, Option.some.injEq] at updated
    rw [← updated, if_neg (show outpoint ∉ {other | other ∈ currState} from present)]

/-- The keys of a ledger are the unspent outpoints of its history. -/
theorem keys_applyTransactions (singles : SingleSpends crypto txs)
    {history : List SignedTransaction} (members : ∀ tx ∈ history, tx ∈ txs) {ledger : Ledger}
    (applied : applyTransactions crypto initialLedger history = some ledger) :
    {outpoint | outpoint ∈ ledger} = (spendScheme crypto initialLedger).unspent history := by
  induction history using List.reverseRecOn generalizing ledger with
  | nil =>
      rw [applyTransactions_nil, Option.some.injEq] at applied
      subst applied
      rfl
  | append_singleton history tx ih =>
      obtain ⟨middle, earlier, updated⟩ := applyTransactions_concat.mp applied
      rw [SpendScheme.unspent_concat, ← ih (fun other inside => members other (by simp [inside]))
        earlier]
      exact keys_updateState singles (members tx (by simp)) updated

/-- A coin was made by the offering or is an output of a transaction. -/
def Issued (crypto : Crypto) (initialLedger : Ledger) (txs : Set SignedTransaction)
    (outpoint : Outpoint) (coin : Coin) : Prop :=
  initialLedger.lookup outpoint = some coin ∨
    ∃ tx ∈ txs, outpoint.1 = tx.hash crypto ∧
      tx.transaction.output outpoint.2.toNat = some coin

/-- The coin at an outpoint is the same in every ledger. -/
theorem Issued.unique (singles : SingleSpends crypto txs) (original : initialLedger.Original)
    {outpoint : Outpoint} {coin other : Coin}
    (issued : Issued crypto initialLedger txs outpoint coin)
    (issuedToo : Issued crypto initialLedger txs outpoint other) : coin = other := by
  have notInitial : ∀ tx ∈ txs, outpoint.1 = tx.hash crypto →
      ∀ value, initialLedger.lookup outpoint ≠ some value := by
    intro tx member hashed value found
    have zero := original outpoint (Finmap.mem_of_lookup_eq_some found)
    exact singles.nonzero tx member (hashed ▸ zero)
  rcases issued with found | ⟨tx, member, hashed, output⟩
  · rcases issuedToo with foundToo | ⟨tx, member, hashed, -⟩
    · exact Option.some.inj (found.symm.trans foundToo)
    · exact absurd found (notInitial tx member hashed coin)
  · rcases issuedToo with foundToo | ⟨txToo, memberToo, hashedToo, outputToo⟩
    · exact absurd foundToo (notInitial tx member hashed other)
    · have same : tx = txToo :=
        singles.injective member memberToo (hashed.symm.trans hashedToo)
      subst same
      exact Option.some.inj (output.symm.trans outputToo)

theorem issued_of_lookup (singles : SingleSpends crypto txs)
    {history : List SignedTransaction} (members : ∀ tx ∈ history, tx ∈ txs) {ledger : Ledger}
    (applied : applyTransactions crypto initialLedger history = some ledger)
    {outpoint : Outpoint} {coin : Coin} (found : ledger.lookup outpoint = some coin) :
    Issued crypto initialLedger txs outpoint coin := by
  induction history using List.reverseRecOn generalizing ledger outpoint coin with
  | nil =>
      rw [applyTransactions_nil, Option.some.injEq] at applied
      subst applied
      exact .inl found
  | append_singleton history tx ih =>
      obtain ⟨middle, earlier, updated⟩ := applyTransactions_concat.mp applied
      have before : ∀ {other : Outpoint} {value : Coin}, middle.lookup other = some value →
          Issued crypto initialLedger txs other value :=
        ih (fun other inside => members other (by simp [inside])) earlier
      have member : tx ∈ txs := members tx (by simp)
      obtain ⟨input, first, second, spends⟩ := singles.spends tx member
      by_cases present : input ∈ middle
      · rw [spends.updateState_of_mem present, Option.some.injEq] at updated
        rw [← updated, lookup_spent] at found
        split at found
        · cases found
        split at found
        · next same =>
            cases found
            exact .inr ⟨tx, member, by rw [same], by rw [same]; exact spends.output1⟩
        split at found
        · next same =>
            cases found
            exact .inr ⟨tx, member, by rw [same], by rw [same]; exact spends.output0⟩
        · exact before found
      · rw [spends.updateState_of_notMem present, Option.some.injEq] at updated
        exact before (updated ▸ found)

/-- What a transaction creates has the value of the coin it spends, wherever
that coin is found. -/
def Balanced (crypto : Crypto) (initialLedger : Ledger) (txs : Set SignedTransaction) : Prop :=
  ∀ tx ∈ txs, ∃ outpoint coin first second, Issued crypto initialLedger txs outpoint coin ∧
    SpendsTwice tx outpoint first second ∧ first.1.toNat + second.1.toNat = coin.1.toNat

/-- Balanced transactions keep the total, in every order, with all duplicates
and conflicts. -/
theorem total_of_balanced (singles : SingleSpends crypto txs)
    (original : initialLedger.Original) (balanced : Balanced crypto initialLedger txs)
    {history : List SignedTransaction} (members : ∀ tx ∈ history, tx ∈ txs) {ledger : Ledger}
    (applied : applyTransactions crypto initialLedger history = some ledger) :
    ledger.total = initialLedger.total := by
  induction history using List.reverseRecOn generalizing ledger with
  | nil =>
      rw [applyTransactions_nil, Option.some.injEq] at applied
      rw [applied]
  | append_singleton history tx ih =>
      obtain ⟨middle, earlier, updated⟩ := applyTransactions_concat.mp applied
      have membersEarlier : ∀ other ∈ history, other ∈ txs :=
        fun other inside => members other (by simp [inside])
      have member : tx ∈ txs := members tx (by simp)
      have same : middle.total = initialLedger.total := ih membersEarlier earlier
      obtain ⟨outpoint, coin, first, second, issued, spends, shared⟩ := balanced tx member
      by_cases present : outpoint ∈ middle
      · rw [spends.updateState_of_mem present, Option.some.injEq] at updated
        obtain ⟨current, found⟩ := HashMap.lookup_of_mem present
        have sameCoin : current = coin :=
          (issued_of_lookup singles membersEarlier earlier found).unique singles original issued
        have keys := keys_applyTransactions singles membersEarlier earlier
        have inputPresent : (spendScheme crypto initialLedger).input tx ∈
            (spendScheme crypto initialLedger).unspent history := by
          rw [← keys, spends.input]
          exact present
        have fresh : ∀ other ∈ (spendScheme crypto initialLedger).creates tx, other ∉ middle := by
          intro other created already
          have unspent : other ∈ (spendScheme crypto initialLedger).unspent history :=
            keys ▸ already
          exact SpendScheme.creates_notMem_unspent (fresh_of_singleSpends singles original)
            membersEarlier member inputPresent created unspent
        have total : (spent crypto middle tx outpoint first second).total + current.1.toNat =
            middle.total + first.1.toNat + second.1.toNat :=
          total_spent found (fresh _ (.inl rfl)) (fresh _ (.inr rfl))
        rw [updated, sameCoin] at total
        omega
      · rw [spends.updateState_of_notMem present, Option.some.injEq] at updated
        rw [← updated, same]

end Histories

end SimplifiedPrism
