import SimplifiedPrism.Invariants

/-!
# The checks that the block path leaves out

At admission to the mempool a transaction has to be covered by the value it
spends and signed by the owner.  A transaction that arrives in a transaction
block meets neither check: the comments of the block path announce them, but
only the signature is verified.  This file says when the ledger is safe all the
same, and shows a run in which it is not.
-/

namespace SimplifiedPrism

variable {crypto : Crypto}

/-! ## What the block path could check -/

/-- The transactions of a block that passes the signature check are good for the
ledger of its parent. -/
def Vetted (crypto : Crypto) (good : Ledger → List SignedTransaction → Prop) (state : State)
    (action : Action) : Prop :=
  ∀ block ∈ state.checked crypto action,
    signedCorrectly crypto state.node.txBlockPool block.content.proposerContent = .ok true →
    ∀ txs ∈ referenced state.node.txBlockPool block.content.proposerContent,
      ∀ parentLedger ∈ state.node.globState.lookup block.header.proposerParent,
        good parentLedger txs

instance (good : Ledger → List SignedTransaction → Prop)
    [∀ parentLedger txs, Decidable (good parentLedger txs)] (state : State) (action : Action) :
    Decidable (Vetted crypto good state action) :=
  inferInstanceAs (Decidable (∀ block ∈ state.checked crypto action,
    signedCorrectly crypto state.node.txBlockPool block.content.proposerContent = .ok true →
    ∀ txs ∈ referenced state.node.txBlockPool block.content.proposerContent,
      ∀ parentLedger ∈ state.node.globState.lookup block.header.proposerParent,
        good parentLedger txs))

theorem Vetted.accepts {good : Ledger → List SignedTransaction → Prop} {before after : State}
    {action : Action} {block : ProposerBlock} (vetted : Vetted crypto good before action)
    (accepted : WorkerAccepts crypto before action block after) :
    ∃ parentLedger txs ledger,
      Accepts crypto before.node block parentLedger txs ledger after.node ∧
        good parentLedger txs := by
  obtain ⟨parentLedger, txs, ledger, accepts⟩ := accepts_of_apply accepted.applied
  exact ⟨parentLedger, txs, ledger, accepts, vetted block accepted.checked accepted.signed txs
    accepts.references parentLedger accepts.parentState⟩

/-! ## Value -/

/-- The sum of the outputs for those of the first `count` inputs that are in the
ledger. -/
def Transaction.created (transaction : Transaction) (currState : Ledger) (count : Nat) : Nat :=
  ((List.range count).map fun i =>
    if (transaction.lookupKey i).any fun lookupKey => lookupKey ∈ currState then
      ((transaction.output i).map fun coin => coin.1.toNat).getD 0
    else
      0).sum

/-- The value at the last input. -/
def Transaction.removed (transaction : Transaction) (currState : Ledger) : Nat :=
  (transaction.lastInput.map currState.valueAt).getD 0

/-- A transaction names no output of its own and writes no more value than the
last input holds. -/
structure Covered (crypto : Crypto) (currState : Ledger) (tx : SignedTransaction) : Prop where
  foreign : ∀ i < tx.transaction.inputPrevious.length,
    ∀ lookupKey ∈ tx.transaction.lookupKey i, lookupKey.1 ≠ tx.hash crypto
  value : tx.transaction.created currState tx.transaction.inputPrevious.length ≤
    tx.transaction.removed currState

instance (currState : Ledger) (tx : SignedTransaction) :
    Decidable (Covered crypto currState tx) :=
  decidable_of_iff
    ((∀ i < tx.transaction.inputPrevious.length,
        ∀ lookupKey ∈ tx.transaction.lookupKey i, lookupKey.1 ≠ tx.hash crypto) ∧
      tx.transaction.created currState tx.transaction.inputPrevious.length ≤
        tx.transaction.removed currState)
    ⟨fun covered => ⟨covered.1, covered.2⟩, fun covered => ⟨covered.foreign, covered.value⟩⟩

/-- Every transaction is covered by the ledger that it meets. -/
def AllCovered (crypto : Crypto) : Ledger → List SignedTransaction → Prop
  | _, [] => True
  | currState, tx :: txs =>
      Covered crypto currState tx ∧
        ∀ next ∈ updateState crypto currState tx, AllCovered crypto next txs

instance decidableAllCovered (currState : Ledger) :
    (txs : List SignedTransaction) → Decidable (AllCovered crypto currState txs)
  | [] => isTrue trivial
  | tx :: txs =>
      have : ∀ next, Decidable (AllCovered crypto next txs) :=
        fun next => decidableAllCovered next txs
      inferInstanceAs (Decidable (Covered crypto currState tx ∧
        ∀ next ∈ updateState crypto currState tx, AllCovered crypto next txs))

theorem created_succ (transaction : Transaction) (currState : Ledger) (count : Nat) :
    transaction.created currState (count + 1) =
      transaction.created currState count +
        if (transaction.lookupKey count).any fun lookupKey => lookupKey ∈ currState then
          ((transaction.output count).map fun coin => coin.1.toNat).getD 0
        else
          0 := by
  simp [Transaction.created, List.range_succ]

/-- The loop over the inputs writes at most the created value. -/
theorem total_loop_le {txHash : H256} {transaction : Transaction} {currState : Ledger}
    {count : Nat} {spending : Spending}
    (foreign : ∀ i < count, ∀ lookupKey ∈ transaction.lookupKey i, lookupKey.1 ≠ txHash)
    (looped : Spending.loop txHash transaction currState count = some spending) :
    spending.currState.total ≤ currState.total + transaction.created currState count := by
  induction count generalizing spending with
  | zero =>
      rw [Spending.loop_zero, Option.some.injEq] at looped
      subst looped
      exact Nat.le_add_right _ _
  | succ count ih =>
      rw [Spending.loop_succ, Option.bind_eq_some_iff] at looped
      obtain ⟨before, looped, stepped⟩ := looped
      have earlier := ih (fun i bound => foreign i (by omega)) looped
      have frame := Spending.loop_frame looped
      obtain ⟨key, keyed, -, written | ⟨-, unchanged, -⟩⟩ := Spending.next_cases stepped
      · obtain ⟨present, coin, produced, written, -⟩ := written
        -- the input was in the ledger from the start, since it is no own output
        have presentBefore : key ∈ currState := by
          have same := frame.others key (foreign count (by omega) key keyed)
          obtain ⟨value, found⟩ := HashMap.lookup_of_mem present
          exact Finmap.mem_of_lookup_eq_some (same ▸ found)
        have weight := HashMap.weight_insert (fun coin : Coin => coin.1.toNat) before.currState
          (txHash, UInt32.ofNat count) coin
        rw [created_succ, keyed, produced, written]
        simp only [Ledger.total, Option.any_some, presentBefore, decide_true, if_true,
          Option.map_some, Option.getD_some] at earlier ⊢
        omega
      · rw [created_succ, unchanged]
        omega

theorem total_updateState_le {currState after : Ledger} {tx : SignedTransaction}
    (covered : Covered crypto currState tx)
    (updated : updateState crypto currState tx = some after) :
    after.total ≤ currState.total := by
  rcases updateState_cases updated with rfl | ⟨inputs, spending, looped, last, rfl⟩
  · exact le_refl _
  · have frame := Spending.loop_frame looped
    have written := total_loop_le covered.foreign looped
    have value := covered.value
    have erased := HashMap.weight_erase (fun coin : Coin => coin.1.toNat) spending.currState
      spending.lookupKey
    have sameValue : spending.currState.valueAt spending.lookupKey =
        tx.transaction.removed currState := by
      have foreign := covered.foreign _ (Nat.sub_lt inputs Nat.one_pos) spending.lookupKey
        (frame.last inputs)
      rw [Transaction.removed, last, Option.map_some, Option.getD_some, Ledger.valueAt,
        Ledger.valueAt, HashMap.weightAt, HashMap.weightAt, frame.others _ foreign]
    simp only [Ledger.total, Ledger.valueAt] at *
    omega

theorem total_applyTransactions_le {currState after : Ledger} {txs : List SignedTransaction}
    (covered : AllCovered crypto currState txs)
    (applied : applyTransactions crypto currState txs = some after) :
    after.total ≤ currState.total := by
  induction txs generalizing currState with
  | nil =>
      rw [applyTransactions_nil, Option.some.injEq] at applied
      rw [applied]
  | cons tx txs ih =>
      rw [applyTransactions_cons, Option.bind_eq_some_iff] at applied
      obtain ⟨next, updated, applied⟩ := applied
      obtain ⟨first, rest⟩ := covered
      calc after.total ≤ next.total := ih (rest next updated) applied
        _ ≤ currState.total := total_updateState_le first updated

/-- The blocks that pass the signature check hold covered transactions. -/
def BlocksCovered (crypto : Crypto) : State → Action → Prop :=
  Vetted crypto (AllCovered crypto)

instance (state : State) (action : Action) : Decidable (BlocksCovered crypto state action) :=
  inferInstanceAs (Decidable (Vetted crypto (AllCovered crypto) state action))

section Runs

variable {initialLedger : Ledger}

/-- No peer creates money as long as the blocks that pass the signature check
hold covered transactions. -/
theorem total_le_of_covered
    (run : Run (State.stepAfterIco crypto) (AfterIco crypto initialLedger))
    (meets : run.Meets (BlocksCovered crypto)) :
    ∀ index < run.length, ∀ block,
      WorkerAccepts crypto (run.states index) (run.actions index) block
        (run.states (index + 1)) →
      ∃ parentLedger ledger,
        (run.states index).node.globState.lookup block.header.proposerParent =
          some parentLedger ∧
        (run.states (index + 1)).node.globState.lookup (block.hash crypto) = some ledger ∧
        ledger.total ≤ parentLedger.total := by
  intro index bound block accepted
  obtain ⟨parentLedger, txs, ledger, accepts, covered⟩ := (meets index bound).accepts accepted
  refine ⟨parentLedger, ledger, accepts.parentState, ?_, ?_⟩
  · rw [accepts.globState, Finmap.lookup_insert]
  · exact total_applyTransactions_le covered accepts.applied

end Runs

/-- The owner pays out the whole coin. -/
def fairRun :
    Run (State.stepAfterIco Crypto.sample) (AfterIco Crypto.sample (icoState [.sample])) :=
  Run.sample (deliver (paymentBlock .sample 1000) paymentProposal) (by decide +kernel)

theorem accepts_fairRun :
    WorkerAccepts Crypto.sample (fairRun.states 3) (fairRun.actions 3) paymentProposal
      (fairRun.states 4) := by
  decide +kernel

theorem total_le_fairRun :
    ∃ parentLedger ledger,
      (fairRun.states 3).node.globState.lookup (genesisHash Crypto.sample) = some parentLedger ∧
      (fairRun.states 4).node.globState.lookup (sampleHash 2) = some ledger ∧
      ledger.total ≤ parentLedger.total := by
  have meets : fairRun.Meets (BlocksCovered Crypto.sample) := by
    change ∀ index < 4, _
    decide +kernel
  exact total_le_of_covered fairRun meets 3 (by decide) paymentProposal accepts_fairRun

/-- The owner pays out twice the coin. -/
def mintingRun :
    Run (State.stepAfterIco Crypto.sample) (AfterIco Crypto.sample (icoState [.sample])) :=
  Run.sample (deliver (paymentBlock .sample 2000) paymentProposal) (by decide +kernel)

/-- A correctly signed transaction that pays out more than it spends is accepted
and increases the total. -/
theorem minted_mintingRun :
    WorkerAccepts Crypto.sample (mintingRun.states 3) (mintingRun.actions 3) paymentProposal
        (mintingRun.states 4) ∧
      ((mintingRun.states 3).node.globState.lookup (genesisHash Crypto.sample)).map
        Ledger.total = some 1000 ∧
      ((mintingRun.states 4).node.globState.lookup (sampleHash 2)).map Ledger.total =
        some 2000 := by
  decide +kernel

/-! ## Ownership -/

/-- The coins of a ledger are spent with the keys of their owners. -/
def AllOwned (crypto : Crypto) (parentLedger : Ledger) (txs : List SignedTransaction) : Prop :=
  ∀ tx ∈ txs, ∀ outpoint ∈ tx.transaction.lastInput,
    ∀ coin ∈ parentLedger.lookup outpoint, addressOf crypto tx.sig.key = coin.2

instance (parentLedger : Ledger) (txs : List SignedTransaction) :
    Decidable (AllOwned crypto parentLedger txs) :=
  inferInstanceAs (Decidable (∀ tx ∈ txs, ∀ outpoint ∈ tx.transaction.lastInput,
    ∀ coin ∈ parentLedger.lookup outpoint, addressOf crypto tx.sig.key = coin.2))

/-- The blocks that pass the signature check spend the coins of their parent's
ledger only with keys of the owners. -/
def BlocksOwned (crypto : Crypto) : State → Action → Prop :=
  Vetted crypto (AllOwned crypto)

instance (state : State) (action : Action) : Decidable (BlocksOwned crypto state action) :=
  inferInstanceAs (Decidable (Vetted crypto (AllOwned crypto) state action))

/-- A transaction in one of the referenced transaction blocks names the outpoint
as an input, is signed correctly, and its key controls the address. -/
def Authorised (crypto : Crypto) (txBlockPool : HashMap H256 TXBlock) (refs : List H256)
    (outpoint : Outpoint) (address : H160) : Prop :=
  ∃ ref ∈ refs, ∃ txBlock, txBlockPool.lookup ref = some txBlock ∧
    ∃ tx ∈ txBlock.content.transactionContent,
      (∃ i < tx.transaction.inputPrevious.length,
        tx.transaction.lookupKey i = some outpoint) ∧
      tx.verified crypto = true ∧ addressOf crypto tx.sig.key = address

theorem input_of_lastInput {transaction : Transaction} {outpoint : Outpoint}
    (last : transaction.lastInput = some outpoint) :
    ∃ i < transaction.inputPrevious.length, transaction.lookupKey i = some outpoint := by
  have inRange : transaction.inputPrevious.length - 1 < transaction.inputPrevious.length := by
    have keyed := last
    simp only [Transaction.lastInput, Transaction.lookupKey, Option.bind_eq_bind,
      Option.bind_eq_some_iff] at keyed
    obtain ⟨previous, found, -⟩ := keyed
    exact (List.getElem?_eq_some_iff.mp found).1
  exact ⟨_, inRange, last⟩

section Runs

variable {initialLedger : Ledger}

/-- No peer spends what it does not own as long as the blocks that pass the
signature check spend with the keys of the owners. -/
theorem authorised_of_owned
    (run : Run (State.stepAfterIco crypto) (AfterIco crypto initialLedger))
    (meets : run.Meets (BlocksOwned crypto)) :
    ∀ index < run.length, ∀ block,
      WorkerAccepts crypto (run.states index) (run.actions index) block
        (run.states (index + 1)) →
      ∃ parentLedger ledger,
        (run.states index).node.globState.lookup block.header.proposerParent =
          some parentLedger ∧
        (run.states (index + 1)).node.globState.lookup (block.hash crypto) = some ledger ∧
        ∀ outpoint coin, parentLedger.lookup outpoint = some coin → outpoint ∉ ledger →
          Authorised crypto (run.states index).node.txBlockPool block.content.proposerContent
            outpoint coin.2 := by
  intro index bound block accepted
  obtain ⟨parentLedger, txs, ledger, accepts, owned⟩ := (meets index bound).accepts accepted
  refine ⟨parentLedger, ledger, accepts.parentState, ?_, ?_⟩
  · rw [accepts.globState, Finmap.lookup_insert]
  intro outpoint coin found removed
  obtain ⟨tx, member, last⟩ := exists_lastInput_of_removed accepts.applied
    (Finmap.mem_of_lookup_eq_some found) removed
  obtain ⟨ref, inRefs, txBlock, pooled, inside⟩ := (mem_referenced accepts.references).mp member
  obtain ⟨signedTxs, collected, verified⟩ := signedCorrectly_eq_true.mp accepted.signed
  have sameTxs : signedTxs = txs := Option.some.inj (collected.symm.trans accepts.references)
  subst sameTxs
  exact ⟨ref, inRefs, txBlock, pooled, tx, inside, input_of_lastInput last, verified tx member,
    owned tx member outpoint last coin found⟩

end Runs

theorem authorised_fairRun :
    ∃ parentLedger ledger,
      (fairRun.states 3).node.globState.lookup (genesisHash Crypto.sample) = some parentLedger ∧
      (fairRun.states 4).node.globState.lookup (sampleHash 2) = some ledger ∧
      ∀ outpoint coin, parentLedger.lookup outpoint = some coin → outpoint ∉ ledger →
        Authorised Crypto.sample (fairRun.states 3).node.txBlockPool [sampleHash 0x2001]
          outpoint coin.2 := by
  have meets : fairRun.Meets (BlocksOwned Crypto.sample) := by
    change ∀ index < 4, _
    decide +kernel
  exact authorised_of_owned fairRun meets 3 (by decide) paymentProposal accepts_fairRun

/-- A stranger pays the first coin out to itself. -/
def theftRun :
    Run (State.stepAfterIco Crypto.sample) (AfterIco Crypto.sample (icoState [.sample])) :=
  Run.sample (deliver (paymentBlock ⟨[66]⟩ 1000) paymentProposal) (by decide +kernel)

/-- A transaction signed by a stranger is accepted and removes the coin, and no
key in the referenced transaction block controls its address. -/
theorem stolen_theftRun :
    WorkerAccepts Crypto.sample (theftRun.states 3) (theftRun.actions 3) paymentProposal
        (theftRun.states 4) ∧
      ((theftRun.states 3).node.globState.lookup (genesisHash Crypto.sample)).map
        (fun ledger => ledger.lookup (H256.zero, 0)) = some (some (1000, .sample)) ∧
      ((theftRun.states 4).node.globState.lookup (sampleHash 2)).map
        (fun ledger => ledger.lookup (H256.zero, 0)) = some none ∧
      ¬ Authorised Crypto.sample (theftRun.states 3).node.txBlockPool
        paymentProposal.content.proposerContent (H256.zero, 0) .sample := by
  refine ⟨by decide +kernel, by decide +kernel, by decide +kernel, ?_⟩
  rintro ⟨ref, member, txBlock, pooled, tx, inside, -, -, owned⟩
  have strangers : ∀ ref ∈ paymentProposal.content.proposerContent,
      ∀ txBlock ∈ (theftRun.states 3).node.txBlockPool.lookup ref,
        ∀ tx ∈ txBlock.content.transactionContent,
          addressOf Crypto.sample tx.sig.key ≠ .sample := by
    decide +kernel
  exact strangers ref member txBlock pooled tx inside owned

end SimplifiedPrism
