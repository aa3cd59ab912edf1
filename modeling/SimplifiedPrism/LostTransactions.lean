import SimplifiedPrism.RemainingOutputs
import SimplifiedPrism.WriteOnce

/-!
# Transactions that pruning loses

Every applied proposer block prunes the mempool against its own ledger, whether
or not it becomes the tip.  A pending transaction whose inputs are all in the
ledger of the tip is lost when a side branch that arrives spends one of them, or
lacks the transaction that made it.  This file gives the condition under which none
is lost.
-/

namespace SimplifiedPrism

variable {crypto : Crypto}

/-- All inputs of a transaction are in the ledger of the tip. -/
def Node.UnspentAtTip (node : Node) (tx : SignedTransaction) : Prop :=
  ∃ ledger ∈ node.globState.lookup node.blockchain.tip, tx.transaction.unspent ledger = true

/-- All inputs of a transaction remain after the transactions on top of a ledger. -/
def Transaction.RemainsSpendable (crypto : Crypto) (transaction : Transaction) (ledger : Ledger)
    (listed : List SignedTransaction) : Prop :=
  ∀ i < transaction.inputPrevious.length,
    ∃ key ∈ transaction.lookupKey i, Remains crypto ledger listed key

instance (transaction : Transaction) (ledger : Ledger) (listed : List SignedTransaction) :
    Decidable (transaction.RemainsSpendable crypto ledger listed) :=
  inferInstanceAs (Decidable (∀ i < transaction.inputPrevious.length,
    ∃ key ∈ transaction.lookupKey i, Remains crypto ledger listed key))

variable (crypto) in
/-- A block that does not become the tip leaves, after its transactions on top of its
parent's ledger, the inputs of every pending transaction that is unspent at the tip
and not packed. -/
def Node.SparedBy (node : Node) (block : ProposerBlock) : Prop :=
  block.hash crypto ≠ node.blockchain.tip →
  ∀ parentHeight ∈ node.blockchain.heights.lookup block.header.proposerParent,
    ¬ node.blockchain.longest < parentHeight + 1 →
  ∀ parentLedger ∈ node.globState.lookup block.header.proposerParent,
  ∀ txs ∈ referenced node.txBlockPool block.content.proposerContent,
  ∀ tipLedger ∈ node.globState.lookup node.blockchain.tip,
  ∀ entry ∈ node.txPool.entries, entry.2.transaction.unspent tipLedger = true →
    entry.2.transaction.RemainsSpendable crypto parentLedger txs.reverse ∨
      node.Packed crypto entry.1

instance (node : Node) (block : ProposerBlock) : Decidable (node.SparedBy crypto block) := by
  unfold Node.SparedBy
  infer_instance

/-- The block that a worker step applies spares the mempool, a proposer block that is
mined becomes the tip, and a transaction block that is mined has a new hash. -/
structure SparesPool (crypto : Crypto) (state : State) (action : Action) : Prop where
  applied : ∀ block ∈ state.applied crypto action, state.node.SparedBy crypto block
  proposer : ∀ header ∈ state.proposerHeader crypto action,
    ∀ tipHeight ∈ state.node.blockchain.heights.lookup state.node.blockchain.tip,
      state.node.blockchain.longest < tipHeight + 1
  transactionBlock : ∀ header ∈ state.transactionHeader crypto action,
    header.hash crypto ∉ state.node.txBlockPool

instance (state : State) (action : Action) : Decidable (SparesPool crypto state action) :=
  decidable_of_iff
    ((∀ block ∈ state.applied crypto action, state.node.SparedBy crypto block) ∧
      (∀ header ∈ state.proposerHeader crypto action,
        ∀ tipHeight ∈ state.node.blockchain.heights.lookup state.node.blockchain.tip,
          state.node.blockchain.longest < tipHeight + 1) ∧
      ∀ header ∈ state.transactionHeader crypto action,
        header.hash crypto ∉ state.node.txBlockPool)
    ⟨fun spares => ⟨spares.1, spares.2.1, spares.2.2⟩,
      fun spares => ⟨spares.applied, spares.proposer, spares.transactionBlock⟩⟩

variable (crypto) in
/-- A transaction is pending or packed. -/
def Node.Keeps (node : Node) (hash : H256) (tx : SignedTransaction) : Prop :=
  node.txPool.lookup hash = some tx ∨ node.Packed crypto hash

theorem Transaction.RemainsSpendable.unspent {transaction : Transaction} {ledger after : Ledger}
    {listed : List SignedTransaction}
    (remains : transaction.RemainsSpendable crypto ledger listed)
    (applied : applyTransactions crypto ledger listed.reverse = some after) :
    transaction.unspent after = true := by
  refine unspent_iff.mpr fun i bound => ?_
  obtain ⟨key, keyed, remained⟩ := remains i bound
  exact ⟨key, keyed, remained.mem applied⟩

section Step

variable {before after : State} {action : Action} {hash : H256} {tx : SignedTransaction}

/-- What a block leaves behind is pending, or spent at the tip. -/
theorem Node.Keeps.accepts {node after : Node} {block : ProposerBlock}
    {parentLedger ledger : Ledger} {txs : List SignedTransaction}
    (keeps : node.Keeps crypto hash tx)
    (accepts : Accepts crypto node block parentLedger txs ledger after)
    (prunes : Prunes ledger node.txPool after.txPool)
    (unspent : node.txPool.lookup hash = some tx →
      tx.transaction.unspent ledger = true ∨ node.Packed crypto hash) :
    after.Keeps crypto hash tx := by
  have samePacked : node.Packed crypto hash → after.Packed crypto hash := by
    rw [Node.Packed, Node.Packed, accepts.txBlockPool]
    exact id
  rcases keeps with pending | packed
  · rcases unspent pending with unspent | packed
    · exact .inl ((prunes hash tx).mpr ⟨pending, unspent⟩)
    · exact .inr (samePacked packed)
  · exact .inr (samePacked packed)

theorem Accepts.not_higher {node after : Node} {block : ProposerBlock}
    {parentLedger ledger : Ledger} {txs : List SignedTransaction}
    (accepts : Accepts crypto node block parentLedger txs ledger after)
    (stays : after.blockchain.tip ≠ block.hash crypto) :
    ∃ parentHeight, node.blockchain.heights.lookup block.header.proposerParent =
        some parentHeight ∧ ¬ node.blockchain.longest < parentHeight + 1 := by
  obtain ⟨parentHeight, found, -, -, -, tip⟩ := Blockchain.insert_ok accepts.inserted
  refine ⟨parentHeight, found, fun higher => stays ?_⟩
  rw [Blockchain.tip, tip, if_pos higher]

/-- No step that spares the mempool loses a transaction that is unspent at the
tip before and after it. -/
theorem Node.Keeps.step (keeps : before.node.Keeps crypto hash tx)
    (formed : before.WellFormed crypto) (spares : SparesPool crypto before action)
    (unspentBefore : before.node.UnspentAtTip tx) (unspentAfter : after.node.UnspentAtTip tx)
    (stepped : before.stepWithoutGenerator crypto action = some after) :
    after.node.Keeps crypto hash tx := by
  obtain ⟨original, notGenerated⟩ := step_of_stepWithoutGenerator stepped
  cases poolCases_of_step formed original with
  | kept same _ | panicked same _ =>
      rw [Node.Keeps, Node.Packed, same.txPool, same.txBlockPool]
      exact keeps
  | offered _ _ _ node =>
      rw [node]
      exact keeps
  | generated draws generate _ => exact absurd generate (notGenerated draws)
  | admitted tip each _ _ _ admits node =>
      rw [node]
      rcases keeps with pending | packed
      · left
        have other : hash ≠ each.hash crypto := by
          rintro rfl
          exact admits.fresh (Finmap.mem_of_lookup_eq_some pending)
        rw [Finmap.lookup_insert_of_ne _ other]
        exact pending
      · exact .inr packed
  | packed block source node =>
      have fresh : block.hash crypto ∉ before.node.txBlockPool := by
        rcases source with ⟨_, _, _, unknown⟩ | ⟨mined, _⟩
        · exact unknown
        · exact spares.transactionBlock block.header mined
      rcases keeps with pending | packed
      · by_cases inside : ∃ packed ∈ block.content.transactionContent, packed.hash crypto = hash
        · right
          exact ⟨block.hash crypto, block, by rw [node, Finmap.lookup_insert], inside⟩
        · left
          rw [node, lookup_removeTransactions]
          exact ⟨pending, fun packed member same => inside ⟨packed, member, same⟩⟩
      · exact .inr (packed.insert fresh (congrArg Node.txBlockPool node))
  | copied _ _ _ accepts txPool =>
      rw [Node.Keeps, Node.Packed, txPool, accepts.txBlockPool]
      exact keeps
  | accepted block parentLedger txs ledger source accepts prunes =>
      refine keeps.accepts accepts prunes fun pending => ?_
      obtain ⟨ledgerAfter, tipAfter, unspentAfter⟩ := unspentAfter
      by_cases isTip : after.node.blockchain.tip = block.hash crypto
      · rw [Option.mem_def, isTip, accepts.globState, Finmap.lookup_insert,
          Option.some.injEq] at tipAfter
        exact .inl (tipAfter ▸ unspentAfter)
      · obtain ⟨parentHeight, foundHeight, notHigher⟩ := accepts.not_higher isTip
        rcases source with applied | mines
        · obtain ⟨tipLedger, tipState, unspentBefore⟩ := unspentBefore
          have notTip : block.hash crypto ≠ before.node.blockchain.tip := by
            intro same
            rcases accepts.tip_cases with becomes | stays
            · exact isTip becomes
            · exact isTip (stays.trans same.symm)
          have entry := (HashMap.mem_entries_iff _ hash tx).mpr pending
          rcases spares.applied block applied notTip parentHeight foundHeight notHigher
            parentLedger accepts.parentState txs accepts.references tipLedger tipState ⟨hash, tx⟩
            entry unspentBefore with remains | packed
          · exact .inl (remains.unspent (by rw [List.reverse_reverse, accepts.applied]))
          · exact .inr packed
        · have higher := spares.proposer block.header mines.won parentHeight
            (mines.parent ▸ foundHeight)
          exact absurd higher notHigher

end Step

/-- In a run whose blocks spare the mempool, a pending transaction stays pending
or gets packed for as long as its inputs stay in the ledger of the tip. -/
theorem keeps_of_sparesPool (run : Run (State.stepWithoutGenerator crypto) (Reached crypto))
    (meets : run.Meets (SparesPool crypto)) {first last : Nat} (ordered : first ≤ last)
    (bound : last ≤ run.length) {hash : H256} {tx : SignedTransaction}
    (entered : (run.states first).node.txPool.lookup hash = some tx)
    (unspent : ∀ index, first ≤ index → index ≤ last →
      (run.states index).node.UnspentAtTip tx) :
    (run.states last).node.Keeps crypto hash tx := by
  have formed : ∀ index ≤ run.length, (run.states index).WellFormed crypto :=
    run.invariant _ (fun _ reached => reached.wellFormed) fun _ _ _ formed stepped =>
      (formed.step (step_of_stepWithoutGenerator stepped).1).1
  induction last, ordered using Nat.le_induction with
  | base => exact .inl entered
  | succ last ordered ih =>
      have earlier := ih (by omega) fun index lower upper => unspent index lower (by omega)
      exact earlier.step (formed last (by omega)) (meets last bound)
        (unspent last ordered (by omega)) (unspent (last + 1) (by omega) (le_refl _))
        (run.steps last bound)

/-- An empty block becomes the tip, a payment enters the mempool, and a peer
sends a transaction block with another payment and a second block on genesis. -/
def branchActions (refs : List H256) : List Action :=
  [.ico, .receive (.proposerBlocks [emptyProposal]), .work, .work,
    .receive (.transactions [payment .sample 1000]), .work,
    .receive (.transactionBlocks [paymentBlock .sample 500]), .work,
    .receive (.proposerBlocks
      [⟨Header.sample 3 (genesisHash Crypto.sample), ⟨refs⟩⟩]), .work, .work]

theorem reached_sample : Reached Crypto.sample ⟨Node.sample, [], H256.zero⟩ :=
  ⟨Run.sampleStart [] rfl, rfl⟩

def sparingRun : Run (State.stepWithoutGenerator Crypto.sample) (Reached Crypto.sample) :=
  Run.ofActions ⟨Node.sample, [], H256.zero⟩ reached_sample (branchActions [])
    (by decide +kernel)

theorem keeps_sparingRun :
    (sparingRun.states 11).node.Keeps Crypto.sample ((payment .sample 1000).hash Crypto.sample)
      (payment .sample 1000) := by
  have meets : sparingRun.Meets (SparesPool Crypto.sample) := by
    change ∀ index < 11, _
    decide +kernel
  have unspent : ∀ index, 6 ≤ index → index ≤ 11 →
      (sparingRun.states index).node.UnspentAtTip (payment .sample 1000) := by
    have decided : ∀ index < 12, 6 ≤ index →
        (sparingRun.states index).node.UnspentAtTip (payment .sample 1000) := by
      unfold Node.UnspentAtTip
      decide +kernel
    exact fun index lower upper => decided index (by omega) lower
  exact keeps_of_sparesPool sparingRun meets (by decide) (by decide) (by decide +kernel) unspent

def losingRun : Run (State.stepWithoutGenerator Crypto.sample) (Reached Crypto.sample) :=
  Run.ofActions ⟨Node.sample, [], H256.zero⟩ reached_sample (branchActions [sampleHash 0x2001])
    (by decide +kernel)

/-- The second block on genesis does not become the tip, but the payment that it
conflicts with is gone, though its input is in the ledger of the tip throughout. -/
theorem lost_losingRun :
    (losingRun.states 6).node.txPool.lookup ((payment .sample 1000).hash Crypto.sample) =
        some (payment .sample 1000) ∧
      (∀ index < 12, 6 ≤ index →
        (losingRun.states index).node.UnspentAtTip (payment .sample 1000) ∧
        (losingRun.states index).node.blockchain.tip = sampleHash 2) ∧
      ¬ (losingRun.states 11).node.Keeps Crypto.sample
        ((payment .sample 1000).hash Crypto.sample) (payment .sample 1000) := by
  unfold Node.UnspentAtTip Node.Keeps
  decide +kernel

end SimplifiedPrism
