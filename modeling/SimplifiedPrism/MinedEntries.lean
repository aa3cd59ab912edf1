import SimplifiedPrism.MinerAcceptance

/-!
# The entries of a mined block

The miner stores a ledger and a list of references for its own proposer block,
and every receiver computes them again.  The miner concatenates two lists where
a worker merges them, and its attacker variant copies the entries of the parent.
The results are the same, because the miner refers to no transaction block twice
and to none that an ancestor refers to.
-/

namespace SimplifiedPrism

variable {crypto : Crypto}

/-- The ledger and the references that a node has stored for a block. -/
structure Entries (crypto : Crypto) (node : Node) (block : ProposerBlock) (ledger : Ledger)
    (refs : List H256) : Prop where
  globState : node.globState.lookup (block.hash crypto) = some ledger
  txBlockRef : node.txBlockRef.lookup (block.hash crypto) = some refs

/-- An iteration of a miner inserts a proposer block into the tree, announces it
and has stored its entries. -/
structure MinesEntries (crypto : Crypto) (ran : Except Panicked Progress) (block : ProposerBlock)
    (ledger : Ledger) (refs : List H256) : Prop where
  mined : ∃ progress, ran = .ok progress ∧
    progress.sent = [.broadcast (.newProposerBlockHashes [block.hash crypto])] ∧
    progress.node.blockchain.blocks.lookup (block.hash crypto) = some block ∧
    Entries crypto progress.node block ledger refs

instance (node : Node) (block : ProposerBlock) (ledger : Ledger) (refs : List H256) :
    Decidable (Entries crypto node block ledger refs) :=
  decidable_of_iff
    (node.globState.lookup (block.hash crypto) = some ledger ∧
      node.txBlockRef.lookup (block.hash crypto) = some refs)
    ⟨fun entries => ⟨entries.1, entries.2⟩,
      fun entries => ⟨entries.globState, entries.txBlockRef⟩⟩

/-! ## What the miner accepts -/

section Miner

variable {node : Node} {choice : MinerChoice} {progress : Progress} {hash : H256}

theorem announces_of_minerLoopAttacker (ran : minerLoopAttacker crypto node choice = .ok progress)
    (announced : .broadcast (.newProposerBlockHashes [hash]) ∈ progress.sent) :
    Announces crypto node progress hash := by
  simp only [minerLoopAttacker, bind_eq_ok, Node.attempt_eq_ok, index_eq_ok] at ran
  obtain ⟨currState, tipState, pointedTxBlocks, tipRef, header, built, ran⟩ := ran
  have parent := (minedHeader_of_newHeader built).parent
  split at ran
  · next won =>
      simp only [bind_eq_ok] at ran
      obtain ⟨after, inserted, ran⟩ := ran
      cases ran
      rw [← parent] at tipState tipRef
      simp only [List.mem_singleton, Outgoing.broadcast.injEq,
        Message.newProposerBlockHashes.injEq, List.cons.injEq, and_true] at announced
      exact ⟨_, currState, [], currState, announced.symm, parent, won,
        (accepts_of_copy rfl tipState tipRef inserted).1⟩
  · split at ran
    · cases ran
      simp at announced
    · cases ran
      simp at announced

end Miner

/-! ## What a receiver computes -/

/-- A node has the same entries for a hash, and the same pool of transaction
blocks. -/
structure SameSources (miner other : Node) (parent : H256) : Prop where
  globState : other.globState.lookup parent = miner.globState.lookup parent
  txBlockRef : other.txBlockRef.lookup parent = miner.txBlockRef.lookup parent
  txBlockPool : other.txBlockPool = miner.txBlockPool

section Receiver

variable {miner mined other after : Node} {block : ProposerBlock}
  {parentLedger otherLedger ledger computed stored : Ledger} {txs otherTxs : List SignedTransaction}

/-- Two nodes that accept a block from the same entries store the same for it. -/
theorem Accepts.entries_eq (accepts : Accepts crypto miner block parentLedger txs ledger mined)
    (again : Accepts crypto other block otherLedger otherTxs computed after)
    (same : SameSources miner other block.header.proposerParent) {refs : List H256}
    (entries : Entries crypto mined block stored refs) :
    Entries crypto after block stored refs := by
  have sameLedger : otherLedger = parentLedger := by
    have found := again.parentState
    rw [same.globState, accepts.parentState, Option.some.injEq] at found
    exact found.symm
  have sameTxs : otherTxs = txs := by
    have collected := again.references
    rw [same.txBlockPool, accepts.references, Option.some.injEq] at collected
    exact collected.symm
  have sameResult : computed = ledger := by
    have applied := again.applied
    rw [sameLedger, sameTxs, accepts.applied, Option.some.injEq] at applied
    exact applied.symm
  have sameStored : ledger = stored := by
    have published := entries.globState
    rw [accepts.globState, Finmap.lookup_insert, Option.some.injEq] at published
    exact published
  obtain ⟨parentRef, foundRef, writtenRef⟩ := accepts.txBlockRef
  obtain ⟨otherRef, foundOther, writtenOther⟩ := again.txBlockRef
  rw [same.txBlockRef, foundRef, Option.some.injEq] at foundOther
  have merged := entries.txBlockRef
  rw [writtenRef, Finmap.lookup_insert, Option.some.injEq] at merged
  constructor
  · rw [again.globState, Finmap.lookup_insert, sameResult, sameStored]
  · rw [writtenOther, Finmap.lookup_insert, ← foundOther, merged]

theorem accepts_of_acceptProposerBlock {progress : Progress}
    (collected : referenced other.txBlockPool block.content.proposerContent = some txs)
    (sound : ∀ tx ∈ txs, tx.Sound crypto)
    (ran : acceptProposerBlock crypto other block = .ok progress) :
    ∃ otherLedger otherTxs computed,
      Accepts crypto other block otherLedger otherTxs computed progress.node := by
  have signed : signedCorrectly crypto other.txBlockPool block.content.proposerContent = .ok true :=
    signedCorrectly_eq_true.mpr ⟨txs, collected, fun tx member => (sound tx member).1⟩
  simp only [acceptProposerBlock, signed, Node.attempt_ok, ok_bind, Bool.true_eq_false, if_false,
    bind_eq_ok] at ran
  obtain ⟨applied, ranThrough, ran⟩ := ran
  cases ran
  exact accepts_of_apply ranThrough

end Receiver

/-- Whatever entries a miner stores for its new block, a worker that receives the
block, or releases it as an orphan, stores the same, from the same entries of the
parent and the same pool of sound transactions; and a well-formed node that has
the parent comes to store them. -/
theorem entries_of_mined {miner : Node} {choice : MinerChoice} {ran : Except Panicked Progress}
    {block : ProposerBlock} {ledger : Ledger} {refs : List H256} (possible : choice.Possible miner)
    (loop : ran = minerLoop crypto miner choice ∨ ran = minerLoopAttacker crypto miner choice)
    (mines : MinesEntries crypto ran block ledger refs)
    (sound : ∀ hash txBlock, miner.txBlockPool.lookup hash = some txBlock →
      ∀ tx ∈ txBlock.content.transactionContent, tx.Sound crypto)
    (other : Node) (same : SameSources miner other block.header.proposerParent) :
    (∀ progress, runTask crypto other (.orphan block) = .ok progress →
      Entries crypto progress.node block ledger refs) ∧
    (block.hash crypto ∉ other.blockchain.blocks →
      block.header.proposerParent ∈ other.blockchain.blocks →
      ∀ progress, runTask crypto other (.proposerBlock block) = .ok progress →
        Entries crypto progress.node block ledger refs) ∧
    (other.WellFormed crypto → block.header.proposerParent ∈ other.blockchain.blocks →
      (∃ progress, runTask crypto other (.orphan block) = .ok progress) ∧
      (block.hash crypto ∉ other.blockchain.blocks →
        ∃ progress, runTask crypto other (.proposerBlock block) = .ok progress)) := by
  obtain ⟨progress, mined, sent, stored, entries⟩ := mines.mined
  -- the block that was announced is the one in the tree
  have announces : Announces crypto miner progress (block.hash crypto) := by
    rcases loop with rfl | rfl
    · exact announces_of_minerLoop possible mined (by simp [sent])
    · exact announces_of_minerLoopAttacker mined (by simp [sent])
  obtain ⟨newBlock, parentLedger, txs, computed, sameHash, -, won, accepts⟩ := announces
  rw [accepts.blocks, sameHash, Finmap.lookup_insert, Option.some.injEq] at stored
  subst stored
  have collected : referenced other.txBlockPool newBlock.content.proposerContent = some txs := by
    rw [same.txBlockPool]
    exact accepts.references
  have soundTxs : ∀ tx ∈ txs, tx.Sound crypto := by
    intro tx member
    obtain ⟨ref, -, txBlock, found, inside⟩ := (mem_referenced accepts.references).mp member
    exact sound ref txBlock found tx inside
  have agrees : ∀ progress, acceptProposerBlock crypto other newBlock = .ok progress →
      Entries crypto progress.node newBlock ledger refs := by
    intro progress accepted
    obtain ⟨_, _, _, again⟩ := accepts_of_acceptProposerBlock collected soundTxs accepted
    exact accepts.entries_eq again same entries
  have reached : newBlock.hash crypto ∉ other.blockchain.blocks →
      newBlock.header.proposerParent ∈ other.blockchain.blocks →
        runTask crypto other (.proposerBlock newBlock) =
          acceptProposerBlock crypto other newBlock := by
    intro unknown parentKnown
    have work : ¬ newBlock.hash crypto > newBlock.header.proposerDifficulty :=
      H256.not_lt_of_lt won
    rw [runTask, handleProposerBlock, if_neg unknown, if_neg work,
      if_neg (not_not.mpr parentKnown)]
  refine ⟨agrees, fun unknown parentKnown progress accepted => ?_, fun formed parentKnown => ?_⟩
  · rw [reached unknown parentKnown] at accepted
    exact agrees progress accepted
  · have ready : ParentReady other newBlock := by
      obtain ⟨parentRef, foundRef, -⟩ := accepts.txBlockRef
      constructor
      · exact Finmap.mem_of_lookup_eq_some (same.txBlockRef.trans foundRef)
      · exact Finmap.mem_of_lookup_eq_some (same.globState.trans accepts.parentState)
      · exact (formed.chain.heights _).mpr parentKnown
    obtain ⟨_, -, comesThrough⟩ :=
      acceptProposerBlock_isOk ready formed.indexed collected soundTxs
    refine ⟨⟨_, comesThrough⟩, fun unknown => ?_⟩
    rw [reached unknown parentKnown]
    exact ⟨_, comesThrough⟩

/-- Whether an iteration mines a block with the given entries, computed. -/
theorem minesEntries_of_eval {ran : Except Panicked Progress} {block : ProposerBlock}
    {ledger : Ledger} {refs : List H256}
    (evaluated : ran.toOption.any (fun progress =>
      progress.sent = [.broadcast (.newProposerBlockHashes [block.hash crypto])] ∧
      progress.node.blockchain.blocks.lookup (block.hash crypto) = some block ∧
      Entries crypto progress.node block ledger refs) = true) :
    MinesEntries crypto ran block ledger refs := by
  cases ran with
  | error panicked => cases evaluated
  | ok progress => exact ⟨progress, rfl, of_decide_eq_true evaluated⟩

/-- The coin that the payment brings, paid on. -/
def onwardPayment : SignedTransaction :=
  let transaction : Transaction :=
    { inputPrevious := [(payment .sample 1000).hash Crypto.sample]
      inputIndex := [0]
      outputValue := [1000]
      outputAddress := [.sample] }
  ⟨transaction, ⟨sign Crypto.sample transaction .sample, Crypto.sample.publicKey .sample⟩⟩

/-- A block refers to the first of three transaction blocks; the second repeats the
payment, and the third pays on. -/
def onwardRun : Run (State.step Crypto.sample) (Initial Crypto.sample) :=
  Run.sampleStart
    (.ico :: deliver (paymentBlock .sample 1000) paymentProposal ++
      [.work,
        .receive (.transactionBlocks
          [⟨Header.sample 0x2002 (genesisHash Crypto.sample), ⟨[payment .sample 1000]⟩⟩,
            ⟨Header.sample 0x2003 (genesisHash Crypto.sample), ⟨[onwardPayment]⟩⟩]),
        .work, .work])
    (by decide +kernel)

/-- The miner refers to the other two on top of that block. -/
def onwardProposal : ProposerBlock where
  header :=
    { Header.sample 3 (sampleHash 2) with
      merkleProposer := (sampleHash 0x2002).hash Crypto.sample }
  content := ⟨[sampleHash 0x2002, sampleHash 0x2003]⟩

def onwardChoice : MinerChoice :=
  ⟨[], [sampleHash 0x2002, sampleHash 0x2001, sampleHash 0x2003], 3, 0⟩

/-- The ledger of the sample offering after the two payments. -/
def onwardLedger : Ledger :=
  ((icoState [.sample]).insert (onwardPayment.hash Crypto.sample, 0) (1000, .sample)).erase
    (H256.zero, 0)

theorem entries_onwardRun :
    ∃ progress, runTask Crypto.sample (onwardRun.states 9).node
        (.proposerBlock onwardProposal) = .ok progress ∧
      Entries Crypto.sample progress.node onwardProposal onwardLedger
        [sampleHash 0x2001, sampleHash 0x2002, sampleHash 0x2003] := by
  have mines : MinesEntries Crypto.sample
      (minerLoop Crypto.sample (onwardRun.states 9).node onwardChoice) onwardProposal
      onwardLedger [sampleHash 0x2001, sampleHash 0x2002, sampleHash 0x2003] :=
    minesEntries_of_eval (by decide +kernel)
  have contents : ∀ entry ∈ (onwardRun.states 9).node.txBlockPool.entries,
      ∀ tx ∈ entry.2.content.transactionContent, tx.Sound Crypto.sample := by
    decide +kernel
  have formed := (wellFormed_of_run onwardRun 9 (by decide)).node
  obtain ⟨-, agrees, comesThrough⟩ := entries_of_mined (by decide +kernel) (.inl rfl) mines
    (fun hash txBlock found => contents ⟨hash, txBlock⟩
      ((HashMap.mem_entries_iff _ hash txBlock).mpr found))
    (onwardRun.states 9).node ⟨rfl, rfl, rfl⟩
  obtain ⟨progress, ran⟩ := (comesThrough formed (by decide +kernel)).2 (by decide +kernel)
  exact ⟨progress, ran, agrees (by decide +kernel) (by decide +kernel) progress ran⟩

end SimplifiedPrism
