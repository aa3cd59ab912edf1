import SimplifiedPrism.Invariants

/-!
# The paths by which blocks enter a node

A proposer block enters the tree when it is received with a known parent, when
it is released from the orphan buffer, or when the node mines it; a transaction
block enters the pool when it is received or mined.  A property of blocks that
holds whenever a block is taken in, or mined, therefore holds of every block
stored.  The file applies this to the Merkle roots and the thresholds of the
headers, neither of which is checked on receipt.
-/

namespace SimplifiedPrism

variable {crypto : Crypto}

/-! ## Taking in blocks -/

variable (crypto) in
/-- The proposer block that a step takes in: it is new and passes the
proof-of-work check. -/
def State.received (state : State) (action : Action) : Option ProposerBlock :=
  match action, state.todo with
  | .work, .proposerBlock each :: _ =>
      if each.hash crypto ∉ state.node.blockchain.blocks ∧
          ¬ each.hash crypto > each.header.proposerDifficulty then
        some each
      else
        none
  | _, _ => none

variable (crypto) in
/-- The transaction block that a step takes in. -/
def State.receivedTransactionBlock (state : State) (action : Action) : Option TXBlock :=
  match action, state.todo with
  | .work, .transactionBlock each :: _ =>
      if each.hash crypto ∉ state.node.txBlockPool ∧
          ¬ each.hash crypto > each.header.transactionDifficulty ∧
          ¬ each.hash crypto ≤ each.header.proposerDifficulty then
        some each
      else
        none
  | _, _ => none

/-! ## Waiting blocks -/

section Pending

variable {proposer : ProposerBlock → Prop}

/-- Every block that waits, or is about to be released, has a property. -/
structure Pending (proposer : ProposerBlock → Prop) (state : State) : Prop where
  buffered : ∀ parent bucket, state.node.orphanHandler.lookup parent = some bucket →
    ∀ block ∈ bucket, proposer block
  released : ∀ block, .orphan block ∈ state.todo → proposer block

theorem Initial.pending {state : State} (initial : Initial crypto state) :
    Pending proposer state := by
  obtain ⟨idle, -, allAddr, myAddrKey, same⟩ := initial
  constructor
  · simp [same, Node.initial]
  · simp [idle]

private theorem Pending.ran {before : State} {task : Task} {rest : List Task} {node : Node}
    {todo : List Task} (pending : Pending proposer before)
    (received : ∀ block ∈ before.received crypto .work, proposer block)
    (next : before.todo = task :: rest) (effect : Effect crypto before.node task node todo) :
    Pending proposer { before with node := node, todo := todo ++ rest } := by
  have released : ∀ block, Task.orphan block ∈ rest → proposer block := by
    intro block member
    apply pending.released block
    rw [next]
    exact List.mem_cons_of_mem _ member
  cases effect with
  | skip | addr _ _ | ico _ _ _ | transaction _ _ _ _ _ _ _ _ _ _ _ | transactionBlock _ _ _ _ =>
      exact ⟨pending.buffered, released⟩
  | buffer each unknown work parentMissing =>
      have good : proposer each := by
        apply received
        simp [State.received, next, unknown, work]
      refine ⟨fun parent bucket found block member => ?_, released⟩
      rcases mem_bufferOrphan found member with ⟨earlier, stored, member⟩ | ⟨-, rfl⟩
      · exact pending.buffered parent earlier stored block member
      · exact good
  | accept _ each _ checks signed applied =>
      obtain ⟨_, _, _, accepts⟩ := accepts_of_apply applied
      constructor
      · rw [accepts.orphanHandler]
        exact pending.buffered
      · intro block member
        apply released block
        simpa using member
  | release block vec waiting =>
      constructor
      · intro parent bucket found
        rw [HashMap.lookup_erase_ite] at found
        split at found
        · cases found
        · exact pending.buffered parent bucket found
      · intro orphan member
        rcases List.mem_append.mp member with inBucket | later
        · apply pending.buffered _ vec waiting
          simpa using inBucket
        · exact released orphan later

/-- A step that takes in only blocks with the property keeps it for all that
wait: mined blocks do not. -/
theorem Pending.step {before after : State} {action : Action} (pending : Pending proposer before)
    (formed : before.WellFormed crypto)
    (received : ∀ block ∈ before.received crypto action, proposer block)
    (stepped : before.step crypto action = some after) : Pending proposer after := by
  cases formed.cases stepped with
  | receive message idle =>
      refine ⟨pending.buffered, fun block member => ?_⟩
      cases message <;> simp [Message.tasks] at member
  | looked _ _ | ico _ => exact ⟨pending.buffered, pending.released⟩
  | ran _ _ _ _ next effect => exact pending.ran received next effect
  | panicked task _ _ next failure =>
      rw [failure.onlyRefs formed.node (formed.grounded next)]
      exact ⟨pending.buffered, by simp⟩
  | minerPanicked _ _ _ failure =>
      rw [failure.onlyRefs]
      exact ⟨pending.buffered, pending.released⟩
  | generated _ _ _ _ _ _ generated =>
      rw [generated.onlyPool]
      exact ⟨pending.buffered, pending.released⟩
  | mined _ _ _ mined =>
      cases mined with
      | nothing => exact pending
      | proposer _ _ _ _ _ _ _ _ _ _ accepts =>
          refine ⟨?_, pending.released⟩
          rw [accepts.orphanHandler]
          exact pending.buffered
      | transaction _ _ _ _ _ _ _ _ _ _ => exact ⟨pending.buffered, pending.released⟩

end Pending

/-! ## Stored blocks -/

section Entered

variable (proposer : ProposerBlock → Prop) (transactionBlock : TXBlock → Prop)

/-- The blocks that a step takes in have a property. -/
def Receives (crypto : Crypto) (state : State) (action : Action) : Prop :=
  (∀ block ∈ state.received crypto action, proposer block) ∧
    ∀ txBlock ∈ state.receivedTransactionBlock crypto action, transactionBlock txBlock

instance [DecidablePred proposer] [DecidablePred transactionBlock] (state : State)
    (action : Action) : Decidable (Receives proposer transactionBlock crypto state action) :=
  inferInstanceAs (Decidable (_ ∧ _))

/-- The block that a step mines has a property. -/
structure Mines (crypto : Crypto) (state : State) (action : Action) : Prop where
  proposer : ∀ header txs refs, state.minedHeader crypto action = some header →
    MinedHeader crypto state.node header txs refs →
    header.hash crypto < header.proposerDifficulty → proposer ⟨header, ⟨refs⟩⟩
  transactionBlock : ∀ header txs refs, state.minedHeader crypto action = some header →
    MinedHeader crypto state.node header txs refs →
    header.hash crypto < header.transactionDifficulty →
    (∀ tx ∈ txs, ∃ hash, state.node.txPool.lookup hash = some tx) →
    transactionBlock ⟨header, ⟨txs⟩⟩

/-- Every block stored or waiting has a property. -/
structure Entered (crypto : Crypto) (state : State) : Prop where
  pending : Pending proposer state
  tree : ∀ hash block, state.node.blockchain.blocks.lookup hash = some block →
    block = genesisBlock crypto ∨ proposer block
  pool : ∀ hash txBlock, state.node.txBlockPool.lookup hash = some txBlock →
    transactionBlock txBlock

variable {proposer transactionBlock}

theorem Initial.entered {state : State} (initial : Initial crypto state) :
    Entered proposer transactionBlock crypto state := by
  have pending : Pending proposer state := initial.pending
  obtain ⟨idle, -, allAddr, myAddrKey, same⟩ := initial
  refine ⟨pending, ?_, by simp [same, Node.initial]⟩
  intro hash block found
  rw [same] at found
  change ((∅ : HashMap H256 ProposerBlock).insert _ _).lookup hash = some block at found
  rw [HashMap.lookup_insert_ite] at found
  split at found
  · cases found
    exact .inl rfl
  · simp at found

theorem tree_of_accepts {node after : Node} {block : ProposerBlock}
    {parentLedger ledger : Ledger} {txs : List SignedTransaction}
    (accepts : Accepts crypto node block parentLedger txs ledger after) (good : proposer block)
    (tree : ∀ hash block, node.blockchain.blocks.lookup hash = some block →
      block = genesisBlock crypto ∨ proposer block) :
    ∀ hash block, after.blockchain.blocks.lookup hash = some block →
      block = genesisBlock crypto ∨ proposer block := by
  intro hash stored found
  rw [accepts.blocks, HashMap.lookup_insert_ite] at found
  split at found
  · cases found
    exact .inr good
  · exact tree hash stored found

/-- A step that takes in and mines only blocks with the property keeps it. -/
theorem Entered.step {before after : State} {action : Action}
    (entered : Entered proposer transactionBlock crypto before)
    (formed : before.WellFormed crypto)
    (receives : Receives proposer transactionBlock crypto before action)
    (mines : Mines proposer transactionBlock crypto before action)
    (stepped : before.step crypto action = some after) :
    Entered proposer transactionBlock crypto after := by
  have pending := entered.pending.step formed receives.1 stepped
  cases formed.cases stepped with
  | receive _ _ | looked _ _ | ico _ => exact ⟨pending, entered.tree, entered.pool⟩
  | panicked task _ _ next failure =>
      rw [failure.onlyRefs formed.node (formed.grounded next)] at pending ⊢
      exact ⟨pending, entered.tree, entered.pool⟩
  | minerPanicked _ _ _ failure =>
      rw [failure.onlyRefs] at pending ⊢
      exact ⟨pending, entered.tree, entered.pool⟩
  | generated _ _ _ _ _ _ generated =>
      rw [generated.onlyPool] at pending ⊢
      exact ⟨pending, entered.tree, entered.pool⟩
  | ran _ _ _ _ next effect =>
      cases effect with
      | skip | addr _ _ | ico _ _ _ | transaction _ _ _ _ _ _ _ _ _ _ _ | release _ _ _ =>
          exact ⟨pending, entered.tree, entered.pool⟩
      | buffer each _ _ _ =>
          rw [bufferOrphan_eq] at pending ⊢
          exact ⟨pending, entered.tree, entered.pool⟩
      | transactionBlock each unknown work notProposer =>
          have good : transactionBlock each := by
            apply receives.2
            simp [State.receivedTransactionBlock, next, unknown, work, notProposer]
          exact ⟨pending, entered.tree, HashMap.forall_lookup_insert entered.pool good⟩
      | accept _ each _ checks signed applied =>
          have good : proposer each := by
            cases checks with
            | received _ unknown work _ =>
                apply receives.1
                simp [State.received, next, unknown, work]
            | orphan _ =>
                apply entered.pending.released
                rw [next]
                exact List.mem_cons_self
          obtain ⟨_, _, _, accepts⟩ := accepts_of_apply applied
          refine ⟨pending, tree_of_accepts accepts good entered.tree, ?_⟩
          rw [accepts.txBlockPool]
          exact entered.pool
  | mined _ _ _ mined =>
      cases mined with
      | nothing => exact entered
      | proposer header txs refs _ _ _ _ built mined won accepts =>
          refine ⟨pending,
            tree_of_accepts accepts (mines.proposer header txs refs built mined won) entered.tree,
            ?_⟩
          rw [accepts.txBlockPool]
          exact entered.pool
      | transaction header txs refs _ built mined _ won pooled _ =>
          exact ⟨pending, entered.tree, HashMap.forall_lookup_insert entered.pool
            (mines.transactionBlock header txs refs built mined won pooled)⟩

end Entered

/-! ## The Merkle roots -/

/-- The header commits to the list of references. -/
def ProposerBlock.Commits (crypto : Crypto) (block : ProposerBlock) : Prop :=
  ∃ tree ∈ MerkleTree.new crypto (H256.hash crypto) block.content.proposerContent,
    tree.root = block.header.merkleProposer

/-- The header commits to the list of transactions. -/
def TXBlock.Commits (crypto : Crypto) (txBlock : TXBlock) : Prop :=
  ∃ tree ∈ MerkleTree.new crypto (SignedTransaction.hash crypto)
      txBlock.content.transactionContent,
    tree.root = txBlock.header.merkleTransaction

instance : DecidablePred (ProposerBlock.Commits crypto) :=
  fun _ => inferInstanceAs (Decidable (∃ tree ∈ _, _))

instance : DecidablePred (TXBlock.Commits crypto) :=
  fun _ => inferInstanceAs (Decidable (∃ tree ∈ _, _))

theorem mines_commits (state : State) (action : Action) :
    Mines (ProposerBlock.Commits crypto) (TXBlock.Commits crypto) crypto state action where
  proposer := fun _ _ _ _ mined _ => mined.merkleProposer
  transactionBlock := fun _ _ _ _ mined _ _ => mined.merkleTransaction

/-- A header commits to the content of its block as long as the blocks taken in
from peers do so; those that the node mines always do. -/
theorem commits_of_received (run : Run (State.step crypto) (Initial crypto))
    (meets : run.Meets (Receives (ProposerBlock.Commits crypto) (TXBlock.Commits crypto) crypto)) :
    ∀ index ≤ run.length,
      (∀ hash block, (run.states index).node.blockchain.blocks.lookup hash = some block →
        block = genesisBlock crypto ∨ block.Commits crypto) ∧
      ∀ hash txBlock, (run.states index).node.txBlockPool.lookup hash = some txBlock →
        txBlock.Commits crypto := by
  have invariant := run.invariant_of_meets meets
    (fun state => state.WellFormed crypto ∧
      Entered (ProposerBlock.Commits crypto) (TXBlock.Commits crypto) crypto state)
    (fun _ initial => ⟨initial.wellFormed, initial.entered⟩)
    (fun _ _ _ ⟨formed, entered⟩ receives stepped =>
      ⟨(formed.step stepped).1, entered.step formed receives (mines_commits _ _) stepped⟩)
  intro index bound
  obtain ⟨-, entered⟩ := invariant index bound
  exact ⟨entered.tree, entered.pool⟩

/-- A peer delivers two blocks whose headers commit to them. -/
def faithfulRun : Run (State.step Crypto.sample) (Initial Crypto.sample) :=
  Run.sampleStart (.ico :: deliver (paymentBlock .sample 1000) paymentProposal) (by decide +kernel)

theorem stored_faithfulRun :
    (faithfulRun.states 5).node.blockchain.blocks.lookup (sampleHash 2) =
      some paymentProposal := by
  decide +kernel

theorem pooled_faithfulRun :
    (faithfulRun.states 5).node.txBlockPool.lookup (sampleHash 0x2001) =
      some (paymentBlock .sample 1000) := by
  decide +kernel

theorem commits_faithfulRun :
    (∃ block, (faithfulRun.states 5).node.blockchain.blocks.lookup (sampleHash 2) = some block ∧
      block.Commits Crypto.sample) ∧
    ∃ txBlock, (faithfulRun.states 5).node.txBlockPool.lookup (sampleHash 0x2001) = some txBlock ∧
      txBlock.Commits Crypto.sample := by
  have meets : faithfulRun.Meets (Receives (ProposerBlock.Commits Crypto.sample)
      (TXBlock.Commits Crypto.sample) Crypto.sample) := by
    change ∀ index < 5, _
    decide +kernel
  obtain ⟨tree, pool⟩ := commits_of_received faithfulRun meets 5 (by decide)
  constructor
  · have stored := stored_faithfulRun
    exact ⟨_, stored, (tree _ _ stored).resolve_left (by decide +kernel)⟩
  · have pooled := pooled_faithfulRun
    exact ⟨_, pooled, pool _ _ pooled⟩

/-- The same header with the references taken out. -/
def strippedProposal : ProposerBlock :=
  ⟨paymentProposal.header, ⟨[]⟩⟩

def strippedRun : Run (State.step Crypto.sample) (Initial Crypto.sample) :=
  Run.sampleStart (.ico :: deliver (paymentBlock .sample 1000) strippedProposal) (by decide +kernel)

/-- A block is stored although its header commits to other references. -/
theorem not_commits_strippedRun :
    (strippedRun.states 5).node.blockchain.blocks.lookup (sampleHash 2) =
        some strippedProposal ∧
      strippedProposal ≠ genesisBlock Crypto.sample ∧
      ¬ strippedProposal.Commits Crypto.sample := by
  decide +kernel

/-! ## The thresholds -/

/-- The thresholds of a header are those of genesis. -/
def Header.GenesisThresholds (header : Header) : Prop :=
  header.transactionDifficulty = genesisTransactionDifficulty ∧
    header.proposerDifficulty = genesisProposerDifficulty

instance : DecidablePred Header.GenesisThresholds :=
  fun _ => inferInstanceAs (Decidable (_ ∧ _))

/-- The proof of work of a proposer block, measured against genesis. -/
def ProposerBlock.Worked (crypto : Crypto) (block : ProposerBlock) : Prop :=
  block.header.GenesisThresholds ∧ block.hash crypto ≤ genesisProposerDifficulty

/-- The proof of work of a transaction block, measured against genesis. -/
def TXBlock.Worked (crypto : Crypto) (txBlock : TXBlock) : Prop :=
  txBlock.hash crypto ≤ genesisTransactionDifficulty

/-- The proof-of-work checks measure a header that carries the thresholds of
genesis, or a lower one, against genesis. -/
theorem receives_worked {state : State} {action : Action}
    (receives : Receives (fun block => block.header.GenesisThresholds)
      (fun txBlock => txBlock.header.transactionDifficulty ≤ genesisTransactionDifficulty)
      crypto state action) :
    Receives (ProposerBlock.Worked crypto) (TXBlock.Worked crypto) crypto state action := by
  constructor
  · intro block taken
    have thresholds := receives.1 block taken
    refine ⟨thresholds, ?_⟩
    unfold State.received at taken
    split at taken
    · simp only [Option.mem_def, Option.ite_none_right_eq_some, Option.some.injEq] at taken
      obtain ⟨⟨-, work⟩, rfl⟩ := taken
      rw [thresholds.2] at work
      exact H256.le_of_not_lt work
    · cases taken
  · intro txBlock taken
    have threshold := receives.2 txBlock taken
    unfold State.receivedTransactionBlock at taken
    split at taken
    · simp only [Option.mem_def, Option.ite_none_right_eq_some, Option.some.injEq] at taken
      obtain ⟨⟨-, work, -⟩, rfl⟩ := taken
      exact H256.le_trans (H256.le_of_not_lt work) threshold
    · cases taken

/-- The miner hands the thresholds of the tip on. -/
theorem mines_worked {state : State} (action : Action)
    (entered : Entered (ProposerBlock.Worked crypto) (TXBlock.Worked crypto) crypto state) :
    Mines (ProposerBlock.Worked crypto) (TXBlock.Worked crypto) crypto state action := by
  have inherits : ∀ header txs refs, MinedHeader crypto state.node header txs refs →
      header.GenesisThresholds := by
    intro header txs refs mined
    obtain ⟨tipBlock, found, transaction, proposer⟩ := mined.thresholds
    rcases entered.tree _ tipBlock found with rfl | worked
    · exact ⟨transaction, proposer⟩
    · exact ⟨transaction.trans worked.1.1, proposer.trans worked.1.2⟩
  constructor
  · intro header txs refs _ mined won
    have thresholds := inherits header txs refs mined
    rw [thresholds.2] at won
    exact ⟨thresholds, H256.le_of_lt won⟩
  · intro header txs refs _ mined won _
    rw [(inherits header txs refs mined).1] at won
    exact H256.le_of_lt won

/-- Proof of work cannot be bypassed as long as the blocks taken in from peers
carry the thresholds of genesis: all blocks then have the thresholds of their
parents and a hash below those of genesis. -/
theorem worked_of_received (run : Run (State.step crypto) (Initial crypto))
    (meets : run.Meets (Receives (fun block => block.header.GenesisThresholds)
      (fun txBlock => txBlock.header.transactionDifficulty ≤ genesisTransactionDifficulty)
      crypto)) :
    ∀ index ≤ run.length,
      (∀ hash block, (run.states index).node.blockchain.blocks.lookup hash = some block →
        block = genesisBlock crypto ∨
          hash ≤ genesisProposerDifficulty ∧ block.header.GenesisThresholds ∧
          ∃ parent, (run.states index).node.blockchain.blocks.lookup
              block.header.proposerParent = some parent ∧
            block.header.transactionDifficulty = parent.header.transactionDifficulty ∧
            block.header.proposerDifficulty = parent.header.proposerDifficulty) ∧
      ∀ hash txBlock, (run.states index).node.txBlockPool.lookup hash = some txBlock →
        hash ≤ genesisTransactionDifficulty := by
  have invariant := run.invariant_of_meets meets
    (fun state => state.WellFormed crypto ∧
      Entered (ProposerBlock.Worked crypto) (TXBlock.Worked crypto) crypto state)
    (fun _ initial => ⟨initial.wellFormed, initial.entered⟩)
    (fun _ _ _ ⟨formed, entered⟩ receives stepped =>
      ⟨(formed.step stepped).1,
        entered.step formed (receives_worked receives) (mines_worked _ entered) stepped⟩)
  intro index bound
  obtain ⟨formed, entered⟩ := invariant index bound
  have thresholds : ∀ hash block,
      (run.states index).node.blockchain.blocks.lookup hash = some block →
        block.header.GenesisThresholds := by
    intro hash block found
    rcases entered.tree hash block found with rfl | worked
    · exact ⟨rfl, rfl⟩
    · exact worked.1
  constructor
  · intro hash block found
    rcases entered.tree hash block found with genesis | worked
    · exact .inl genesis
    rcases formed.node.chain.parents hash block found with genesis | member
    · exact .inl genesis
    obtain ⟨parent, foundParent⟩ := HashMap.lookup_of_mem member
    have inherited := thresholds _ parent foundParent
    have work := worked.2
    rw [formed.node.chain.stored hash block found] at work
    exact .inr ⟨work, worked.1, parent, foundParent, worked.1.1.trans inherited.1.symm,
      worked.1.2.trans inherited.2.symm⟩
  · intro hash txBlock found
    have work : txBlock.hash crypto ≤ genesisTransactionDifficulty :=
      entered.pool hash txBlock found
    rwa [formed.node.pooled hash txBlock found] at work

theorem worked_faithfulRun :
    (∃ block, (faithfulRun.states 5).node.blockchain.blocks.lookup (sampleHash 2) = some block ∧
      sampleHash 2 ≤ genesisProposerDifficulty ∧ block.header.GenesisThresholds ∧
      ∃ parent, (faithfulRun.states 5).node.blockchain.blocks.lookup
          block.header.proposerParent = some parent ∧
        block.header.transactionDifficulty = parent.header.transactionDifficulty ∧
        block.header.proposerDifficulty = parent.header.proposerDifficulty) ∧
    sampleHash 0x2001 ∈ (faithfulRun.states 5).node.txBlockPool ∧
      sampleHash 0x2001 ≤ genesisTransactionDifficulty := by
  have meets : faithfulRun.Meets (Receives (fun block => block.header.GenesisThresholds)
      (fun txBlock => txBlock.header.transactionDifficulty ≤ genesisTransactionDifficulty)
      Crypto.sample) := by
    change ∀ index < 5, _
    decide +kernel
  obtain ⟨tree, pool⟩ := worked_of_received faithfulRun meets 5 (by decide)
  have pooled := pooled_faithfulRun
  constructor
  · have stored := stored_faithfulRun
    exact ⟨_, stored, (tree _ _ stored).resolve_left (by decide +kernel)⟩
  · exact ⟨Finmap.mem_of_lookup_eq_some pooled, pool _ _ pooled⟩

/-- A proposer block whose header brings its own, generous threshold. -/
def cheapProposal : ProposerBlock where
  header :=
    { Header.sample 0x4002 (genesisHash Crypto.sample) with
      proposerDifficulty := ⟨Vector.replicate 32 255⟩ }
  content := ⟨[]⟩

def cheapRun : Run (State.step Crypto.sample) (Initial Crypto.sample) :=
  Run.sampleStart [.ico, .receive (.proposerBlocks [cheapProposal]), .work] (by decide +kernel)

/-- A block is stored although its threshold is not that of its parent and its
hash is above the threshold of genesis. -/
theorem not_worked_cheapRun :
    (cheapRun.states 3).node.blockchain.blocks.lookup (sampleHash 0x4002) =
        some cheapProposal ∧
      cheapProposal ≠ genesisBlock Crypto.sample ∧
      cheapProposal.header.proposerParent = genesisHash Crypto.sample ∧
      cheapProposal.header.proposerDifficulty ≠
        (genesisBlock Crypto.sample).header.proposerDifficulty ∧
      ¬ sampleHash 0x4002 ≤ genesisProposerDifficulty := by
  decide +kernel

end SimplifiedPrism
