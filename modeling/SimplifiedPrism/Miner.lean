import SimplifiedPrism.Worker

/-!
# The miner

One iteration of `miner_loop` collects transactions and references, builds a
header and decides by the hash of the header whether it has mined a proposer
block, a transaction block or nothing.  The iteration order of the hash maps,
the nonce and the clock are chosen from outside.  `miner_loop_attacker` is the
variant that mines empty blocks.
-/

namespace SimplifiedPrism

/-- What an iteration of the miner does not determine itself. -/
structure MinerChoice where
  txOrder : List H256
  txBlockOrder : List H256
  nonce : UInt32
  timestamp : BitVec 128
deriving DecidableEq

/-- The orders are possible iteration orders of the pools. -/
def MinerChoice.Possible (choice : MinerChoice) (node : Node) : Prop :=
  node.txPool.Enumerates choice.txOrder ∧ node.txBlockPool.Enumerates choice.txBlockOrder

instance (choice : MinerChoice) (node : Node) : Decidable (choice.Possible node) :=
  inferInstanceAs (Decidable (_ ∧ _))

/-- Collect up to ten pooled transactions whose inputs are all present. -/
def selectTransactions (txPool : HashMap H256 SignedTransaction) (currState : Ledger) :
    List H256 → Nat → Option (List SignedTransaction)
  | [], _ => some []
  | each :: order, countTx =>
      if 10 ≤ countTx then
        some []
      else do
        let tx ← txPool.lookup each
        let valid ← inputsUnspent currState tx.transaction
        if valid then
          let rest ← selectTransactions txPool currState order (countTx + 1)
          return tx :: rest
        else
          selectTransactions txPool currState order countTx

/-- Collect up to ten transaction blocks that no ancestor points to. -/
def selectRefs (pointedTxBlocks : List H256) : List H256 → Nat → List H256
  | [], _ => []
  | each :: order, countRef =>
      if 10 ≤ countRef then
        []
      else if each ∈ pointedTxBlocks then
        selectRefs pointedTxBlocks order countRef
      else
        each :: selectRefs pointedTxBlocks order (countRef + 1)

variable (crypto : Crypto)

/-- The header over some transactions and references, on top of the tip. -/
def newHeader (node : Node) (choice : MinerChoice) (transBlockContent : List SignedTransaction)
    (propsBlockContent : List H256) : Except Panic Header := do
  let newParent := node.blockchain.tip
  let tipBlock ← index .blocks (node.blockchain.blocks.lookup newParent)
  let transactionTree ← index .arithmetic
    (MerkleTree.new crypto (SignedTransaction.hash crypto) transBlockContent)
  let proposerTree ← index .arithmetic
    (MerkleTree.new crypto (H256.hash crypto) propsBlockContent)
  return {
    proposerParent := newParent
    nonce := choice.nonce
    timestamp := choice.timestamp
    transactionDifficulty := tipBlock.header.transactionDifficulty
    proposerDifficulty := tipBlock.header.proposerDifficulty
    merkleTransaction := transactionTree.root
    merkleProposer := proposerTree.root }

/-- Publish an own proposer block that references transaction blocks. -/
def publishProposerBlock (node : Node) (newBlock : ProposerBlock) (pointedTxBlocks : List H256)
    (currState : Ledger) : Except Panicked Node := do
  let hash := newBlock.hash crypto
  let newRef := newBlock.content.proposerContent
  let node := { node with txBlockRef := node.txBlockRef.insert hash (pointedTxBlocks ++ newRef) }
  let currState ← node.attempt (updateLedger crypto node.txBlockPool newRef currState)
  let txPool ← node.attempt (index .vector (pruneTxPool node.txPool currState))
  let node := { node with txPool }
  let node := { node with globState := node.globState.insert hash currState }
  node.insertBlock crypto newBlock

/-- One iteration of `miner_loop`. -/
def minerLoop (node : Node) (choice : MinerChoice) : Except Panicked Progress := do
  let newParent := node.blockchain.tip
  let currState ← node.attempt (index .globState (node.globState.lookup newParent))
  let transBlockContent ← node.attempt
    (index .vector (selectTransactions node.txPool currState choice.txOrder 0))
  let pointedTxBlocks ← node.attempt (index .txBlockRef (node.txBlockRef.lookup newParent))
  let propsBlockContent := selectRefs pointedTxBlocks choice.txBlockOrder 0
  let header ← node.attempt (newHeader crypto node choice transBlockContent propsBlockContent)
  if header.hash crypto < header.proposerDifficulty then
    if propsBlockContent.length = 0 then
      return { node }
    let newBlock : ProposerBlock := ⟨header, ⟨propsBlockContent⟩⟩
    let node ← publishProposerBlock crypto node newBlock pointedTxBlocks currState
    return { node, sent := [.broadcast (.newProposerBlockHashes [newBlock.hash crypto])] }
  else if header.hash crypto < header.transactionDifficulty then
    if transBlockContent.length = 0 then
      return { node }
    let newBlock : TXBlock := ⟨header, ⟨transBlockContent⟩⟩
    return {
      node := { node with
        txPool := removeTransactions crypto node.txPool transBlockContent
        txBlockPool := node.txBlockPool.insert (newBlock.hash crypto) newBlock }
      sent := [.broadcast (.newTransactionBlockHashes [newBlock.hash crypto])] }
  else
    return { node }

/-- One iteration of `miner_loop_attacker`: all blocks are empty, the ledger is
copied and the mempool is left alone. -/
def minerLoopAttacker (node : Node) (choice : MinerChoice) : Except Panicked Progress := do
  let newParent := node.blockchain.tip
  let currState ← node.attempt (index .globState (node.globState.lookup newParent))
  let pointedTxBlocks ← node.attempt (index .txBlockRef (node.txBlockRef.lookup newParent))
  let header ← node.attempt (newHeader crypto node choice [] [])
  if header.hash crypto < header.proposerDifficulty then
    let newBlock : ProposerBlock := ⟨header, ⟨[]⟩⟩
    let hash := newBlock.hash crypto
    let node := { node with
      txBlockRef := node.txBlockRef.insert hash (pointedTxBlocks ++ [])
      globState := node.globState.insert hash currState }
    let node ← node.insertBlock crypto newBlock
    return { node, sent := [.broadcast (.newProposerBlockHashes [hash])] }
  else if header.hash crypto < header.transactionDifficulty then
    let newBlock : TXBlock := ⟨header, ⟨[]⟩⟩
    return {
      node := { node with
        txBlockPool := node.txBlockPool.insert (newBlock.hash crypto) newBlock }
      sent := [.broadcast (.newTransactionBlockHashes [newBlock.hash crypto])] }
  else
    return { node }

/-- The header that an iteration of `miner_loop` hashes. -/
def minerHeader (node : Node) (choice : MinerChoice) : Option Header := do
  let currState ← node.globState.lookup node.blockchain.tip
  let transBlockContent ← selectTransactions node.txPool currState choice.txOrder 0
  let pointedTxBlocks ← node.txBlockRef.lookup node.blockchain.tip
  let propsBlockContent := selectRefs pointedTxBlocks choice.txBlockOrder 0
  (newHeader crypto node choice transBlockContent propsBlockContent).toOption

/-- The header that an iteration of `miner_loop_attacker` hashes. -/
def minerHeaderAttacker (node : Node) (choice : MinerChoice) : Option Header := do
  let _ ← node.globState.lookup node.blockchain.tip
  let _ ← node.txBlockRef.lookup node.blockchain.tip
  (newHeader crypto node choice [] []).toOption

/-! ## What the miner builds -/

variable {crypto}

/-- A header of the miner extends the tip, copies its thresholds and commits to
the collected content. -/
structure MinedHeader (crypto : Crypto) (node : Node) (header : Header)
    (transBlockContent : List SignedTransaction) (propsBlockContent : List H256) : Prop where
  parent : header.proposerParent = node.blockchain.tip
  thresholds : ∃ tipBlock, node.blockchain.blocks.lookup node.blockchain.tip = some tipBlock ∧
    header.transactionDifficulty = tipBlock.header.transactionDifficulty ∧
    header.proposerDifficulty = tipBlock.header.proposerDifficulty
  merkleTransaction : ∃ tree,
    MerkleTree.new crypto (SignedTransaction.hash crypto) transBlockContent = some tree ∧
      tree.root = header.merkleTransaction
  merkleProposer : ∃ tree,
    MerkleTree.new crypto (H256.hash crypto) propsBlockContent = some tree ∧
      tree.root = header.merkleProposer

/-- Everything an iteration of the miner can do to the maps, when it hashes the
given header. -/
inductive Mined (crypto : Crypto) (node : Node) (hashed : Option Header) : Node → Prop
  | nothing : Mined crypto node hashed node
  | proposer (header : Header) (transBlockContent : List SignedTransaction)
      (propsBlockContent : List H256) (parentLedger : Ledger) (txs : List SignedTransaction)
      (ledger : Ledger) (after : Node)
      (built : hashed = some header)
      (mined : MinedHeader crypto node header transBlockContent propsBlockContent)
      (won : header.hash crypto < header.proposerDifficulty)
      (accepts : Accepts crypto node ⟨header, ⟨propsBlockContent⟩⟩ parentLedger txs ledger
        after) :
      Mined crypto node hashed after
  | transaction (header : Header) (transBlockContent : List SignedTransaction)
      (propsBlockContent : List H256) (txPool : HashMap H256 SignedTransaction)
      (built : hashed = some header)
      (mined : MinedHeader crypto node header transBlockContent propsBlockContent)
      (lost : ¬ header.hash crypto < header.proposerDifficulty)
      (won : header.hash crypto < header.transactionDifficulty)
      (pooled : ∀ tx ∈ transBlockContent, ∃ hash, node.txPool.lookup hash = some tx)
      (kept : ∀ hash tx, txPool.lookup hash = some tx → node.txPool.lookup hash = some tx) :
      Mined crypto node hashed { node with
        txPool
        txBlockPool := node.txBlockPool.insert (header.hash crypto)
          ⟨header, ⟨transBlockContent⟩⟩ }

theorem selectRefs_sublist (pointedTxBlocks order : List H256) (countRef : Nat) :
    (selectRefs pointedTxBlocks order countRef).Sublist order := by
  induction order generalizing countRef with
  | nil => exact List.Sublist.refl _
  | cons each order ih =>
      unfold selectRefs
      split
      · exact List.nil_sublist _
      split
      · exact (ih countRef).cons each
      · exact (ih (countRef + 1)).cons_cons each

theorem not_pointed_of_selectRefs {pointedTxBlocks order : List H256} {countRef : Nat}
    {ref : H256} (selected : ref ∈ selectRefs pointedTxBlocks order countRef) :
    ref ∉ pointedTxBlocks := by
  induction order generalizing countRef with
  | nil => simp [selectRefs] at selected
  | cons each order ih =>
      unfold selectRefs at selected
      split at selected
      · simp at selected
      split at selected
      · exact ih selected
      · next notPointed =>
          rcases List.mem_cons.mp selected with rfl | selected
          · exact notPointed
          · exact ih selected

theorem pooled_of_selectTransactions {txPool : HashMap H256 SignedTransaction}
    {currState : Ledger} {order : List H256} {countTx : Nat} {txs : List SignedTransaction}
    (selected : selectTransactions txPool currState order countTx = some txs) :
    ∀ tx ∈ txs, ∃ hash, txPool.lookup hash = some tx := by
  induction order generalizing countTx txs with
  | nil =>
      simp only [selectTransactions, Option.some.injEq] at selected
      simp [← selected]
  | cons each order ih =>
      unfold selectTransactions at selected
      split at selected
      · simp only [Option.some.injEq] at selected
        simp [← selected]
      simp only [Option.bind_eq_bind, Option.bind_eq_some_iff] at selected
      obtain ⟨tx, found, valid, -, selected⟩ := selected
      split at selected
      · simp only [Option.bind_eq_some_iff, Option.pure_def, Option.some.injEq] at selected
        obtain ⟨rest, selectedRest, rfl⟩ := selected
        intro other member
        rcases List.mem_cons.mp member with rfl | member
        · exact ⟨each, found⟩
        · exact ih selectedRest other member
      · exact ih selected

theorem minedHeader_of_newHeader {node : Node} {choice : MinerChoice}
    {transBlockContent : List SignedTransaction} {propsBlockContent : List H256}
    {header : Header}
    (built : newHeader crypto node choice transBlockContent propsBlockContent = .ok header) :
    MinedHeader crypto node header transBlockContent propsBlockContent := by
  simp only [newHeader, bind_eq_ok, index_eq_ok] at built
  obtain ⟨tipBlock, found, transactionTree, builtTransaction, proposerTree, builtProposer,
    built⟩ := built
  cases built
  exact
    { parent := rfl
      thresholds := ⟨tipBlock, found, rfl, rfl⟩
      merkleTransaction := ⟨transactionTree, builtTransaction, rfl⟩
      merkleProposer := ⟨proposerTree, builtProposer, rfl⟩ }

theorem lookup_of_removeTransactions {txPool : HashMap H256 SignedTransaction}
    {content : List SignedTransaction} {hash : H256} {tx : SignedTransaction}
    (kept : (removeTransactions crypto txPool content).lookup hash = some tx) :
    txPool.lookup hash = some tx := by
  induction content generalizing txPool with
  | nil => exact kept
  | cons other content ih =>
      have erased := ih kept
      rw [HashMap.lookup_erase_ite] at erased
      split at erased
      · cases erased
      · exact erased

/-- Publishing an own block accepts it, since the miner references no block
twice and none that an ancestor references. -/
theorem accepts_of_publish {node after : Node} {newBlock : ProposerBlock}
    {pointedTxBlocks : List H256} {currState : Ledger}
    (parentState : node.globState.lookup newBlock.header.proposerParent = some currState)
    (parentRef : node.txBlockRef.lookup newBlock.header.proposerParent = some pointedTxBlocks)
    (nodup : newBlock.content.proposerContent.Nodup)
    (fresh : ∀ ref ∈ newBlock.content.proposerContent, ref ∉ pointedTxBlocks)
    (published : publishProposerBlock crypto node newBlock pointedTxBlocks currState =
      .ok after) :
    ∃ txs ledger, Accepts crypto node newBlock currState txs ledger after := by
  simp only [publishProposerBlock, bind_eq_ok, Node.attempt_eq_ok, index_eq_ok] at published
  obtain ⟨ledger, updated, txPool, pruned, inserted⟩ := published
  obtain ⟨txs, collected, applied⟩ := referenced_of_updateLedger updated
  obtain ⟨blockchain, chained, rfl⟩ := Node.insertBlock_ok inserted
  refine ⟨txs, ledger, ?_⟩
  exact
    { parentState := parentState
      references := collected
      applied := applied
      globState := rfl
      txBlockRef := ⟨pointedTxBlocks, parentRef, by rw [mergeRef_eq_append nodup fresh]⟩
      inserted := chained
      txPool := fun hash tx kept => ((lookup_of_pruned pruned).mp kept).1
      orphanHandler := rfl
      txBlockPool := rfl
      allAddr := rfl
      myAddrKey := rfl }

/-- Publishing an empty block copies the entries of its parent and leaves the
mempool alone. -/
theorem accepts_of_copy {node after : Node} {newBlock : ProposerBlock}
    {pointedTxBlocks : List H256} {currState : Ledger}
    (empty : newBlock.content.proposerContent = [])
    (parentState : node.globState.lookup newBlock.header.proposerParent = some currState)
    (parentRef : node.txBlockRef.lookup newBlock.header.proposerParent = some pointedTxBlocks)
    (inserted : Node.insertBlock crypto { node with
      txBlockRef := node.txBlockRef.insert (newBlock.hash crypto) (pointedTxBlocks ++ [])
      globState := node.globState.insert (newBlock.hash crypto) currState } newBlock =
        .ok after) :
    Accepts crypto node newBlock currState [] currState after ∧ after.txPool = node.txPool := by
  obtain ⟨blockchain, chained, rfl⟩ := Node.insertBlock_ok inserted
  refine ⟨?_, rfl⟩
  exact
    { parentState := parentState
      references := by rw [empty, referenced]
      applied := rfl
      globState := rfl
      txBlockRef := ⟨pointedTxBlocks, parentRef, by simp [empty, mergeRef]⟩
      inserted := chained
      txPool := fun hash tx kept => kept
      orphanHandler := rfl
      txBlockPool := rfl
      allAddr := rfl
      myAddrKey := rfl }

/-- A panic while publishing has written at most the reference list. -/
theorem node_of_publish_error {node : Node} {newBlock : ProposerBlock}
    {pointedTxBlocks : List H256} {currState : Ledger} {panicked : Panicked}
    (heights : newBlock.header.proposerParent ∈ node.blockchain.heights)
    (failed : publishProposerBlock crypto node newBlock pointedTxBlocks currState =
      .error panicked) :
    panicked.node = { node with
      txBlockRef := node.txBlockRef.insert (newBlock.hash crypto)
        (pointedTxBlocks ++ newBlock.content.proposerContent) } := by
  simp only [publishProposerBlock, bind_eq_error, Node.attempt_eq_error] at failed
  rcases failed with ⟨-, written⟩ | ⟨ledger, -, failed⟩
  · exact written
  rcases failed with ⟨-, written⟩ | ⟨txPool, -, failed⟩
  · exact written
  obtain ⟨blockchain, chained⟩ := Blockchain.insert_isOk crypto heights
  simp [Node.insertBlock, chained] at failed

section Iteration

variable {node : Node} {choice : MinerChoice}

theorem mined_of_minerLoop {progress : Progress} (possible : choice.Possible node)
    (ran : minerLoop crypto node choice = .ok progress) :
    Mined crypto node (minerHeader crypto node choice) progress.node := by
  simp only [minerLoop, bind_eq_ok, Node.attempt_eq_ok, index_eq_ok] at ran
  obtain ⟨currState, tipState, transBlockContent, selected, pointedTxBlocks, tipRef, header,
    built, ran⟩ := ran
  have mined := minedHeader_of_newHeader built
  have hashed : minerHeader crypto node choice = some header := by
    simp [minerHeader, tipState, selected, tipRef, built, Except.toOption]
  split at ran
  · next won =>
      split at ran
      · cases ran
        exact .nothing
      simp only [bind_eq_ok] at ran
      obtain ⟨after, published, ran⟩ := ran
      cases ran
      have nodup : (selectRefs pointedTxBlocks choice.txBlockOrder 0).Nodup :=
        (selectRefs_sublist _ _ _).nodup possible.2.nodup
      rw [← mined.parent] at tipState tipRef
      obtain ⟨txs, ledger, accepts⟩ := accepts_of_publish tipState tipRef nodup
        (fun ref member => not_pointed_of_selectRefs member) published
      exact .proposer header transBlockContent _ currState txs ledger after hashed mined won accepts
  · next lost =>
      split at ran
      · next won =>
          split at ran
          · cases ran
            exact .nothing
          cases ran
          exact .transaction header transBlockContent _ _ hashed mined lost won
            (pooled_of_selectTransactions selected)
            fun hash tx kept => lookup_of_removeTransactions kept
      · cases ran
        exact .nothing

theorem mined_of_minerLoopAttacker {progress : Progress}
    (ran : minerLoopAttacker crypto node choice = .ok progress) :
    Mined crypto node (minerHeaderAttacker crypto node choice) progress.node := by
  simp only [minerLoopAttacker, bind_eq_ok, Node.attempt_eq_ok, index_eq_ok] at ran
  obtain ⟨currState, tipState, pointedTxBlocks, tipRef, header, built, ran⟩ := ran
  have mined := minedHeader_of_newHeader built
  have hashed : minerHeaderAttacker crypto node choice = some header := by
    simp [minerHeaderAttacker, tipState, tipRef, built, Except.toOption]
  split at ran
  · next won =>
      simp only [bind_eq_ok] at ran
      obtain ⟨after, inserted, ran⟩ := ran
      cases ran
      rw [← mined.parent] at tipState tipRef
      exact .proposer header [] [] currState [] currState _ hashed mined won
        (accepts_of_copy rfl tipState tipRef inserted).1
  · next lost =>
      split at ran
      · next won =>
          cases ran
          exact .transaction header [] [] _ hashed mined lost won (by simp) fun hash tx kept => kept
      · cases ran
        exact .nothing

/-- A panicking miner has written at most the reference list of a block that
won the sortition. -/
inductive MinerFailure (crypto : Crypto) (node : Node) (hashed : Option Header) : Node → Prop
  | nothing : MinerFailure crypto node hashed node
  | reference (header : Header) (transBlockContent : List SignedTransaction)
      (propsBlockContent pointedTxBlocks : List H256)
      (built : hashed = some header)
      (mined : MinedHeader crypto node header transBlockContent propsBlockContent)
      (won : header.hash crypto < header.proposerDifficulty)
      (tipRef : node.txBlockRef.lookup header.proposerParent = some pointedTxBlocks)
      (merged : mergeRef pointedTxBlocks propsBlockContent =
        pointedTxBlocks ++ propsBlockContent) :
      MinerFailure crypto node hashed { node with
        txBlockRef := node.txBlockRef.insert (header.hash crypto)
          (pointedTxBlocks ++ propsBlockContent) }

theorem failure_of_minerLoop {panicked : Panicked} (possible : choice.Possible node)
    (heights : node.blockchain.tip ∈ node.blockchain.heights)
    (ran : minerLoop crypto node choice = .error panicked) :
    MinerFailure crypto node (minerHeader crypto node choice) panicked.node := by
  simp only [minerLoop, bind_eq_error, Node.attempt_eq_error, Node.attempt_eq_ok,
    index_eq_ok] at ran
  rcases ran with ⟨-, unchanged⟩ | ⟨currState, tipState, ran⟩
  · exact unchanged ▸ .nothing
  rcases ran with ⟨-, unchanged⟩ | ⟨transBlockContent, selected, ran⟩
  · exact unchanged ▸ .nothing
  rcases ran with ⟨-, unchanged⟩ | ⟨pointedTxBlocks, tipRef, ran⟩
  · exact unchanged ▸ .nothing
  rcases ran with ⟨-, unchanged⟩ | ⟨header, built, ran⟩
  · exact unchanged ▸ .nothing
  have mined := minedHeader_of_newHeader built
  have hashed : minerHeader crypto node choice = some header := by
    simp [minerHeader, tipState, selected, tipRef, built, Except.toOption]
  split at ran
  · next won =>
      split at ran
      · cases ran
      simp only [bind_eq_error] at ran
      rcases ran with failed | ⟨after, -, impossible⟩
      · rw [← mined.parent] at heights tipRef
        rw [node_of_publish_error heights failed]
        have nodup : (selectRefs pointedTxBlocks choice.txBlockOrder 0).Nodup :=
          (selectRefs_sublist _ _ _).nodup possible.2.nodup
        exact .reference header transBlockContent _ pointedTxBlocks hashed mined won tipRef
          (mergeRef_eq_append nodup fun ref member => not_pointed_of_selectRefs member)
      · cases impossible
  · split at ran
    · split at ran
      · cases ran
      · cases ran
    · cases ran

theorem failure_of_minerLoopAttacker {panicked : Panicked}
    (heights : node.blockchain.tip ∈ node.blockchain.heights)
    (ran : minerLoopAttacker crypto node choice = .error panicked) :
    MinerFailure crypto node (minerHeaderAttacker crypto node choice) panicked.node := by
  simp only [minerLoopAttacker, bind_eq_error, Node.attempt_eq_error, Node.attempt_eq_ok,
    index_eq_ok] at ran
  rcases ran with ⟨-, unchanged⟩ | ⟨currState, -, ran⟩
  · exact unchanged ▸ .nothing
  rcases ran with ⟨-, unchanged⟩ | ⟨pointedTxBlocks, -, ran⟩
  · exact unchanged ▸ .nothing
  rcases ran with ⟨-, unchanged⟩ | ⟨header, built, ran⟩
  · exact unchanged ▸ .nothing
  have mined := minedHeader_of_newHeader built
  split at ran
  · simp only [bind_eq_error] at ran
    rcases ran with failed | ⟨after, -, impossible⟩
    · let newBlock : ProposerBlock := ⟨header, ⟨[]⟩⟩
      have parentHeight : newBlock.header.proposerParent ∈ node.blockchain.heights :=
        mined.parent ▸ heights
      obtain ⟨blockchain, chained⟩ := Blockchain.insert_isOk crypto parentHeight
      simp [newBlock, Node.insertBlock, chained] at failed
    · cases impossible
  · split at ran
    · cases ran
    · cases ran

end Iteration

end SimplifiedPrism
