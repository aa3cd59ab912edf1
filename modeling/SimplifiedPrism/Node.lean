import SimplifiedPrism.Blockchain
import SimplifiedPrism.Ledger

/-!
# The shared maps of a node and the acceptance of a proposer block

The worker threads, the miner and the generator of a node share a handful of
maps.  This file models them as one record, together with the code that both
`worker_loop` and `new_parent` run on a proposer block whose parent is known:
extend `tx_block_ref`, update the ledger, prune the mempool, publish the state
and insert the block.  A panic keeps what the thread had written so far.
-/

namespace SimplifiedPrism

/-- The maps shared by the threads of a node. -/
structure Node where
  blockchain : Blockchain
  orphanHandler : HashMap H256 (List ProposerBlock)
  txPool : HashMap H256 SignedTransaction
  globState : HashMap H256 Ledger
  allAddr : List H160
  myAddrKey : HashMap H160 KeyPair
  txBlockPool : HashMap H256 TXBlock
  txBlockRef : HashMap H256 (List H256)
deriving DecidableEq

/-- What a panicking thread leaves behind. -/
structure Panicked where
  panic : Panic
  node : Node
deriving DecidableEq

namespace Node

/-- Run an operation that may panic while the maps are in the given state. -/
def attempt {α : Type} (node : Node) : Except Panic α → Except Panicked α
  | .error panic => .error ⟨panic, node⟩
  | .ok value => .ok value

/-- Insert a block into the block tree. -/
def insertBlock (crypto : Crypto) (node : Node) (block : ProposerBlock) :
    Except Panicked Node :=
  match node.blockchain.insert crypto block with
  | .error blockchain => .error ⟨.heights, { node with blockchain }⟩
  | .ok blockchain => .ok { node with blockchain }

end Node

/-- Append the references that are not yet in the list. -/
def mergeRef (parentRef myRef : List H256) : List H256 :=
  myRef.foldl (fun newRef ref => if ref ∈ newRef then newRef else newRef ++ [ref]) parentRef

/-- Check that the inputs are not spent. -/
def inputsUnspent (currState : Ledger) (transaction : Transaction) : Option Bool :=
  (List.range transaction.inputPrevious.length).allM fun i => do
    let key ← transaction.lookupKey i
    return decide (key ∈ currState)

/-- All inputs of a transaction are present in a ledger. -/
def Transaction.unspent (transaction : Transaction) (currState : Ledger) : Bool :=
  (List.range transaction.inputPrevious.length).all fun i =>
    (transaction.lookupKey i).any fun lookupKey => lookupKey ∈ currState

/-- Remove the transactions that are in conflict with the new state.  The scan
reads every lookup key of every pooled transaction. -/
def pruneTxPool (txPool : HashMap H256 SignedTransaction) (currState : Ledger) :
    Option (HashMap H256 SignedTransaction) :=
  if ∀ entry ∈ txPool.entries, entry.2.transaction.Indexed then
    some (txPool.filter fun _ tx => tx.transaction.unspent currState)
  else
    none

section Apply

variable (crypto : Crypto)

/-- Apply a proposer block on top of its parent. -/
def applyProposerBlock (node : Node) (block : ProposerBlock) : Except Panicked Node := do
  let parent := block.header.proposerParent
  let hash := block.hash crypto
  let myRef := block.content.proposerContent
  -- update tx_block_ref
  let parentRef ← node.attempt (index .txBlockRef (node.txBlockRef.lookup parent))
  let node := { node with txBlockRef := node.txBlockRef.insert hash (mergeRef parentRef myRef) }
  -- update state ledger
  let parentState ← node.attempt (index .globState (node.globState.lookup parent))
  let currState ← node.attempt (updateLedger crypto node.txBlockPool myRef parentState)
  -- update transaction pool
  let txPool ← node.attempt (index .vector (pruneTxPool node.txPool currState))
  let node := { node with txPool }
  -- insert new state, then the new block
  let node := { node with globState := node.globState.insert hash currState }
  node.insertBlock crypto block

end Apply

@[simp]
theorem Node.attempt_ok {α : Type} (node : Node) (value : α) :
    node.attempt (.ok value) = .ok value :=
  rfl

@[simp]
theorem Node.attempt_error {α : Type} (node : Node) (panic : Panic) :
    (node.attempt (.error panic) : Except Panicked α) = .error ⟨panic, node⟩ :=
  rfl

theorem Node.attempt_eq_ok {α : Type} {node : Node} {operation : Except Panic α} {value : α} :
    node.attempt operation = .ok value ↔ operation = .ok value := by
  cases operation <;> simp [attempt]

theorem Node.attempt_eq_error {α : Type} {node : Node} {operation : Except Panic α}
    {panicked : Panicked} :
    node.attempt operation = .error panicked ↔
      operation = .error panicked.panic ∧ panicked.node = node := by
  cases operation with
  | ok value => simp [attempt]
  | error panic =>
      cases panicked
      simp [attempt, eq_comm]

theorem mem_mergeRef {parentRef myRef : List H256} {ref : H256} :
    ref ∈ mergeRef parentRef myRef ↔ ref ∈ parentRef ∨ ref ∈ myRef := by
  induction myRef generalizing parentRef with
  | nil => simp [mergeRef]
  | cons head myRef ih =>
      rw [mergeRef, List.foldl_cons]
      refine ih.trans ?_
      split
      · next present =>
          constructor
          · rintro (member | member)
            · exact .inl member
            · exact .inr (by simp [member])
          · rintro (member | member)
            · exact .inl member
            · rcases List.mem_cons.mp member with rfl | member
              · exact .inl present
              · exact .inr member
      · simp only [List.mem_append, List.mem_cons, List.not_mem_nil, or_false, or_assoc]

/-- Without repetitions the merge is the concatenation that the miner makes. -/
theorem mergeRef_eq_append {parentRef myRef : List H256} (nodup : myRef.Nodup)
    (fresh : ∀ ref ∈ myRef, ref ∉ parentRef) :
    mergeRef parentRef myRef = parentRef ++ myRef := by
  induction myRef generalizing parentRef with
  | nil => simp [mergeRef]
  | cons head myRef ih =>
      obtain ⟨notAgain, nodupRest⟩ := List.nodup_cons.mp nodup
      rw [mergeRef, List.foldl_cons, if_neg (fresh head (by simp))]
      have freshRest : ∀ ref ∈ myRef, ref ∉ parentRef ++ [head] := by
        intro ref member
        rw [List.mem_append, List.mem_singleton, not_or]
        exact ⟨fresh ref (by simp [member]), fun same => notAgain (same ▸ member)⟩
      have rest := ih nodupRest freshRest
      rw [mergeRef] at rest
      rw [rest, List.append_assoc, List.singleton_append]

/-! ## Pruning the mempool -/

/-- Every pooled transaction has an index for every input. -/
def PoolIndexed (txPool : HashMap H256 SignedTransaction) : Prop :=
  ∀ hash tx, txPool.lookup hash = some tx → tx.transaction.Indexed

theorem pruneTxPool_of_indexed {txPool : HashMap H256 SignedTransaction}
    (indexed : PoolIndexed txPool) (currState : Ledger) :
    pruneTxPool txPool currState =
      some (txPool.filter fun _ tx => tx.transaction.unspent currState) := by
  rw [pruneTxPool, if_pos]
  rintro ⟨hash, tx⟩ member
  exact indexed hash tx ((HashMap.mem_entries_iff txPool hash tx).mp member)

theorem lookup_of_pruned {txPool after : HashMap H256 SignedTransaction}
    {currState : Ledger} (pruned : pruneTxPool txPool currState = some after)
    {hash : H256} {tx : SignedTransaction} :
    after.lookup hash = some tx ↔
      txPool.lookup hash = some tx ∧ tx.transaction.unspent currState = true := by
  unfold pruneTxPool at pruned
  split at pruned
  · rw [Option.some.injEq] at pruned
    subst pruned
    exact HashMap.lookup_filter_eq_some _ _ _ _
  · cases pruned

/-! ## What an acceptance does -/

/-- A block is accepted on top of its parent's ledger: its transactions lead
from `parentLedger` to `ledger`, which is published under the block's hash
together with the block, its height and its references. -/
structure Accepts (crypto : Crypto) (before : Node) (block : ProposerBlock)
    (parentLedger : Ledger) (txs : List SignedTransaction) (ledger : Ledger)
    (after : Node) : Prop where
  parentState : before.globState.lookup block.header.proposerParent = some parentLedger
  references : referenced before.txBlockPool block.content.proposerContent = some txs
  applied : applyTransactions crypto parentLedger txs = some ledger
  globState : after.globState = before.globState.insert (block.hash crypto) ledger
  txBlockRef : ∃ parentRef, before.txBlockRef.lookup block.header.proposerParent = some parentRef ∧
    after.txBlockRef = before.txBlockRef.insert (block.hash crypto)
      (mergeRef parentRef block.content.proposerContent)
  inserted : before.blockchain.insert crypto block = .ok after.blockchain
  txPool : ∀ hash tx, after.txPool.lookup hash = some tx → before.txPool.lookup hash = some tx
  orphanHandler : after.orphanHandler = before.orphanHandler
  txBlockPool : after.txBlockPool = before.txBlockPool
  allAddr : after.allAddr = before.allAddr
  myAddrKey : after.myAddrKey = before.myAddrKey

section ApplyCases

variable {crypto : Crypto} {node after : Node} {block : ProposerBlock}

theorem Node.insertBlock_ok (inserted : node.insertBlock crypto block = .ok after) :
    ∃ blockchain, node.blockchain.insert crypto block = .ok blockchain ∧
      after = { node with blockchain } := by
  unfold insertBlock at inserted
  split at inserted
  · cases inserted
  · next blockchain chained =>
      cases inserted
      exact ⟨blockchain, chained, rfl⟩

theorem accepts_of_apply (applied : applyProposerBlock crypto node block = .ok after) :
    ∃ parentLedger txs ledger, Accepts crypto node block parentLedger txs ledger after := by
  simp only [applyProposerBlock, bind_eq_ok, Node.attempt_eq_ok, index_eq_ok] at applied
  obtain ⟨parentRef, foundRef, parentLedger, foundState, ledger, updated, txPool, pruned,
    inserted⟩ := applied
  obtain ⟨txs, collected, applied⟩ := referenced_of_updateLedger updated
  obtain ⟨blockchain, chained, rfl⟩ := Node.insertBlock_ok inserted
  refine ⟨parentLedger, txs, ledger, ?_⟩
  exact
    { parentState := foundState
      references := collected
      applied := applied
      globState := rfl
      txBlockRef := ⟨parentRef, foundRef, rfl⟩
      inserted := chained
      txPool := fun hash tx kept => ((lookup_of_pruned pruned).mp kept).1
      orphanHandler := rfl
      txBlockPool := rfl
      allAddr := rfl
      myAddrKey := rfl }

/-- The parent of a block is published in every map that an application reads. -/
structure ParentReady (node : Node) (block : ProposerBlock) : Prop where
  txBlockRef : block.header.proposerParent ∈ node.txBlockRef
  globState : block.header.proposerParent ∈ node.globState
  heights : block.header.proposerParent ∈ node.blockchain.heights

/-- An application succeeds when the parent is published, the references are in
the pool and the ledger update stays in range. -/
theorem apply_isOk (ready : ParentReady node block) (indexed : PoolIndexed node.txPool)
    {txs : List SignedTransaction}
    (collected : referenced node.txBlockPool block.content.proposerContent = some txs)
    (inRange : ∀ parentLedger,
      node.globState.lookup block.header.proposerParent = some parentLedger →
        ∃ ledger, applyTransactions crypto parentLedger txs = some ledger) :
    ∃ after, applyProposerBlock crypto node block = .ok after := by
  obtain ⟨parentRef, foundRef⟩ := HashMap.lookup_of_mem ready.txBlockRef
  obtain ⟨parentLedger, foundState⟩ := HashMap.lookup_of_mem ready.globState
  obtain ⟨ledger, applied⟩ := inRange parentLedger foundState
  obtain ⟨blockchain, chained⟩ := Blockchain.insert_isOk crypto ready.heights
  simp only [applyProposerBlock, foundRef, foundState, index_some, Node.attempt_ok, ok_bind,
    updateLedger_of_referenced collected, applied, pruneTxPool_of_indexed indexed,
    Node.insertBlock, chained]
  exact ⟨_, rfl⟩

/-- A panicking application has written nothing, or only the reference list of
the block, unless the height of the parent is missing. -/
theorem node_of_apply_error {panicked : Panicked}
    (heights : block.header.proposerParent ∈ node.blockchain.heights)
    (failed : applyProposerBlock crypto node block = .error panicked) :
    panicked.node = node ∨
      ∃ parentRef, node.txBlockRef.lookup block.header.proposerParent = some parentRef ∧
        panicked.node = { node with
          txBlockRef := node.txBlockRef.insert (block.hash crypto)
            (mergeRef parentRef block.content.proposerContent) } := by
  simp only [applyProposerBlock, bind_eq_error, Node.attempt_eq_error, Node.attempt_eq_ok,
    index_eq_ok, index_eq_error] at failed
  rcases failed with ⟨-, unchanged⟩ | ⟨parentRef, foundRef, failed⟩
  · exact .inl unchanged
  right
  refine ⟨parentRef, foundRef, ?_⟩
  rcases failed with ⟨-, written⟩ | ⟨parentLedger, foundState, failed⟩
  · exact written
  rcases failed with ⟨-, written⟩ | ⟨ledger, updated, failed⟩
  · exact written
  rcases failed with ⟨-, written⟩ | ⟨txPool, pruned, failed⟩
  · exact written
  obtain ⟨blockchain, chained⟩ := Blockchain.insert_isOk crypto heights
  simp [Node.insertBlock, chained] at failed

/-- With the parent published and the references in the pool, only a vector can
be indexed out of range. -/
theorem panic_of_apply_error {panicked : Panicked} (ready : ParentReady node block)
    {txs : List SignedTransaction}
    (collected : referenced node.txBlockPool block.content.proposerContent = some txs)
    (failed : applyProposerBlock crypto node block = .error panicked) :
    panicked.panic = .vector := by
  obtain ⟨foundRef, refLookup⟩ := HashMap.lookup_of_mem ready.txBlockRef
  obtain ⟨foundState, stateLookup⟩ := HashMap.lookup_of_mem ready.globState
  obtain ⟨blockchain, chained⟩ := Blockchain.insert_isOk crypto ready.heights
  simp only [applyProposerBlock, refLookup, stateLookup, index_some, Node.attempt_ok, ok_bind,
    updateLedger_of_referenced collected, bind_eq_error, Node.attempt_eq_error, index_eq_error,
    Node.insertBlock, chained] at failed
  rcases failed with ⟨⟨-, cause⟩, -⟩ | ⟨ledger, -, ⟨⟨-, cause⟩, -⟩ | ⟨txPool, -, impossible⟩⟩
  · exact cause
  · exact cause
  · cases impossible

end ApplyCases

end SimplifiedPrism
