import SimplifiedPrism.WriteOnce

/-!
# The order of deliveries

A finite set of proposer blocks that leads back to genesis is delivered to a
node in messages, in any order and with repetitions.  A block that comes before
its parent waits in the buffer until `new_parent` releases it.  Whatever the
order, the node ends with the same tree, the same ledgers and references, and
an empty buffer.
-/

namespace SimplifiedPrism

variable {crypto : Crypto} {blocks : Finset ProposerBlock}

/-- The hash of genesis, or of a block of the set that leads back to it. -/
inductive Rooted (crypto : Crypto) (blocks : Finset ProposerBlock) : H256 → Prop
  | genesis : Rooted crypto blocks (genesisHash crypto)
  | child (block : ProposerBlock) (member : block ∈ blocks)
      (parent : Rooted crypto blocks block.header.proposerParent) :
      Rooted crypto blocks (block.hash crypto)

/-- The blocks of the set pass the proof-of-work check, lead back to genesis and
are determined by their header hashes. -/
structure Deliverable (crypto : Crypto) (blocks : Finset ProposerBlock) : Prop where
  work : ∀ block ∈ blocks, ¬ block.hash crypto > block.header.proposerDifficulty
  rooted : ∀ block ∈ blocks, Rooted crypto blocks block.header.proposerParent
  determined : ∀ first ∈ blocks, ∀ second ∈ blocks,
    first.hash crypto = second.hash crypto → first = second

/-- The transaction blocks that the set refers to are in the pool, correctly
signed, and their transactions have an index and an output for every input. -/
def PoolReady (crypto : Crypto) (blocks : Finset ProposerBlock)
    (txBlockPool : HashMap H256 TXBlock) : Prop :=
  ∀ block ∈ blocks, ∀ ref ∈ block.content.proposerContent, ∃ txBlock,
    txBlockPool.lookup ref = some txBlock ∧
      ∀ tx ∈ txBlock.content.transactionContent, tx.Sound crypto

section Pool

variable {txBlockPool : HashMap H256 TXBlock} {block : ProposerBlock}

theorem PoolReady.referenced (ready : PoolReady crypto blocks txBlockPool)
    (member : block ∈ blocks) :
    ∃ txs, referenced txBlockPool block.content.proposerContent = some txs ∧
      ∀ tx ∈ txs, tx.Sound crypto := by
  have present : ∀ ref ∈ block.content.proposerContent, ref ∈ txBlockPool := by
    intro ref inContent
    obtain ⟨txBlock, found, -⟩ := ready block member ref inContent
    exact Finmap.mem_of_lookup_eq_some found
  obtain ⟨txs, collected⟩ := referenced_isSome present
  refine ⟨txs, collected, fun tx inside => ?_⟩
  obtain ⟨ref, inContent, txBlock, found, inBlock⟩ := (mem_referenced collected).mp inside
  obtain ⟨other, lookup, good⟩ := ready block member ref inContent
  rw [found, Option.some.injEq] at lookup
  subst lookup
  exact good tx inBlock

end Pool

/-! ## One delivery -/

/-- What a task does when blocks of the set are delivered: a known block is
skipped, a block without parent waits, any other is accepted, and an accepted
block releases what waits for it. -/
inductive Delivers (crypto : Crypto) (node : Node) : Task → Node → List Task → Prop
  | known (each : ProposerBlock) (known : each.hash crypto ∈ node.blockchain.blocks) :
      Delivers crypto node (.proposerBlock each) node []
  | buffer (each : ProposerBlock)
      (parentMissing : each.header.proposerParent ∉ node.blockchain.blocks) :
      Delivers crypto node (.proposerBlock each) (bufferOrphan node each) []
  | accept (task : Task) (each : ProposerBlock) (after : Node)
      (checks : Checks crypto node task each)
      (applied : applyProposerBlock crypto node each = .ok after) :
      Delivers crypto node task after [.newParent each]
  | nothing (block : ProposerBlock) (absent : block.hash crypto ∉ node.orphanHandler) :
      Delivers crypto node (.newParent block) node []
  | release (block : ProposerBlock) (vec : List ProposerBlock)
      (waiting : node.orphanHandler.lookup (block.hash crypto) = some vec) :
      Delivers crypto node (.newParent block)
        { node with orphanHandler := node.orphanHandler.erase (block.hash crypto) }
        (vec.map .orphan)

/-- A task of a delivery handles a block of the set. -/
def Task.Handles (blocks : Finset ProposerBlock) : Task → Prop
  | .proposerBlock each => each ∈ blocks
  | .newParent _ => True
  | .orphan each => each ∈ blocks
  | _ => False

section Delivery

variable {node : Node} {task : Task} {each : ProposerBlock}

theorem delivers_of_checks (ready : PoolReady crypto blocks node.txBlockPool)
    (formed : node.WellFormed crypto) (published : node.Published) (member : each ∈ blocks)
    (checks : Checks crypto node task each) (grounded : task.Grounded crypto node) :
    ∃ progress, acceptProposerBlock crypto node each = .ok progress ∧
      Delivers crypto node task progress.node progress.todo := by
  obtain ⟨txs, collected, sound⟩ := ready.referenced member
  obtain ⟨after, applied, accepted⟩ :=
    accept_isOk formed published (checks.parent_mem grounded) collected sound
  exact ⟨_, accepted, .accept task each after checks applied⟩

/-- Every task of a delivery runs through, when the blocks pass the proof-of-work
check. -/
theorem delivers_of_handles
    (work : ∀ block ∈ blocks, ¬ block.hash crypto > block.header.proposerDifficulty)
    (ready : PoolReady crypto blocks node.txBlockPool) (formed : node.WellFormed crypto)
    (published : node.Published) (handles : task.Handles blocks)
    (grounded : task.Grounded crypto node) :
    ∃ progress, runTask crypto node task = .ok progress ∧
      Delivers crypto node task progress.node progress.todo := by
  cases task with
  | proposerBlock each =>
      have work := work each handles
      simp only [runTask, handleProposerBlock, if_neg work]
      split
      · next known => exact ⟨_, rfl, .known each known⟩
      next unknown =>
      split
      · next parentMissing => exact ⟨_, rfl, .buffer each parentMissing⟩
      · next parentKnown =>
          exact delivers_of_checks ready formed published handles
            (.received each unknown work (not_not.mp parentKnown)) grounded
  | newParent block =>
      refine ⟨_, rfl, ?_⟩
      unfold handleNewParent
      split
      · next absent => exact .nothing block (Finmap.lookup_eq_none.mp absent)
      · next vec waiting => exact .release block vec waiting
  | orphan each =>
      exact delivers_of_checks ready formed published handles (.orphan each) grounded
  | addr _ | ico _ _ | announcedTransaction _ | requestedTransaction _ | transaction _ _
  | announcedTransactionBlock _ | requestedTransactionBlock _ | transactionBlock _
  | announcedProposerBlock _ | requestedProposerBlock _ => cases handles

end Delivery

/-! ## What a delivery keeps -/

/-- Between the tasks of a delivery: the state is as every reachable one, all
blocks come from the set, and the entries of genesis and the pool are those of
the start. -/
structure Delivering (crypto : Crypto) (blocks : Finset ProposerBlock) (start : Node)
    (state : State) : Prop where
  formed : state.WellFormed crypto
  published : state.node.Published
  notGenesis : NotGenesis crypto state
  settled : Settled crypto state.node
  entered : Entered (· ∈ blocks) (fun _ => True) crypto state
  longest : state.node.blockchain.Longest
  genesis : SameEntries start state.node (genesisHash crypto)
  pool : state.node.txBlockPool = start.txBlockPool
  handles : ∀ task ∈ state.todo, task.Handles blocks

theorem step_of_runTask {node : Node} {task : Task} {progress : Progress}
    (ran : runTask crypto node task = .ok progress) (rest : List Task) (lastState : H256) :
    State.stepAfterIco crypto ⟨node, task :: rest, lastState⟩ .work =
      some ⟨progress.node, progress.todo ++ rest, lastState⟩ := by
  rw [State.stepAfterIco, State.step]
  · simp only [ran]
  · simp

section Keeps

variable {start node : Node} {task : Task} {rest : List Task} {lastState : H256}

theorem SameEntries.trans {first second third : Node} {hash : H256}
    (before : SameEntries first second hash) (after : SameEntries second third hash) :
    SameEntries first third hash where
  blocks := after.blocks.trans before.blocks
  heights := after.heights.trans before.heights
  globState := after.globState.trans before.globState
  txBlockRef := after.txBlockRef.trans before.txBlockRef

theorem SameEntries.symm {first second : Node} {hash : H256}
    (same : SameEntries first second hash) : SameEntries second first hash where
  blocks := same.blocks.symm
  heights := same.heights.symm
  globState := same.globState.symm
  txBlockRef := same.txBlockRef.symm

theorem Delivering.mem_of_checks
    (delivering : Delivering crypto blocks start ⟨node, task :: rest, lastState⟩)
    {each : ProposerBlock} (checks : Checks crypto node task each) : each ∈ blocks := by
  have handles : task.Handles blocks := delivering.handles task List.mem_cons_self
  cases checks with
  | received _ _ _ _ => exact handles
  | orphan _ => exact handles

/-- A known block is only accepted again as it is. -/
theorem Delivering.noRewrite (deliverable : Deliverable crypto blocks)
    (delivering : Delivering crypto blocks start ⟨node, task :: rest, lastState⟩) :
    NoRewrite crypto ⟨node, task :: rest, lastState⟩ .work := by
  refine ⟨fun each checked stored found => ?_, by simp [State.minedHeader]⟩
  have checks : Checks crypto node task each := checks_iff.mpr checked
  have member := delivering.mem_of_checks checks
  have sameHash := delivering.formed.node.chain.stored _ stored found
  rcases delivering.entered.tree _ stored found with genesis | inSet
  · have ownGenesis : each.hash crypto = genesisHash crypto := by
      rw [← sameHash, genesis, genesisHash]
    cases checks with
    | received _ unknown _ _ =>
        rw [ownGenesis] at unknown
        exact absurd delivering.formed.node.chain.genesis unknown
    | orphan _ =>
        exact absurd ownGenesis (delivering.notGenesis.released each List.mem_cons_self)
  · exact deliverable.determined stored inSet each member sameHash

theorem Delivering.handles_delivers
    (delivering : Delivering crypto blocks start ⟨node, task :: rest, lastState⟩)
    {after : Node} {todo : List Task} (delivers : Delivers crypto node task after todo) :
    ∀ next ∈ todo, next.Handles blocks := by
  intro next member
  cases delivers with
  | known _ _ => cases member
  | buffer _ _ => cases member
  | nothing _ _ => cases member
  | accept _ each _ _ _ =>
      rw [List.mem_singleton] at member
      subst member
      trivial
  | release block vec waiting =>
      obtain ⟨each, inBucket, rfl⟩ := List.mem_map.mp member
      exact delivering.entered.pending.buffered _ vec waiting each inBucket

theorem Delivers.txBlockPool {after : Node} {todo : List Task}
    (delivers : Delivers crypto node task after todo) :
    after.txBlockPool = node.txBlockPool := by
  cases delivers with
  | known _ _ | nothing _ _ | release _ _ _ => rfl
  | buffer each _ => rw [bufferOrphan_eq]
  | accept _ _ _ _ applied =>
      obtain ⟨_, _, _, accepts⟩ := accepts_of_apply applied
      exact accepts.txBlockPool

theorem Delivers.longest {after : Node} {todo : List Task}
    (delivers : Delivers crypto node task after todo) (formed : node.WellFormed crypto)
    (once : WriteOnce node after) (longest : node.blockchain.Longest) :
    after.blockchain.Longest := by
  cases delivers with
  | known _ _ | nothing _ _ | release _ _ _ => exact longest
  | buffer each _ =>
      rw [bufferOrphan_eq]
      exact longest
  | accept _ _ _ _ applied =>
      obtain ⟨_, _, _, accepts⟩ := accepts_of_apply applied
      apply longest.insert accepts.inserted
      intro hash member
      exact (once hash ((formed.chain.heights hash).mp member)).heights

theorem Delivering.step (deliverable : Deliverable crypto blocks)
    (delivering : Delivering crypto blocks start ⟨node, task :: rest, lastState⟩)
    {progress : Progress} (ran : runTask crypto node task = .ok progress)
    (delivers : Delivers crypto node task progress.node progress.todo) :
    Delivering crypto blocks start ⟨progress.node, progress.todo ++ rest, lastState⟩ := by
  have stepped := step_of_runTask ran rest lastState
  have original := (step_of_stepAfterIco stepped).1
  have written := delivering.settled.step delivering.formed delivering.published
    delivering.notGenesis (delivering.noRewrite deliverable) stepped
  have handles : task.Handles blocks := delivering.handles task List.mem_cons_self
  have receives : Receives (· ∈ blocks) (fun _ => True) crypto
      ⟨node, task :: rest, lastState⟩ .work := by
    refine ⟨fun each taken => ?_, fun _ _ => trivial⟩
    cases task with
    | proposerBlock block =>
        simp only [State.received, Option.mem_def, Option.ite_none_right_eq_some,
          Option.some.injEq] at taken
        obtain ⟨-, rfl⟩ := taken
        exact handles
    | addr _ | ico _ _ | announcedTransaction _ | requestedTransaction _ | transaction _ _
    | announcedTransactionBlock _ | requestedTransactionBlock _ | transactionBlock _
    | announcedProposerBlock _ | requestedProposerBlock _ | newParent _ | orphan _ =>
        cases taken
  have mines : Mines (· ∈ blocks) (fun _ => True) crypto
      ⟨node, task :: rest, lastState⟩ .work := by
    refine ⟨fun _ _ _ built _ _ => ?_, fun _ _ _ _ _ _ _ => trivial⟩
    cases built
  exact
    { formed := (delivering.formed.step original).1
      published := delivering.published.mono (delivering.formed.publishes original)
      notGenesis := delivering.notGenesis.step delivering.formed original
      settled := written.2
      entered := delivering.entered.step delivering.formed receives mines original
      longest := delivers.longest delivering.formed.node written.1 delivering.longest
      genesis := delivering.genesis.trans (written.1 _ delivering.formed.node.chain.genesis)
      pool := delivers.txBlockPool.trans delivering.pool
      handles := by
        intro next member
        rcases List.mem_append.mp member with new | old
        · exact delivering.handles_delivers delivers next new
        · exact delivering.handles next (List.mem_cons_of_mem _ old) }

end Keeps

/-! ## Where the delivered blocks are -/

/-- The block waits in the buffer under the hash of its parent. -/
def Node.Waits (node : Node) (block : ProposerBlock) : Prop :=
  ∃ bucket, node.orphanHandler.lookup block.header.proposerParent = some bucket ∧
    block ∈ bucket

/-- Every block delivered so far is in the tree, in the buffer or among the tasks
left, no bucket is empty, and a bucket whose parent is in the tree is about to be
released. -/
structure NothingLost (crypto : Crypto) (delivered : List ProposerBlock) (node : Node)
    (todo : List Task) : Prop where
  located : ∀ block ∈ delivered, block.hash crypto ∈ node.blockchain.blocks ∨
    node.Waits block ∨ .orphan block ∈ todo ∨ .proposerBlock block ∈ todo
  nonempty : ∀ parent, node.orphanHandler.lookup parent ≠ some []
  awaited : ∀ parent ∈ node.orphanHandler, parent ∈ node.blockchain.blocks →
    ∃ block, .newParent block ∈ todo ∧ block.hash crypto = parent

section Accounting

variable {node after : Node} {task : Task} {rest todo : List Task}
variable {delivered : List ProposerBlock} {block each : ProposerBlock}

theorem waits_bufferOrphan (waits : node.Waits block ∨ block = each) :
    (bufferOrphan node each).Waits block := by
  rw [Node.Waits, orphanHandler_bufferOrphan, HashMap.lookup_insert_ite]
  split
  · next same =>
      refine ⟨_, rfl, List.mem_append.mpr ?_⟩
      rcases waits with ⟨bucket, found, member⟩ | rfl
      · left
        rw [← same, found]
        exact member
      · exact .inr (by simp)
  · next other =>
      rcases waits with waits | rfl
      · exact waits
      · exact absurd rfl other

/-- What an acceptance leaves is accounted for: the buckets of the new block are
about to be released. -/
private theorem NothingLost.accept
    (nothingLost : NothingLost crypto delivered node (task :: rest))
    (checks : Checks crypto node task each)
    (applied : applyProposerBlock crypto node each = .ok after) :
    NothingLost crypto delivered after ([.newParent each] ++ rest) := by
  obtain ⟨_, _, _, accepts⟩ := accepts_of_apply applied
  have waits (block : ProposerBlock) : after.Waits block ↔ node.Waits block := by
    rw [Node.Waits, Node.Waits, accepts.orphanHandler]
  have notNewParent (block : ProposerBlock) : Task.newParent block ≠ task := by
    cases checks <;> simp
  constructor
  · intro block member
    rw [waits]
    rcases nothingLost.located block member with known | waiting | orphan | proposed
    · exact .inl (accepts.grows _ known)
    · exact .inr (.inl waiting)
    · rcases List.mem_cons.mp orphan with rfl | later
      · cases checks
        exact .inl accepts.hash_mem
      · exact .inr (.inr (.inl (by simp [later])))
    · rcases List.mem_cons.mp proposed with rfl | later
      · cases checks
        exact .inl accepts.hash_mem
      · exact .inr (.inr (.inr (by simp [later])))
  · rw [accepts.orphanHandler]
    exact nothingLost.nonempty
  · intro parent waiting known
    rw [accepts.orphanHandler] at waiting
    rw [accepts.blocks, Finmap.mem_insert] at known
    rcases known with new | known
    · exact ⟨each, by simp, new.symm⟩
    · obtain ⟨block, member, same⟩ := nothingLost.awaited parent waiting known
      rcases List.mem_cons.mp member with own | later
      · exact absurd own (notNewParent block)
      · exact ⟨block, by simp [later], same⟩

/-- What a release leaves is accounted for: the whole bucket is among the tasks. -/
private theorem NothingLost.release {vec : List ProposerBlock}
    (nothingLost : NothingLost crypto delivered node (.newParent block :: rest))
    (waiting : node.orphanHandler.lookup (block.hash crypto) = some vec) :
    NothingLost crypto delivered
      { node with orphanHandler := node.orphanHandler.erase (block.hash crypto) }
      (vec.map .orphan ++ rest) := by
  constructor
  · intro other member
    rcases nothingLost.located other member with
      known | ⟨bucket, found, inBucket⟩ | orphan | proposed
    · exact .inl known
    · right
      by_cases released : other.header.proposerParent = block.hash crypto
      · rw [released, waiting, Option.some.injEq] at found
        subst found
        exact .inr (.inl (by simp [inBucket]))
      · left
        refine ⟨bucket, ?_, inBucket⟩
        rw [HashMap.lookup_erase_ite, if_neg released, found]
    · have later : .orphan other ∈ rest := by simpa using orphan
      exact .inr (.inr (.inl (List.mem_append_right _ later)))
    · have later : .proposerBlock other ∈ rest := by simpa using proposed
      exact .inr (.inr (.inr (List.mem_append_right _ later)))
  · intro parent
    rw [HashMap.lookup_erase_ite]
    split
    · simp
    · exact nothingLost.nonempty parent
  · intro parent stays known
    obtain ⟨other, stays⟩ := Finmap.mem_erase.mp stays
    obtain ⟨waiter, member, same⟩ := nothingLost.awaited parent stays known
    rcases List.mem_cons.mp member with own | later
    · cases own
      exact absurd same.symm other
    · exact ⟨waiter, by simp [later], same⟩

/-- One task keeps every delivered block accounted for. -/
theorem NothingLost.step (nothingLost : NothingLost crypto delivered node (task :: rest))
    (delivers : Delivers crypto node task after todo) :
    NothingLost crypto delivered after (todo ++ rest) := by
  cases delivers with
  | accept _ each _ checks applied => exact nothingLost.accept checks applied
  | release block vec waiting => exact nothingLost.release waiting
  | nothing block absent =>
      refine ⟨fun other member => ?_, nothingLost.nonempty, fun parent waiting known => ?_⟩
      · simpa using nothingLost.located other member
      · obtain ⟨waiter, member, same⟩ := nothingLost.awaited parent waiting known
        rcases List.mem_cons.mp member with own | later
        · cases own
          rw [same] at absent
          exact absurd waiting absent
        · exact ⟨waiter, later, same⟩
  | known each known =>
      refine ⟨fun block member => ?_, nothingLost.nonempty, fun parent waiting inTree => ?_⟩
      · rcases nothingLost.located block member with inTree | waits | orphan | proposed
        · exact .inl inTree
        · exact .inr (.inl waits)
        · exact .inr (.inr (.inl (by simpa using orphan)))
        · rcases List.mem_cons.mp proposed with own | later
          · cases own
            exact .inl known
          · exact .inr (.inr (.inr later))
      · simpa using nothingLost.awaited parent waiting inTree
  | buffer each parentMissing =>
      have sameTree : (bufferOrphan node each).blockchain = node.blockchain := by
        rw [bufferOrphan_eq]
      constructor
      · intro block member
        rw [sameTree]
        rcases nothingLost.located block member with inTree | waits | orphan | proposed
        · exact .inl inTree
        · exact .inr (.inl (waits_bufferOrphan (.inl waits)))
        · exact .inr (.inr (.inl (by simpa using orphan)))
        · rcases List.mem_cons.mp proposed with own | later
          · cases own
            exact .inr (.inl (waits_bufferOrphan (.inr rfl)))
          · exact .inr (.inr (.inr later))
      · intro parent
        rw [orphanHandler_bufferOrphan, HashMap.lookup_insert_ite]
        split
        · simp
        · exact nothingLost.nonempty parent
      · intro parent waiting inTree
        rw [sameTree] at inTree
        rw [orphanHandler_bufferOrphan, Finmap.mem_insert] at waiting
        rcases waiting with rfl | waiting
        · exact absurd inTree parentMissing
        · simpa using nothingLost.awaited parent waiting inTree

end Accounting

/-! ## Serving all messages -/

/-- A node to which the blocks are delivered: the offering has been made, only
genesis is in the tree, nothing waits and the references are in the pool. -/
structure Receiver (crypto : Crypto) (initialLedger : Ledger) (blocks : Finset ProposerBlock)
    (state : State) : Prop where
  afterIco : AfterIco crypto initialLedger state
  orphanHandler : state.node.orphanHandler = ∅
  ready : PoolReady crypto blocks state.node.txBlockPool

/-- The messages hold blocks of the set, and each of them at least once. -/
structure Covers (blocks : Finset ProposerBlock) (batches : List (List ProposerBlock)) :
    Prop where
  only : ∀ batch ∈ batches, ∀ block ∈ batch, block ∈ blocks
  every : ∀ block ∈ blocks, ∃ batch ∈ batches, block ∈ batch

section Serve

variable {start node : Node} {delivered : List ProposerBlock} {lastState : H256}

theorem Receiver.delivering {initialLedger : Ledger} {state : State}
    (receiver : Receiver crypto initialLedger blocks state) (lastState : H256) :
    Delivering crypto blocks state.node ⟨state.node, [], lastState⟩ ∧
      NothingLost crypto [] state.node [] := by
  have afterIco := receiver.afterIco
  have nothingWaits (proposer : ProposerBlock → Prop) :
      Pending proposer ⟨state.node, [], lastState⟩ :=
    ⟨by simp [receiver.orphanHandler], by simp⟩
  have tree : ∀ hash block, state.node.blockchain.blocks.lookup hash = some block →
      block = genesisBlock crypto ∨ block ∈ blocks := by
    intro hash block found
    rw [afterIco.chain, Blockchain.new, HashMap.lookup_insert_ite] at found
    split at found
    · cases found
      exact .inl rfl
    · simp at found
  constructor
  · exact
      { formed := ⟨afterIco.wellFormed.node, by simp⟩
        published := afterIco.published
        notGenesis := nothingWaits _
        settled := afterIco.settled
        entered := ⟨nothingWaits _, tree, fun _ _ _ => trivial⟩
        longest := by
          change state.node.blockchain.Longest
          rw [afterIco.chain]
          exact .new
        genesis := .refl state.node _
        pool := rfl
        handles := by simp }
  · constructor
    · simp
    · simp [receiver.orphanHandler]
    · simp [receiver.orphanHandler, Finmap.notMem_empty]

/-- A message is served to its end, and its blocks are accounted for. -/
theorem Delivering.message (deliverable : Deliverable crypto blocks)
    (ready : PoolReady crypto blocks start.txBlockPool)
    (delivering : Delivering crypto blocks start ⟨node, [], lastState⟩)
    (nothingLost : NothingLost crypto delivered node []) (batch : List ProposerBlock)
    (only : ∀ block ∈ batch, block ∈ blocks) :
    (workerLoop crypto node (.proposerBlocks batch)).panic = none ∧
      Delivering crypto blocks start
        ⟨(workerLoop crypto node (.proposerBlocks batch)).node, [], lastState⟩ ∧
      NothingLost crypto (delivered ++ batch)
        (workerLoop crypto node (.proposerBlocks batch)).node [] := by
  apply runTasks_invariant (fun node todo =>
    Delivering crypto blocks start ⟨node, todo, lastState⟩ ∧
      NothingLost crypto (delivered ++ batch) node todo)
  · intro node task rest ⟨delivering, nothingLost⟩
    have handles : task.Handles blocks := delivering.handles task List.mem_cons_self
    have grounded : task.Grounded crypto node := delivering.formed.todo task List.mem_cons_self
    obtain ⟨progress, ran, delivers⟩ := delivers_of_handles deliverable.work
      (delivering.pool ▸ ready) delivering.formed.node delivering.published handles grounded
    exact ⟨progress, ran, delivering.step deliverable ran delivers, nothingLost.step delivers⟩
  · have formed := delivering.formed.node
    constructor
    · exact
        { delivering with
          formed := ⟨formed, Message.grounded_tasks formed (.proposerBlocks batch)⟩
          notGenesis := ⟨delivering.notGenesis.buffered, by simp [Message.tasks]⟩
          entered := ⟨⟨delivering.entered.pending.buffered, by simp [Message.tasks]⟩,
            delivering.entered.tree, delivering.entered.pool⟩
          handles := by
            intro task member
            obtain ⟨block, inBatch, rfl⟩ := List.mem_map.mp member
            exact only block inBatch }
    · constructor
      · intro block member
        rcases List.mem_append.mp member with earlier | inBatch
        · rcases nothingLost.located block earlier with inTree | waits | impossible | impossible
          · exact .inl inTree
          · exact .inr (.inl waits)
          · cases impossible
          · cases impossible
        · exact .inr (.inr (.inr (List.mem_map_of_mem inBatch)))
      · exact nothingLost.nonempty
      · intro parent waiting inTree
        obtain ⟨_, impossible, -⟩ := nothingLost.awaited parent waiting inTree
        cases impossible

/-- All messages are served to their end, and their blocks are accounted for. -/
theorem Delivering.messages (deliverable : Deliverable crypto blocks)
    (ready : PoolReady crypto blocks start.txBlockPool)
    (delivering : Delivering crypto blocks start ⟨node, [], lastState⟩)
    (nothingLost : NothingLost crypto delivered node []) (batches : List (List ProposerBlock))
    (only : ∀ batch ∈ batches, ∀ block ∈ batch, block ∈ blocks) :
    (serveMessages crypto node (batches.map .proposerBlocks)).panic = none ∧
      Delivering crypto blocks start
        ⟨(serveMessages crypto node (batches.map .proposerBlocks)).node, [], lastState⟩ ∧
      NothingLost crypto (delivered ++ batches.flatten)
        (serveMessages crypto node (batches.map .proposerBlocks)).node [] := by
  induction batches generalizing node delivered with
  | nil =>
      rw [List.flatten_nil, List.append_nil]
      exact ⟨rfl, delivering, nothingLost⟩
  | cons batch batches ih =>
      obtain ⟨completed, delivering, nothingLost⟩ :=
        delivering.message deliverable ready nothingLost batch (only batch List.mem_cons_self)
      have rest := ih delivering nothingLost
        fun other member => only other (List.mem_cons_of_mem _ member)
      rw [List.map_cons, serveMessages, completed, List.flatten_cons, ← List.append_assoc]
      exact rest

end Serve

/-! ## The end of a delivery -/

/-- All blocks have been delivered and nothing is left to do. -/
structure Finished (crypto : Crypto) (blocks : Finset ProposerBlock) (start node : Node) :
    Prop where
  delivering : Delivering crypto blocks start ⟨node, [], H256.zero⟩
  tree : ∀ block ∈ blocks, block.hash crypto ∈ node.blockchain.blocks
  orphanHandler : node.orphanHandler = ∅

section Finished

variable {start node : Node} {hash : H256} {block : ProposerBlock}

/-- When nothing is left to do, a block of the set whose parent is in the tree is
in the tree: it cannot wait for a parent that is there. -/
theorem rooted_mem {delivered : List ProposerBlock}
    (delivering : Delivering crypto blocks start ⟨node, [], H256.zero⟩)
    (nothingLost : NothingLost crypto delivered node [])
    (every : ∀ block ∈ blocks, block ∈ delivered) (rooted : Rooted crypto blocks hash) :
    hash ∈ node.blockchain.blocks := by
  induction rooted with
  | genesis => exact delivering.formed.node.chain.genesis
  | child block member _ parent =>
      rcases nothingLost.located block (every block member) with
        inTree | ⟨bucket, found, -⟩ | impossible | impossible
      · exact inTree
      · obtain ⟨_, impossible, -⟩ :=
          nothingLost.awaited _ (Finmap.mem_of_lookup_eq_some found) parent
        cases impossible
      · cases impossible
      · cases impossible

theorem finished_of_messages {initialLedger : Ledger} {state : State}
    (deliverable : Deliverable crypto blocks)
    (receiver : Receiver crypto initialLedger blocks state) {batches : List (List ProposerBlock)}
    (covers : Covers blocks batches) :
    (serveMessages crypto state.node (batches.map .proposerBlocks)).panic = none ∧
      Finished crypto blocks state.node
        (serveMessages crypto state.node (batches.map .proposerBlocks)).node := by
  obtain ⟨delivering, nothingLost⟩ := receiver.delivering H256.zero
  obtain ⟨completed, delivering, nothingLost⟩ :=
    delivering.messages deliverable receiver.ready nothingLost batches covers.only
  rw [List.nil_append] at nothingLost
  have every : ∀ block ∈ blocks, block ∈ batches.flatten := by
    intro block member
    obtain ⟨batch, inBatches, inBatch⟩ := covers.every block member
    exact List.mem_flatten_of_mem inBatches inBatch
  have inTree (hash : H256) (rooted : Rooted crypto blocks hash) :=
    rooted_mem delivering nothingLost every rooted
  refine ⟨completed, delivering, fun block member => ?_, ?_⟩
  · exact inTree _ (.child block member (deliverable.rooted block member))
  · -- a bucket would hold a block of the set, whose parent is in the tree
    apply Finmap.ext_lookup
    intro parent
    rw [Finmap.lookup_empty, Finmap.lookup_eq_none]
    intro waiting
    obtain ⟨bucket, found⟩ := HashMap.lookup_of_mem waiting
    cases bucket with
    | nil => exact nothingLost.nonempty parent found
    | cons block bucket =>
        have member := delivering.entered.pending.buffered parent _ found block List.mem_cons_self
        have same := delivering.formed.node.waiting parent _ found block List.mem_cons_self
        have known := inTree _ (deliverable.rooted block member)
        rw [same] at known
        obtain ⟨_, impossible, -⟩ := nothingLost.awaited parent waiting known
        cases impossible

theorem Finished.mem_iff (deliverable : Deliverable crypto blocks)
    (finished : Finished crypto blocks start node) :
    hash ∈ node.blockchain.blocks ↔ Rooted crypto blocks hash := by
  constructor
  · intro member
    obtain ⟨block, found⟩ := HashMap.lookup_of_mem member
    rw [← finished.delivering.formed.node.chain.stored hash block found]
    rcases finished.delivering.entered.tree hash block found with rfl | inSet
    · exact .genesis
    · exact .child block inSet (deliverable.rooted block inSet)
  · intro rooted
    cases rooted with
    | genesis => exact finished.delivering.formed.node.chain.genesis
    | child block member _ => exact finished.tree block member

theorem Finished.derived (deliverable : Deliverable crypto blocks)
    (finished : Finished crypto blocks start node) (member : block ∈ blocks)
    (notGenesis : block.hash crypto ≠ genesisHash crypto) :
    node.blockchain.blocks.lookup (block.hash crypto) = some block ∧
      Derived crypto node block := by
  obtain ⟨stored, found⟩ := HashMap.lookup_of_mem (finished.tree block member)
  have sameHash := finished.delivering.formed.node.chain.stored _ stored found
  have other : stored ≠ genesisBlock crypto := by
    rintro rfl
    exact notGenesis sameHash.symm
  have inSet := (finished.delivering.entered.tree _ stored found).resolve_left other
  have same := deliverable.determined stored inSet block member sameHash
  rw [same] at found other
  exact ⟨found, (finished.delivering.settled _ block found).resolve_left other⟩

end Finished

section Compare

variable {firstStart secondStart first second : Node} {hash : H256} {block : ProposerBlock}

/-- Derived entries agree when those of the parent and the references do. -/
theorem sameEntries_of_derived (firstDerived : Derived crypto first block)
    (secondDerived : Derived crypto second block)
    (parent : SameEntries first second block.header.proposerParent)
    (references : referenced second.txBlockPool block.content.proposerContent =
      referenced first.txBlockPool block.content.proposerContent)
    (stored : second.blockchain.blocks.lookup (block.hash crypto) =
      first.blockchain.blocks.lookup (block.hash crypto)) :
    SameEntries first second (block.hash crypto) := by
  obtain ⟨firstHeight, firstFound, firstOwn⟩ := firstDerived.height
  obtain ⟨secondHeight, secondFound, secondOwn⟩ := secondDerived.height
  obtain ⟨firstRef, firstRefFound, firstOwnRef⟩ := firstDerived.references
  obtain ⟨secondRef, secondRefFound, secondOwnRef⟩ := secondDerived.references
  obtain ⟨firstTxs, firstParent, firstLedger, firstCollected, firstParentFound, firstApplied,
    firstOwnLedger⟩ := firstDerived.ledger
  obtain ⟨secondTxs, secondParent, secondLedger, secondCollected, secondParentFound,
    secondApplied, secondOwnLedger⟩ := secondDerived.ledger
  rw [parent.heights, firstFound, Option.some.injEq] at secondFound
  rw [parent.txBlockRef, firstRefFound, Option.some.injEq] at secondRefFound
  rw [parent.globState, firstParentFound, Option.some.injEq] at secondParentFound
  rw [references, firstCollected, Option.some.injEq] at secondCollected
  subst secondFound secondRefFound secondParentFound secondCollected
  rw [firstApplied, Option.some.injEq] at secondApplied
  subst secondApplied
  constructor
  · exact stored
  · rw [secondOwn, firstOwn]
  · rw [secondOwnLedger, firstOwnLedger]
  · rw [secondOwnRef, firstOwnRef]

/-- Two finished deliveries of one set have the same entries, by induction along
the path from genesis. -/
theorem sameEntries_of_finished (deliverable : Deliverable crypto blocks)
    (starts : SameEntries firstStart secondStart (genesisHash crypto))
    (agree : ∀ block ∈ blocks, ∀ ref ∈ block.content.proposerContent,
      firstStart.txBlockPool.lookup ref = secondStart.txBlockPool.lookup ref)
    (firstFinished : Finished crypto blocks firstStart first)
    (secondFinished : Finished crypto blocks secondStart second)
    (rooted : Rooted crypto blocks hash) : SameEntries first second hash := by
  have genesis : SameEntries first second (genesisHash crypto) :=
    firstFinished.delivering.genesis.symm.trans (starts.trans secondFinished.delivering.genesis)
  induction rooted with
  | genesis => exact genesis
  | child block member _ parent =>
      by_cases isGenesis : block.hash crypto = genesisHash crypto
      · rw [isGenesis]
        exact genesis
      obtain ⟨firstStored, firstDerived⟩ := firstFinished.derived deliverable member isGenesis
      obtain ⟨secondStored, secondDerived⟩ := secondFinished.derived deliverable member isGenesis
      apply sameEntries_of_derived firstDerived secondDerived parent
      · apply referenced_congr
        intro ref inContent
        have firstPool : first.txBlockPool = firstStart.txBlockPool :=
          firstFinished.delivering.pool
        have secondPool : second.txBlockPool = secondStart.txBlockPool :=
          secondFinished.delivering.pool
        rw [firstPool, secondPool, agree block member ref inContent]
      · rw [firstStored, secondStored]

/-- Right after the same offering two nodes have the same entries of genesis. -/
theorem AfterIco.sameGenesis {initialLedger : Ledger} {first second : State}
    (afterFirst : AfterIco crypto initialLedger first)
    (afterSecond : AfterIco crypto initialLedger second) :
    SameEntries first.node second.node (genesisHash crypto) where
  blocks := by rw [afterFirst.chain, afterSecond.chain]
  heights := by rw [afterFirst.chain, afterSecond.chain]
  globState := by rw [afterFirst.globState, afterSecond.globState]
  txBlockRef := by rw [afterFirst.txBlockRef, afterSecond.txBlockRef]

/-- The order of deliveries does not matter. -/
theorem same_end_of_deliveries {initialLedger : Ledger} {first second : State}
    (deliverable : Deliverable crypto blocks)
    (firstReceiver : Receiver crypto initialLedger blocks first)
    (secondReceiver : Receiver crypto initialLedger blocks second)
    (agree : ∀ block ∈ blocks, ∀ ref ∈ block.content.proposerContent,
      first.node.txBlockPool.lookup ref = second.node.txBlockPool.lookup ref)
    {firstBatches secondBatches : List (List ProposerBlock)}
    (firstCovers : Covers blocks firstBatches) (secondCovers : Covers blocks secondBatches) :
    let firstEnd := serveMessages crypto first.node (firstBatches.map .proposerBlocks)
    let secondEnd := serveMessages crypto second.node (secondBatches.map .proposerBlocks)
    (firstEnd.panic = none ∧ secondEnd.panic = none) ∧
      (∀ block ∈ blocks, block.hash crypto ∈ firstEnd.node.blockchain.blocks) ∧
      firstEnd.node.blockchain.blocks = secondEnd.node.blockchain.blocks ∧
      firstEnd.node.blockchain.heights = secondEnd.node.blockchain.heights ∧
      firstEnd.node.blockchain.longest = secondEnd.node.blockchain.longest ∧
      (∀ hash ∈ firstEnd.node.blockchain.blocks,
        firstEnd.node.globState.lookup hash = secondEnd.node.globState.lookup hash ∧
        firstEnd.node.txBlockRef.lookup hash = secondEnd.node.txBlockRef.lookup hash) ∧
      firstEnd.node.orphanHandler = ∅ ∧ secondEnd.node.orphanHandler = ∅ := by
  intro firstEnd secondEnd
  obtain ⟨firstCompleted, firstFinished⟩ :=
    finished_of_messages deliverable firstReceiver firstCovers
  obtain ⟨secondCompleted, secondFinished⟩ :=
    finished_of_messages deliverable secondReceiver secondCovers
  have starts := firstReceiver.afterIco.sameGenesis secondReceiver.afterIco
  have same (hash : H256) (member : hash ∈ firstEnd.node.blockchain.blocks) :
      SameEntries firstEnd.node secondEnd.node hash :=
    sameEntries_of_finished deliverable starts agree firstFinished secondFinished
      ((firstFinished.mem_iff deliverable).mp member)
  have members (hash : H256) : hash ∈ firstEnd.node.blockchain.blocks ↔
      hash ∈ secondEnd.node.blockchain.blocks :=
    (firstFinished.mem_iff deliverable).trans (secondFinished.mem_iff deliverable).symm
  have firstFormed := firstFinished.delivering.formed.node.chain
  have secondFormed := secondFinished.delivering.formed.node.chain
  have heights : firstEnd.node.blockchain.heights = secondEnd.node.blockchain.heights := by
    apply HashMap.ext_of_mem
    · intro hash
      exact ((firstFormed.heights hash).trans (members hash)).trans (secondFormed.heights hash).symm
    · intro hash member
      exact (same hash ((firstFormed.heights hash).mp member)).heights.symm
  refine ⟨⟨firstCompleted, secondCompleted⟩, firstFinished.tree, ?_, heights, ?_, ?_,
    firstFinished.orphanHandler, secondFinished.orphanHandler⟩
  · exact HashMap.ext_of_mem members fun hash member => (same hash member).blocks.symm
  · exact firstFinished.delivering.longest.eq_of_heights secondFinished.delivering.longest heights
  · intro hash member
    exact ⟨(same hash member).globState.symm, (same hash member).txBlockRef.symm⟩

end Compare

/-! ## Two blocks in two orders -/

theorem afterIco_paymentRun :
    AfterIco Crypto.sample (icoState [.sample]) (paymentRun.states 3) :=
  ⟨⟨paymentRun, rfl⟩, by decide +kernel, by decide +kernel, by decide +kernel⟩

/-- A block and its child, which refers to the payment. -/
def family : Finset ProposerBlock :=
  {emptyProposal, childProposal [sampleHash 0x2001]}

theorem rooted_family : ∀ block ∈ family,
    Rooted Crypto.sample family block.header.proposerParent := by
  have parent : Rooted Crypto.sample family (sampleHash 2) :=
    .child emptyProposal (by decide +kernel) .genesis
  have every : ∀ block ∈ family, block.header.proposerParent = genesisHash Crypto.sample ∨
      block.header.proposerParent = sampleHash 2 := by
    decide +kernel
  intro block member
  rcases every block member with same | same
  · rw [same]
    exact .genesis
  · rw [same]
    exact parent

/-- The parent first, or the child twice and the parent last. -/
theorem same_end_paymentRun :
    (serveMessages Crypto.sample (paymentRun.states 3).node
      [.proposerBlocks [emptyProposal],
        .proposerBlocks [childProposal [sampleHash 0x2001]]]).node.blockchain.blocks =
    (serveMessages Crypto.sample (paymentRun.states 3).node
      [.proposerBlocks [childProposal [sampleHash 0x2001], childProposal [sampleHash 0x2001]],
        .proposerBlocks [emptyProposal]]).node.blockchain.blocks := by
  have deliverable : Deliverable Crypto.sample family :=
    ⟨by decide +kernel, rooted_family, by decide +kernel⟩
  have only : ∀ block ∈ family, ∀ ref ∈ block.content.proposerContent,
      ref = sampleHash 0x2001 := by
    decide +kernel
  have ready : PoolReady Crypto.sample family (paymentRun.states 3).node.txBlockPool := by
    intro block member ref inContent
    rw [only block member ref inContent]
    exact ⟨paymentBlock .sample 1000, by decide +kernel, by decide +kernel⟩
  have receiver : Receiver Crypto.sample (icoState [.sample]) family (paymentRun.states 3) :=
    ⟨afterIco_paymentRun, by decide +kernel, ready⟩
  have parentFirst : Covers family [[emptyProposal], [childProposal [sampleHash 0x2001]]] :=
    ⟨by decide +kernel, by decide +kernel⟩
  have childFirst : Covers family
      [[childProposal [sampleHash 0x2001], childProposal [sampleHash 0x2001]], [emptyProposal]] :=
    ⟨by decide +kernel, by decide +kernel⟩
  obtain ⟨-, -, same, -⟩ := same_end_of_deliveries deliverable receiver receiver
    (fun _ _ _ _ => rfl) parentFirst childFirst
  exact same

/-- A correctly signed transaction with an output but no index for its input. -/
def unindexedPayment : SignedTransaction :=
  let transaction := { (payment .sample 1000).transaction with inputIndex := [] }
  ⟨transaction, ⟨sign Crypto.sample transaction .sample, Crypto.sample.publicKey .sample⟩⟩

def unindexedBlock : TXBlock :=
  { paymentBlock .sample 1000 with content := ⟨[unindexedPayment]⟩ }

/-- A block on top of genesis that refers to it. -/
def unindexedProposal : ProposerBlock :=
  ⟨Header.sample 3 (genesisHash Crypto.sample), ⟨[sampleHash 0x2001]⟩⟩

def unindexedFamily : Finset ProposerBlock :=
  {emptyProposal, unindexedProposal}

def unindexedRun : Run (State.step Crypto.sample) (Initial Crypto.sample) :=
  Run.samplePool unindexedBlock (by decide +kernel)

/-- A missing index makes the worker panic, so what was delivered before it is
all that gets into the tree. -/
theorem order_matters_unindexedRun :
    let state := unindexedRun.states 3
    let before := serveMessages Crypto.sample state.node
      [.proposerBlocks [emptyProposal], .proposerBlocks [unindexedProposal]]
    let after := serveMessages Crypto.sample state.node
      [.proposerBlocks [unindexedProposal], .proposerBlocks [emptyProposal]]
    (AfterIco Crypto.sample (icoState [.sample]) state ∧ state.node.orphanHandler = ∅) ∧
      Deliverable Crypto.sample unindexedFamily ∧
      (∀ block ∈ unindexedFamily, block.hash Crypto.sample ≠ genesisHash Crypto.sample ∧
        block.hash Crypto.sample ≠ fakeRoot Crypto.sample) ∧
      (∀ block ∈ unindexedFamily, ∀ ref ∈ block.content.proposerContent,
        state.node.txBlockPool.lookup ref = some unindexedBlock) ∧
      (∀ tx ∈ unindexedBlock.content.transactionContent, tx.verified Crypto.sample = true ∧
        tx.transaction.inputPrevious.length ≤ tx.transaction.outputValue.length ∧
        tx.transaction.inputPrevious.length ≤ tx.transaction.outputAddress.length) ∧
      Covers unindexedFamily [[emptyProposal], [unindexedProposal]] ∧
      Covers unindexedFamily [[unindexedProposal], [emptyProposal]] ∧
      (before.panic = some .vector ∧ after.panic = some .vector) ∧
      before.node.blockchain.blocks ≠ after.node.blockchain.blocks := by
  intro state before after
  have afterIco : AfterIco Crypto.sample (icoState [.sample]) state :=
    ⟨⟨unindexedRun, rfl⟩, by decide +kernel, by decide +kernel, by decide +kernel⟩
  have children : ∀ block ∈ unindexedFamily,
      block.header.proposerParent = genesisHash Crypto.sample := by
    decide +kernel
  have deliverable : Deliverable Crypto.sample unindexedFamily := by
    refine ⟨by decide +kernel, fun block member => ?_, by decide +kernel⟩
    rw [children block member]
    exact .genesis
  refine ⟨⟨afterIco, by decide +kernel⟩, deliverable, by decide +kernel, by decide +kernel,
    by decide +kernel, ⟨by decide +kernel, by decide +kernel⟩,
    ⟨by decide +kernel, by decide +kernel⟩, ?_, ?_⟩
  · decide +kernel
  · decide +kernel

end SimplifiedPrism
