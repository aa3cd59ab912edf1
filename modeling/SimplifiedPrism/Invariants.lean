import SimplifiedPrism.System

/-!
# What every reachable state satisfies

The block tree is well formed, the pools are keyed by hash, an orphan waits
under the hash of its parent, and every task left refers to blocks that are in
the tree.  The file ends with the states in which the initial coin offering has
just been made, from which the properties of accepted blocks start.
-/

namespace SimplifiedPrism

variable {crypto : Crypto}

structure Node.WellFormed (crypto : Crypto) (node : Node) : Prop where
  chain : node.blockchain.WellFormed crypto
  pooled : ∀ hash block, node.txBlockPool.lookup hash = some block → block.hash crypto = hash
  waiting : ∀ parent bucket, node.orphanHandler.lookup parent = some bucket →
    ∀ block ∈ bucket, block.header.proposerParent = parent
  indexed : PoolIndexed node.txPool

/-- The blocks that a task relies on are in the tree. -/
def Task.Grounded (crypto : Crypto) (node : Node) : Task → Prop
  | .transaction tip _ => tip ∈ node.blockchain.blocks
  | .newParent block => block.hash crypto ∈ node.blockchain.blocks
  | .orphan each => each.header.proposerParent ∈ node.blockchain.blocks
  | _ => True

/-- No block leaves the tree. -/
def Node.Grows (before after : Node) : Prop :=
  ∀ hash ∈ before.blockchain.blocks, hash ∈ after.blockchain.blocks

structure State.WellFormed (crypto : Crypto) (state : State) : Prop where
  node : state.node.WellFormed crypto
  todo : ∀ task ∈ state.todo, task.Grounded crypto state.node

/-- The blocks that the next task relies on are in the tree. -/
theorem State.WellFormed.grounded {state : State} {task : Task} {rest : List Task}
    (formed : state.WellFormed crypto) (next : state.todo = task :: rest) :
    task.Grounded crypto state.node := by
  apply formed.todo
  rw [next]
  exact List.mem_cons_self

theorem Task.Grounded.mono {before after : Node} {task : Task}
    (grounded : task.Grounded crypto before) (grows : before.Grows after) :
    task.Grounded crypto after := by
  cases task with
  | transaction tip each => exact grows _ grounded
  | newParent block => exact grows _ grounded
  | orphan each => exact grows _ grounded
  | addr _ | ico _ _ | announcedTransaction _ | requestedTransaction _
  | announcedTransactionBlock _ | requestedTransactionBlock _ | transactionBlock _
  | announcedProposerBlock _ | requestedProposerBlock _ | proposerBlock _ => trivial

theorem Checks.parent_mem {node : Node} {task : Task} {block : ProposerBlock}
    (checks : Checks crypto node task block) (grounded : task.Grounded crypto node) :
    block.header.proposerParent ∈ node.blockchain.blocks := by
  cases checks with
  | received _ _ _ parentKnown => exact parentKnown
  | orphan _ => exact grounded

/-! ## Acceptance -/

section Acceptance

variable {node after : Node} {block : ProposerBlock} {parentLedger ledger : Ledger}
variable {txs : List SignedTransaction}

theorem Accepts.blocks (accepts : Accepts crypto node block parentLedger txs ledger after) :
    after.blockchain.blocks = node.blockchain.blocks.insert (block.hash crypto) block := by
  obtain ⟨_, -, blocks, -⟩ := Blockchain.insert_ok accepts.inserted
  exact blocks

theorem Accepts.grows (accepts : Accepts crypto node block parentLedger txs ledger after) :
    node.Grows after := by
  intro hash member
  rw [accepts.blocks, Finmap.mem_insert]
  exact .inr member

theorem Accepts.hash_mem (accepts : Accepts crypto node block parentLedger txs ledger after) :
    block.hash crypto ∈ after.blockchain.blocks := by
  rw [accepts.blocks, Finmap.mem_insert]
  exact .inl rfl

theorem Node.WellFormed.accepts (formed : node.WellFormed crypto)
    (accepts : Accepts crypto node block parentLedger txs ledger after) :
    after.WellFormed crypto where
  chain := formed.chain.insert accepts.inserted
  pooled := by
    rw [accepts.txBlockPool]
    exact formed.pooled
  waiting := by
    rw [accepts.orphanHandler]
    exact formed.waiting
  indexed := fun hash tx pooled => formed.indexed hash tx (accepts.txPool hash tx pooled)

end Acceptance

/-! ## The other effects -/

theorem allM_eq_some_true {α : Type} {test : α → Option Bool} {list : List α} :
    list.allM test = some true ↔ ∀ element ∈ list, test element = some true := by
  induction list with
  | nil => simp
  | cons head list ih =>
      cases tested : test head with
      | none => simp [List.allM, tested]
      | some passed =>
          cases passed with
          | false => simp [List.allM, tested]
          | true => simpa [List.allM, tested] using ih

/-- An admitted transaction has an index for every input. -/
theorem indexed_of_inputsUnspent {currState : Ledger} {transaction : Transaction}
    (unspent : inputsUnspent currState transaction = some true) : transaction.Indexed := by
  cases count : transaction.inputPrevious.length with
  | zero =>
      rw [Transaction.Indexed, count]
      exact Nat.zero_le _
  | succ last =>
      have tested := allM_eq_some_true.mp unspent last (by simp [count])
      simp only [Option.bind_eq_bind, Option.bind_eq_some_iff, Option.pure_def] at tested
      obtain ⟨key, keyed, -⟩ := tested
      simp only [Transaction.lookupKey, Option.bind_eq_bind, Option.bind_eq_some_iff] at keyed
      obtain ⟨previous, -, indexed, found, -⟩ := keyed
      obtain ⟨inRange, -⟩ := List.getElem?_eq_some_iff.mp found
      rw [Transaction.Indexed, count]
      omega

theorem orphanHandler_bufferOrphan (node : Node) (each : ProposerBlock) :
    (bufferOrphan node each).orphanHandler =
      node.orphanHandler.insert each.header.proposerParent
        ((node.orphanHandler.lookup each.header.proposerParent).getD [] ++ [each]) := by
  rw [bufferOrphan]
  cases node.orphanHandler.lookup each.header.proposerParent with
  | none => rfl
  | some waiting => rfl

theorem bufferOrphan_eq (node : Node) (each : ProposerBlock) :
    bufferOrphan node each =
      { node with orphanHandler := (bufferOrphan node each).orphanHandler } := by
  rw [bufferOrphan]
  cases node.orphanHandler.lookup each.header.proposerParent with
  | none => rfl
  | some waiting => rfl

theorem mem_bufferOrphan {node : Node} {each : ProposerBlock} {parent : H256}
    {bucket : List ProposerBlock}
    (found : (bufferOrphan node each).orphanHandler.lookup parent = some bucket)
    {block : ProposerBlock} (member : block ∈ bucket) :
    (∃ earlier, node.orphanHandler.lookup parent = some earlier ∧ block ∈ earlier) ∨
      parent = each.header.proposerParent ∧ block = each := by
  rw [orphanHandler_bufferOrphan, HashMap.lookup_insert_ite] at found
  split at found
  · next same =>
      cases found
      rw [List.mem_append, List.mem_singleton] at member
      rcases member with earlier | rfl
      · cases stored : node.orphanHandler.lookup each.header.proposerParent with
        | none => simp [stored] at earlier
        | some waiting =>
            left
            refine ⟨waiting, by rw [same, stored], ?_⟩
            simpa [stored] using earlier
      · exact .inr ⟨same, rfl⟩
  · exact .inl ⟨bucket, found, member⟩

section Effects

variable {node after : Node} {task : Task} {todo : List Task} {hashed : Option Header}

/-- Running a task keeps the maps well formed and every block in the tree, and
grounds the tasks it leads to. -/
theorem Node.WellFormed.effect (formed : node.WellFormed crypto)
    (grounded : task.Grounded crypto node)
    (effect : Effect crypto node task after todo) :
    after.WellFormed crypto ∧ node.Grows after ∧ ∀ next ∈ todo, next.Grounded crypto after := by
  cases effect with
  | skip => exact ⟨formed, fun _ member => member, by simp⟩
  | addr each fresh => exact ⟨{ formed with }, fun _ member => member, by simp⟩
  | ico genesis icoState first => exact ⟨{ formed with }, fun _ member => member, by simp⟩
  | transaction tip each currState sums fresh verified tipState unspent owned summed covered =>
      refine ⟨{ formed with indexed := fun hash tx pooled => ?_ }, fun _ member => member, by simp⟩
      rw [HashMap.lookup_insert_ite] at pooled
      split at pooled
      · cases pooled
        exact indexed_of_inputsUnspent unspent
      · exact formed.indexed hash tx pooled
  | transactionBlock each unknown work notProposer =>
      refine ⟨{ formed with pooled := ?_, indexed := ?_ }, fun _ member => member, by simp⟩
      · intro hash block found
        rw [HashMap.lookup_insert_ite] at found
        split at found
        · next same =>
            cases found
            exact same.symm
        · exact formed.pooled hash block found
      · intro hash tx kept
        exact formed.indexed hash tx (lookup_of_removeTransactions kept)
  | buffer each unknown work parentMissing =>
      rw [bufferOrphan_eq]
      refine ⟨{ formed with waiting := ?_ }, fun _ member => member, by simp⟩
      intro parent bucket found block member
      rcases mem_bufferOrphan found member with ⟨earlier, stored, member⟩ | ⟨same, rfl⟩
      · exact formed.waiting parent earlier stored block member
      · exact same.symm
  | accept _ each _ checks signed applied =>
      obtain ⟨_, _, _, accepts⟩ := accepts_of_apply applied
      refine ⟨formed.accepts accepts, accepts.grows, ?_⟩
      intro next member
      rw [List.mem_singleton] at member
      subst member
      exact accepts.hash_mem
  | release block vec waiting =>
      refine ⟨{ formed with waiting := ?_ }, fun _ member => member, ?_⟩
      · intro parent bucket found
        rw [HashMap.lookup_erase_ite] at found
        split at found
        · cases found
        · exact formed.waiting parent bucket found
      · intro next member
        obtain ⟨orphan, inBucket, rfl⟩ := List.mem_map.mp member
        change orphan.header.proposerParent ∈ node.blockchain.blocks
        rw [formed.waiting _ vec waiting orphan inBucket]
        exact grounded

/-- A panicking task has written nothing, or only the reference list of a block
that reached the signature check. -/
theorem Failure.node_cases {panicked : Panicked} (formed : node.WellFormed crypto)
    (grounded : task.Grounded crypto node) (failure : Failure crypto node task panicked) :
    panicked.node = node ∨ ∃ each parentRef, Checks crypto node task each ∧
      node.txBlockRef.lookup each.header.proposerParent = some parentRef ∧
      panicked.node = { node with
        txBlockRef := node.txBlockRef.insert (each.hash crypto)
          (mergeRef parentRef each.content.proposerContent) } := by
  cases failure with
  | transaction _ _ _ _ => exact .inl rfl
  | signature _ _ _ _ _ => exact .inl rfl
  | apply _ each _ checks signed failed =>
      have heights := (formed.chain.heights _).mpr (checks.parent_mem grounded)
      rcases node_of_apply_error heights failed with unchanged | ⟨parentRef, found, written⟩
      · exact .inl unchanged
      · exact .inr ⟨each, parentRef, checks, found, written⟩

theorem Failure.onlyRefs {panicked : Panicked} (formed : node.WellFormed crypto)
    (grounded : task.Grounded crypto node) (failure : Failure crypto node task panicked) :
    panicked.node = { node with txBlockRef := panicked.node.txBlockRef } := by
  rcases failure.node_cases formed grounded with unchanged | ⟨_, _, _, _, written⟩
  · rw [unchanged]
  · rw [written]

theorem MinerFailure.onlyRefs (failure : MinerFailure crypto node hashed after) :
    after = { node with txBlockRef := after.txBlockRef } := by
  cases failure with
  | nothing => rfl
  | reference _ _ _ _ _ _ _ _ _ => rfl

theorem Node.WellFormed.mined (formed : node.WellFormed crypto)
    (mined : Mined crypto node hashed after) : after.WellFormed crypto ∧ node.Grows after := by
  cases mined with
  | nothing => exact ⟨formed, fun _ member => member⟩
  | proposer _ _ _ _ _ _ _ _ _ _ accepts => exact ⟨formed.accepts accepts, accepts.grows⟩
  | transaction header content _ txPool _ _ _ _ _ kept =>
      refine ⟨{ formed with pooled := ?_, indexed := ?_ }, fun _ member => member⟩
      · intro hash block found
        rw [HashMap.lookup_insert_ite] at found
        split at found
        · next same =>
            cases found
            exact same.symm
        · exact formed.pooled hash block found
      · intro hash tx pooled
        exact formed.indexed hash tx (kept hash tx pooled)

theorem Node.WellFormed.generated {ledger : Ledger} (formed : node.WellFormed crypto)
    (generated : Generated crypto node ledger after) : after.WellFormed crypto := by
  rw [generated.onlyPool]
  refine { formed with indexed := fun hash tx pooled => ?_ }
  rcases generated.made hash tx pooled with earlier | made
  · exact formed.indexed hash tx earlier
  · obtain ⟨_, _, _, _, -, spends, -⟩ := made.spendsTwice
    exact spends.wellShaped.indexed

end Effects

/-! ## Reachable states -/

theorem Message.grounded_tasks {node : Node} (formed : node.WellFormed crypto)
    (message : Message) : ∀ task ∈ message.tasks node, task.Grounded crypto node := by
  intro task member
  cases message with
  | ico _ _ =>
      rw [Message.tasks, List.mem_singleton] at member
      subst member
      trivial
  | transactions transactionVec =>
      obtain ⟨each, -, rfl⟩ := List.mem_map.mp member
      exact formed.chain.tip
  | newAddr _ | newTransactionHashes _ | getTransactions _ | newTransactionBlockHashes _
  | getTransactionBlocks _ | transactionBlocks _ | newProposerBlockHashes _
  | getProposerBlocks _ | proposerBlocks _ =>
      obtain ⟨each, -, rfl⟩ := List.mem_map.mp member
      trivial

section Reachable

variable {before after : State} {action : Action}

theorem State.WellFormed.cases (formed : before.WellFormed crypto)
    (stepped : before.step crypto action = some after) :
    StepCases crypto before action after :=
  cases_of_step ((formed.node.chain.heights _).mpr formed.node.chain.tip) stepped

/-- A step keeps a state well formed and every block in the tree. -/
theorem State.WellFormed.step (formed : before.WellFormed crypto)
    (stepped : before.step crypto action = some after) :
    after.WellFormed crypto ∧ before.node.Grows after.node := by
  cases formed.cases stepped with
  | receive message idle =>
      exact ⟨⟨formed.node, message.grounded_tasks formed.node⟩, fun _ member => member⟩
  | ran task rest node todo next effect =>
      have grounded : task.Grounded crypto before.node := formed.grounded next
      obtain ⟨nodeFormed, grows, groundedTodo⟩ := formed.node.effect grounded effect
      refine ⟨⟨nodeFormed, fun other member => ?_⟩, grows⟩
      rcases List.mem_append.mp member with new | old
      · exact groundedTodo other new
      · exact (formed.todo other (by simp [next, old])).mono grows
  | panicked task rest panicked next failure =>
      have grounded : task.Grounded crypto before.node := formed.grounded next
      rw [failure.onlyRefs formed.node grounded]
      exact ⟨⟨{ formed.node with }, by simp⟩, fun _ member => member⟩
  | mined _ node idle mined =>
      obtain ⟨nodeFormed, grows⟩ := formed.node.mined mined
      exact ⟨⟨nodeFormed, fun task member => (formed.todo task member).mono grows⟩, grows⟩
  | minerPanicked _ node idle failure =>
      rw [failure.onlyRefs]
      exact ⟨⟨{ formed.node with }, formed.todo⟩, fun _ member => member⟩
  | generated _ ledger node lastState idle tipState generated =>
      have grows : before.node.Grows node := by
        rw [generated.onlyPool]
        exact fun _ member => member
      exact ⟨⟨formed.node.generated generated,
        fun task member => (formed.todo task member).mono grows⟩, grows⟩
  | looked _ lastState => exact ⟨⟨formed.node, formed.todo⟩, fun _ member => member⟩
  | ico idle => exact ⟨⟨{ formed.node with }, formed.todo⟩, fun _ member => member⟩

theorem Initial.wellFormed {state : State} (initial : Initial crypto state) :
    state.WellFormed crypto := by
  obtain ⟨idle, -, allAddr, myAddrKey, same⟩ := initial
  constructor
  · rw [same]
    exact
      { chain := .new
        pooled := by simp [Node.initial]
        waiting := by simp [Node.initial]
        indexed := by simp [Node.initial, PoolIndexed] }
  · simp [idle]

/-- Every reachable state is well formed. -/
theorem wellFormed_of_run (run : Run (State.step crypto) (Initial crypto)) :
    ∀ index ≤ run.length, (run.states index).WellFormed crypto :=
  run.invariant (State.WellFormed crypto) (fun _ initial => initial.wellFormed)
    fun _ _ _ formed stepped => (formed.step stepped).1

end Reachable

/-! ## The initial coin offering -/

/-- The offering has just been made: the state is reachable, only genesis is in
the tree, and it has the ledger of the offering and no references. -/
structure AfterIco (crypto : Crypto) (initialLedger : Ledger) (state : State) : Prop where
  reached : ∃ run : Run (State.step crypto) (Initial crypto), run.states run.length = state
  chain : state.node.blockchain = Blockchain.new crypto
  globState : state.node.globState.lookup (genesisHash crypto) = some initialLedger
  txBlockRef : state.node.txBlockRef.lookup (genesisHash crypto) = some []

/-- Every block of the tree has a ledger and a list of references. -/
def Node.Published (node : Node) : Prop :=
  ∀ hash ∈ node.blockchain.blocks, hash ∈ node.globState ∧ hash ∈ node.txBlockRef

/-- A block whose parent is in the tree finds the entries of the parent. -/
theorem Node.Published.parentReady {node : Node} {block : ProposerBlock}
    (published : node.Published) (formed : node.WellFormed crypto)
    (parentKnown : block.header.proposerParent ∈ node.blockchain.blocks) :
    ParentReady node block where
  txBlockRef := (published _ parentKnown).2
  globState := (published _ parentKnown).1
  heights := (formed.chain.heights _).mpr parentKnown

/-- A block is accepted when its parent has its entries, the mempool can be scanned
and the references are in the pool with sound transactions. -/
theorem acceptProposerBlock_isOk {node : Node} {block : ProposerBlock}
    {txs : List SignedTransaction} (ready : ParentReady node block)
    (indexed : PoolIndexed node.txPool)
    (collected : referenced node.txBlockPool block.content.proposerContent = some txs)
    (sound : ∀ tx ∈ txs, tx.Sound crypto) :
    ∃ after, applyProposerBlock crypto node block = .ok after ∧
      acceptProposerBlock crypto node block = .ok
        { node := after, todo := [.newParent block],
          sent := [.broadcast (.newProposerBlockHashes [block.hash crypto])] } := by
  have signed : signedCorrectly crypto node.txBlockPool block.content.proposerContent = .ok true :=
    signedCorrectly_eq_true.mpr ⟨txs, collected, fun tx member => (sound tx member).1⟩
  obtain ⟨after, applied⟩ : ∃ after, applyProposerBlock crypto node block = .ok after := by
    apply apply_isOk ready indexed collected
    intro parentLedger _
    exact applyTransactions_isSome (fun tx member => (sound tx member).2) parentLedger
  refine ⟨after, applied, ?_⟩
  rw [acceptProposerBlock, signed, applied]
  rfl

theorem accept_isOk {node : Node} {block : ProposerBlock} {txs : List SignedTransaction}
    (formed : node.WellFormed crypto) (published : node.Published)
    (parentKnown : block.header.proposerParent ∈ node.blockchain.blocks)
    (collected : referenced node.txBlockPool block.content.proposerContent = some txs)
    (sound : ∀ tx ∈ txs, tx.Sound crypto) :
    ∃ after, applyProposerBlock crypto node block = .ok after ∧
      acceptProposerBlock crypto node block = .ok
        { node := after, todo := [.newParent block],
          sent := [.broadcast (.newProposerBlockHashes [block.hash crypto])] } :=
  acceptProposerBlock_isOk (published.parentReady formed parentKnown) formed.indexed collected
    sound

/-- Ledgers and lists of references are never dropped, and a block that enters
the tree has both. -/
structure Node.Publishes (before after : Node) : Prop where
  globState : ∀ hash ∈ before.globState, hash ∈ after.globState
  txBlockRef : ∀ hash ∈ before.txBlockRef, hash ∈ after.txBlockRef
  blocks : ∀ hash ∈ after.blockchain.blocks, hash ∈ before.blockchain.blocks ∨
    hash ∈ after.globState ∧ hash ∈ after.txBlockRef

section Publishes

variable {node after : Node}

theorem Node.Publishes.refl (node : Node) : node.Publishes node :=
  ⟨fun _ member => member, fun _ member => member, fun _ member => .inl member⟩

theorem Accepts.publishes {block : ProposerBlock} {parentLedger ledger : Ledger}
    {txs : List SignedTransaction}
    (accepts : Accepts crypto node block parentLedger txs ledger after) :
    node.Publishes after := by
  obtain ⟨parentRef, -, txBlockRef⟩ := accepts.txBlockRef
  constructor
  · intro hash member
    rw [accepts.globState, Finmap.mem_insert]
    exact .inr member
  · intro hash member
    rw [txBlockRef, Finmap.mem_insert]
    exact .inr member
  · intro hash member
    rw [accepts.blocks, Finmap.mem_insert] at member
    rw [accepts.globState, txBlockRef, Finmap.mem_insert, Finmap.mem_insert]
    rcases member with same | member
    · exact .inr ⟨.inl same, .inl same⟩
    · exact .inl member

theorem publishes_of_newLedger (node : Node) (hash : H256) (ledger : Ledger) :
    node.Publishes { node with globState := node.globState.insert hash ledger } where
  globState := fun _ member => Finmap.mem_insert.mpr (.inr member)
  txBlockRef := fun _ member => member
  blocks := fun _ member => .inl member

theorem publishes_of_newRef (node : Node) (hash : H256) (newRef : List H256) :
    node.Publishes { node with txBlockRef := node.txBlockRef.insert hash newRef } where
  globState := fun _ member => member
  txBlockRef := fun _ member => Finmap.mem_insert.mpr (.inr member)
  blocks := fun _ member => .inl member

theorem Effect.publishes {task : Task} {todo : List Task}
    (effect : Effect crypto node task after todo) : node.Publishes after := by
  cases effect with
  | skip => exact .refl node
  | accept _ _ _ _ _ applied =>
      obtain ⟨_, _, _, accepts⟩ := accepts_of_apply applied
      exact accepts.publishes
  | ico genesis icoState first => exact publishes_of_newLedger node genesis icoState
  | buffer each _ _ _ =>
      rw [bufferOrphan_eq]
      exact { Node.Publishes.refl node with }
  | addr _ _ | transaction _ _ _ _ _ _ _ _ _ _ _ | transactionBlock _ _ _ _ | release _ _ _ =>
      exact { Node.Publishes.refl node with }

theorem State.WellFormed.publishes {before after : State} {action : Action}
    (formed : before.WellFormed crypto) (stepped : before.step crypto action = some after) :
    before.node.Publishes after.node := by
  cases formed.cases stepped with
  | receive _ _ | looked _ _ => exact .refl before.node
  | ran _ _ _ _ _ effect => exact effect.publishes
  | ico _ => exact publishes_of_newLedger before.node _ _
  | panicked task _ _ next failure =>
      have grounded : task.Grounded crypto before.node := formed.grounded next
      rcases failure.node_cases formed.node grounded with unchanged | ⟨_, _, -, -, written⟩
      · rw [unchanged]
        exact .refl before.node
      · rw [written]
        exact publishes_of_newRef before.node _ _
  | mined _ _ _ mined =>
      cases mined with
      | nothing => exact .refl before.node
      | proposer _ _ _ _ _ _ _ _ _ _ accepts => exact accepts.publishes
      | transaction _ _ _ _ _ _ _ _ _ _ => exact { Node.Publishes.refl before.node with }
  | minerPanicked _ _ _ failure =>
      cases failure with
      | nothing => exact .refl before.node
      | reference _ _ _ _ _ _ _ _ _ => exact publishes_of_newRef before.node _ _
  | generated _ _ _ _ _ _ generated =>
      rw [generated.onlyPool]
      exact { Node.Publishes.refl before.node with }

theorem Node.Published.mono (published : node.Published) (publishes : node.Publishes after) :
    after.Published := by
  intro hash member
  rcases publishes.blocks hash member with earlier | new
  · exact ⟨publishes.globState hash (published hash earlier).1,
      publishes.txBlockRef hash (published hash earlier).2⟩
  · exact new

/-- Before the offering only genesis can lack a ledger. -/
structure Node.PublishedButGenesis (crypto : Crypto) (node : Node) : Prop where
  txBlockRef : ∀ hash ∈ node.blockchain.blocks, hash ∈ node.txBlockRef
  globState : ∀ hash ∈ node.blockchain.blocks, hash ≠ genesisHash crypto → hash ∈ node.globState

theorem Initial.publishedButGenesis {state : State} (initial : Initial crypto state) :
    state.node.PublishedButGenesis crypto := by
  obtain ⟨-, -, allAddr, myAddrKey, same⟩ := initial
  rw [same]
  constructor
  · intro hash member
    simpa [Node.initial, Blockchain.new, Finmap.notMem_empty] using member
  · intro hash member other
    simp [Node.initial, Blockchain.new, Finmap.notMem_empty, other] at member

theorem Node.PublishedButGenesis.mono (published : node.PublishedButGenesis crypto)
    (publishes : node.Publishes after) : after.PublishedButGenesis crypto := by
  constructor
  · intro hash member
    rcases publishes.blocks hash member with earlier | new
    · exact publishes.txBlockRef hash (published.txBlockRef hash earlier)
    · exact new.2
  · intro hash member other
    rcases publishes.blocks hash member with earlier | new
    · exact publishes.globState hash (published.globState hash earlier other)
    · exact new.1

/-- In a reachable state that has a ledger for genesis every block is published. -/
theorem published_of_genesis (run : Run (State.step crypto) (Initial crypto)) :
    ∀ index ≤ run.length, genesisHash crypto ∈ (run.states index).node.globState →
      (run.states index).node.Published := by
  have invariant := run.invariant
    (fun state => state.WellFormed crypto ∧ state.node.PublishedButGenesis crypto)
    (fun _ initial => ⟨initial.wellFormed, initial.publishedButGenesis⟩)
    (fun _ _ _ ⟨formed, published⟩ stepped =>
      ⟨(formed.step stepped).1, published.mono (formed.publishes stepped)⟩)
  intro index bound genesis hash member
  obtain ⟨-, published⟩ := invariant index bound
  refine ⟨?_, published.txBlockRef hash member⟩
  by_cases same : hash = genesisHash crypto
  · rw [same]
    exact genesis
  · exact published.globState hash member same

end Publishes

section AfterIco

variable {initialLedger : Ledger}

theorem AfterIco.wellFormed {state : State} (afterIco : AfterIco crypto initialLedger state) :
    state.WellFormed crypto := by
  obtain ⟨run, rfl⟩ := afterIco.reached
  exact wellFormed_of_run run run.length (le_refl _)

theorem AfterIco.published {state : State} (afterIco : AfterIco crypto initialLedger state) :
    state.node.Published := by
  intro hash member
  have onlyGenesis : hash = genesisHash crypto := by
    simpa [afterIco.chain, Blockchain.new, Finmap.notMem_empty] using member
  rw [onlyGenesis]
  exact ⟨Finmap.mem_of_lookup_eq_some afterIco.globState,
    Finmap.mem_of_lookup_eq_some afterIco.txBlockRef⟩

/-- From the offering on, every state is well formed and publishes its blocks. -/
theorem published_of_run (run : Run (State.stepAfterIco crypto) (AfterIco crypto initialLedger)) :
    ∀ index ≤ run.length,
      (run.states index).WellFormed crypto ∧ (run.states index).node.Published := by
  refine run.invariant (fun state => state.WellFormed crypto ∧ state.node.Published)
    (fun _ afterIco => ⟨afterIco.wellFormed, afterIco.published⟩) ?_
  intro before action after ⟨formed, published⟩ stepped
  have original := (step_of_stepAfterIco stepped).1
  exact ⟨(formed.step original).1, published.mono (formed.publishes original)⟩

/-- The control signal makes the offering at the start of the program. -/
theorem afterIco_of_signal {before after : State} (initial : Initial crypto before)
    (stepped : before.step crypto .ico = some after) :
    AfterIco crypto (icoState before.node.allAddr) after := by
  have reached : ∃ run : Run (State.step crypto) (Initial crypto),
      run.states run.length = after := by
    have enabled : runActions (State.step crypto) before [.ico] = some after := by
      simp [runActions, stepped]
    refine ⟨Run.ofActions before initial [.ico] (by simp [enabled]), ?_⟩
    simp [Run.ofActions, enabled]
  obtain ⟨idle, -, allAddr, myAddrKey, same⟩ := initial
  simp only [State.step, Option.ite_none_right_eq_some, Option.some.injEq] at stepped
  obtain ⟨-, rfl⟩ := stepped
  constructor
  · exact reached
  · simp [handleIcoSignal, same, Node.initial]
  · simp [handleIcoSignal, same, Node.initial, Blockchain.new, Blockchain.tip]
  · simp [handleIcoSignal, same, Node.initial]

end AfterIco

/-! ## A sample node -/

def KeyPair.sample : KeyPair :=
  ⟨[65]⟩

def H160.sample : H160 :=
  addressOf Crypto.sample (Crypto.sample.publicKey .sample)

/-- A node with one address, at the start of the program. -/
def Node.sample : Node :=
  Node.initial Crypto.sample [.sample]
    ((∅ : HashMap H160 KeyPair).insert .sample .sample)

/-- The node after its own initial coin offering. -/
def State.sample : State :=
  ⟨(handleIcoSignal Node.sample).node, [], H256.zero⟩

theorem afterIco_sample : AfterIco Crypto.sample (icoState [.sample]) State.sample := by
  have initial : Initial Crypto.sample ⟨Node.sample, [], H256.zero⟩ := ⟨rfl, rfl, _, _, rfl⟩
  exact afterIco_of_signal initial rfl

/-- The hash of a header with the given nonce. -/
def sampleHash (nonce : UInt32) : H256 :=
  Crypto.sample.sha256 [(nonce >>> 8).toUInt8, nonce.toUInt8]

/-- A header with the thresholds of genesis. -/
def Header.sample (nonce : UInt32) (parent : H256) : Header where
  proposerParent := parent
  nonce := nonce
  timestamp := 0
  transactionDifficulty := genesisTransactionDifficulty
  proposerDifficulty := genesisProposerDifficulty
  merkleTransaction := H256.zero
  merkleProposer := H256.zero

/-- A payment of the first coin of the sample node to the owner of a key. -/
def payment (key : KeyPair) (value : UInt32) : SignedTransaction :=
  let publicKey := Crypto.sample.publicKey key
  let transaction : Transaction :=
    { inputPrevious := [H256.zero]
      inputIndex := [0]
      outputValue := [value]
      outputAddress := [addressOf Crypto.sample publicKey] }
  ⟨transaction, ⟨sign Crypto.sample transaction key, publicKey⟩⟩

/-- A transaction block with the payment. -/
def paymentBlock (key : KeyPair) (value : UInt32) : TXBlock where
  header :=
    { Header.sample 0x2001 (genesisHash Crypto.sample) with
      merkleTransaction := (payment key value).hash Crypto.sample }
  content := ⟨[payment key value]⟩

/-- A proposer block on top of genesis that refers to the transaction block. -/
def paymentProposal : ProposerBlock where
  header :=
    { Header.sample 2 (genesisHash Crypto.sample) with
      merkleProposer := (sampleHash 0x2001).hash Crypto.sample }
  content := ⟨[sampleHash 0x2001]⟩

/-- A proposer block without references on top of genesis. -/
def parentBlock : ProposerBlock :=
  ⟨Header.sample 2 (genesisHash Crypto.sample), ⟨[]⟩⟩

/-- A proposer block without references on top of `parentBlock`. -/
def childBlock : ProposerBlock :=
  ⟨Header.sample 3 (sampleHash 2), ⟨[]⟩⟩

/-- A peer sends a transaction block and a proposer block. -/
def deliver (txBlock : TXBlock) (block : ProposerBlock) : List Action :=
  [.receive (.transactionBlocks [txBlock]), .work, .receive (.proposerBlocks [block]), .work]

/-- The run of the sample node through some actions. -/
def Run.sample (actions : List Action)
    (enabled : (runActions (State.stepAfterIco Crypto.sample) State.sample actions).isSome =
      true) :
    Run (State.stepAfterIco Crypto.sample) (AfterIco Crypto.sample (icoState [.sample])) :=
  Run.ofActions State.sample afterIco_sample actions enabled

/-- The run of the sample node from the start of the program. -/
def Run.sampleStart (actions : List Action)
    (enabled : (runActions (State.step Crypto.sample) ⟨Node.sample, [], H256.zero⟩
      actions).isSome = true) :
    Run (State.step Crypto.sample) (Initial Crypto.sample) :=
  Run.ofActions ⟨Node.sample, [], H256.zero⟩ ⟨rfl, rfl, _, _, rfl⟩ actions enabled

/-- The run in which the sample node makes its offering and takes in a
transaction block. -/
def Run.samplePool (txBlock : TXBlock)
    (enabled : (runActions (State.step Crypto.sample) ⟨Node.sample, [], H256.zero⟩
      [.ico, .receive (.transactionBlocks [txBlock]), .work]).isSome = true) :
    Run (State.step Crypto.sample) (Initial Crypto.sample) :=
  Run.sampleStart [.ico, .receive (.transactionBlocks [txBlock]), .work] enabled

def paymentRun : Run (State.step Crypto.sample) (Initial Crypto.sample) :=
  Run.samplePool (paymentBlock .sample 1000) (by decide +kernel)

end SimplifiedPrism
