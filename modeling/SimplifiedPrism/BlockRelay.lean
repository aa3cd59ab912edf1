import SimplifiedPrism.DeliveryOrder
import SimplifiedPrism.Network

/-!
# Serving messages about proposer blocks

`Relays` relates what a worker or the miner does to the tree to what it sends:
every block that enters the tree is announced, and only absent blocks are asked
for.  `Serving` follows a batch of received blocks to its end; `Node.Beside` says
that all other messages leave the tree and the buffer alone.
-/

namespace SimplifiedPrism

variable {crypto : Crypto}

/-! ## Serving a message -/

/-- The hashes of proposer blocks that a message announces. -/
def Message.announcedBlocks : Message → List H256
  | .newProposerBlockHashes hashVec => hashVec
  | _ => []

/-- The hashes of proposer blocks that a message asks for. -/
def Message.askedBlocks : Message → List H256
  | .getProposerBlocks hashVec => hashVec
  | _ => []

/-- The proposer blocks that a message gives. -/
def Message.givenBlocks : Message → List ProposerBlock
  | .proposerBlocks proposerBlockVec => proposerBlockVec
  | _ => []

def Outgoing.message : Outgoing → Message
  | .write message => message
  | .broadcast message => message

section Relays

variable {node after : Node} {task : Task} {todo : List Task} {progress : Progress}

/-- The tree grows, every block that enters it is announced, and only blocks that
were absent are asked for. -/
structure Relays (before after : Node) (sent : List Outgoing) : Prop where
  grows : before.Grows after
  announces : ∀ hash ∈ after.blockchain.blocks, hash ∈ before.blockchain.blocks ∨
    .broadcast (.newProposerBlockHashes [hash]) ∈ sent
  asks : ∀ outgoing ∈ sent, ∀ hash ∈ outgoing.message.askedBlocks,
    hash ∉ before.blockchain.blocks

theorem Relays.trans {before middle after : Node} {first second : List Outgoing}
    (relays : Relays before middle first) (later : Relays middle after second) :
    Relays before after (first ++ second) where
  grows := fun hash member => later.grows hash (relays.grows hash member)
  announces := by
    intro hash member
    rcases later.announces hash member with inMiddle | announced
    · rcases relays.announces hash inMiddle with earlier | announced
      · exact .inl earlier
      · exact .inr (List.mem_append_left _ announced)
    · exact .inr (List.mem_append_right _ announced)
  asks := by
    intro outgoing sent hash asked
    rcases List.mem_append.mp sent with earlier | new
    · exact relays.asks outgoing earlier hash asked
    · exact fun known => later.asks outgoing new hash asked (relays.grows hash known)

theorem Relays.of_same {before after : Node} {sent : List Outgoing}
    (same : after.blockchain = before.blockchain)
    (asks : ∀ outgoing ∈ sent, ∀ hash ∈ outgoing.message.askedBlocks,
      hash ∉ before.blockchain.blocks) : Relays before after sent where
  grows := fun _ member => same ▸ member
  announces := fun _ member => .inl (same ▸ member)
  asks := asks

theorem asks_of_run (ran : runTask crypto node task = .ok progress) :
    ∀ outgoing ∈ progress.sent, ∀ hash ∈ outgoing.message.askedBlocks,
      hash ∉ node.blockchain.blocks := by
  intro outgoing sent hash asked
  cases sends_of_run ran sent with
  | getProposerBlock each absent | getParent each absent =>
      rw [List.mem_singleton.mp asked]
      exact absent
  | addr _ _ | ico _ _ | getTransaction _ _ | giveTransaction _ _ _ | relayTransaction _ _ _
  | getTransactionBlock _ _ | giveTransactionBlock _ _ _ | relayTransactionBlock _ _
  | giveProposerBlock _ _ _ | relayProposerBlock _ _ _ _ => cases asked

theorem Effect.sameTree (effect : Effect crypto node task after todo)
    (noBlock : ∀ block, task ≠ .proposerBlock block ∧ task ≠ .orphan block) :
    after.blockchain = node.blockchain := by
  cases effect with
  | skip _ | addr _ _ | ico _ _ _ | transaction _ _ _ _ _ _ _ _ _ _ _
  | transactionBlock _ _ _ _ | release _ _ _ => rfl
  | buffer each _ _ _ => exact absurd rfl (noBlock each).1
  | accept _ each _ checks _ _ =>
      cases checks with
      | received _ _ _ _ => exact absurd rfl (noBlock each).1
      | orphan _ => exact absurd rfl (noBlock each).2

private theorem relays_of_accept {each : ProposerBlock}
    (asks : ∀ outgoing ∈ progress.sent, ∀ hash ∈ outgoing.message.askedBlocks,
      hash ∉ node.blockchain.blocks)
    (ran : acceptProposerBlock crypto node each = .ok progress) :
    Relays node progress.node progress.sent := by
  rcases sent_of_accept ran with ⟨unchanged, -⟩ | ⟨applied, relayed⟩
  · exact .of_same (by rw [unchanged]) asks
  · obtain ⟨_, _, _, accepts⟩ := accepts_of_apply applied
    refine ⟨accepts.grows, fun hash member => ?_, asks⟩
    rw [accepts.blocks, Finmap.mem_insert] at member
    rcases member with rfl | earlier
    · exact .inr (relayed ▸ List.mem_singleton.mpr rfl)
    · exact .inl earlier

theorem relays_of_run (ran : runTask crypto node task = .ok progress) :
    Relays node progress.node progress.sent := by
  have asks := asks_of_run ran
  cases task with
  | proposerBlock each =>
      rw [runTask, handleProposerBlock] at ran
      split at ran
      · cases ran
        exact .of_same rfl asks
      split at ran
      · cases ran
        exact .of_same rfl asks
      split at ran
      · cases ran
        exact .of_same (by rw [bufferOrphan_eq]) asks
      · exact relays_of_accept asks ran
  | orphan each => exact relays_of_accept asks ran
  | addr _ | ico _ _ | announcedTransaction _ | requestedTransaction _ | transaction _ _
  | announcedTransactionBlock _ | requestedTransactionBlock _ | transactionBlock _
  | announcedProposerBlock _ | requestedProposerBlock _ | newParent _ =>
      exact .of_same ((effect_of_run ran).sameTree (by simp)) asks

/-- Only a request makes a worker give a block away. -/
theorem gives_nothing_of_runTasks (node : Node) (todo : List Task)
    (others : ∀ task ∈ todo, ∀ hash, task ≠ .requestedProposerBlock hash) :
    ∀ outgoing ∈ (runTasks crypto node todo).sent, outgoing.message.givenBlocks = [] := by
  fun_induction runTasks crypto node todo with
  | case1 node => simp
  | case2 node task rest panicked ran => simp
  | case3 node task rest progress ran outcome ih =>
      have later : ∀ next ∈ progress.todo ++ rest, ∀ hash, next ≠ .requestedProposerBlock hash := by
        intro next member hash same
        rcases List.mem_append.mp member with new | old
        · have effect := effect_of_run ran
          generalize progress.todo = todo, progress.node = after at effect new
          cases effect with
          | skip _ | addr _ _ | ico _ _ _ | transaction _ _ _ _ _ _ _ _ _ _ _
          | transactionBlock _ _ _ _ | buffer _ _ _ _ => cases new
          | accept _ _ _ _ _ _ =>
              rw [List.mem_singleton.mp new] at same
              cases same
          | release _ _ _ =>
              obtain ⟨_, -, rfl⟩ := List.mem_map.mp new
              cases same
        · exact others next (List.mem_cons_of_mem _ old) hash same
      intro outgoing sent
      rcases List.mem_append.mp sent with own | rest
      · cases sends_of_run ran own with
        | giveProposerBlock each _ _ => exact absurd rfl (others _ List.mem_cons_self each)
        | addr _ _ | ico _ _ | getTransaction _ _ | giveTransaction _ _ _ | relayTransaction _ _ _
        | getTransactionBlock _ _ | giveTransactionBlock _ _ _ | relayTransactionBlock _ _
        | getProposerBlock _ _ | getParent _ _ | relayProposerBlock _ _ _ _ => rfl
      · exact ih later outgoing rest

theorem relays_of_runTasks (node : Node) (todo : List Task)
    (completed : (runTasks crypto node todo).panic = none) :
    Relays node (runTasks crypto node todo).node (runTasks crypto node todo).sent := by
  fun_induction runTasks crypto node todo with
  | case1 node => exact .of_same rfl (by simp)
  | case2 node task rest panicked ran => cases completed
  | case3 node task rest progress ran outcome ih => exact (relays_of_run ran).trans (ih completed)

end Relays

/-! ## Serving a batch of blocks -/

/-- A task is about blocks from a given origin. -/
def Task.From (origin : ProposerBlock → Prop) : Task → Prop
  | .proposerBlock each => origin each
  | .newParent _ => True
  | .orphan each => origin each
  | _ => False

/-- Between the tasks for a batch: everything that enters the tree or the buffer
comes from the origin, and the delivered blocks are accounted for. -/
structure Serving (crypto : Crypto) (origin : ProposerBlock → Prop)
    (delivered : List ProposerBlock) (start node : Node) (todo : List Task) : Prop where
  formed : node.WellFormed crypto
  published : node.Published
  grounded : ∀ task ∈ todo, task.Grounded crypto node
  buffered : ∀ parent bucket, node.orphanHandler.lookup parent = some bucket →
    ∀ block ∈ bucket, origin block
  about : ∀ task ∈ todo, task.From origin
  tree : ∀ hash block, node.blockchain.blocks.lookup hash = some block →
    start.blockchain.blocks.lookup hash = some block ∨ origin block
  pool : node.txBlockPool = start.txBlockPool
  nothingLost : NothingLost crypto delivered node todo

section Serving

variable {origin : ProposerBlock → Prop} {delivered : List ProposerBlock}
variable {start node after : Node} {task : Task} {rest todo : List Task}

/-- A block of the origin passes the check, and its references are in the pool. -/
structure Acceptable (crypto : Crypto) (txBlockPool : HashMap H256 TXBlock)
    (block : ProposerBlock) : Prop where
  work : ¬ block.hash crypto > block.header.proposerDifficulty
  ready : PoolReady crypto {block} txBlockPool

theorem delivers_of_from (acceptable : ∀ block, origin block →
      Acceptable crypto node.txBlockPool block)
    (formed : node.WellFormed crypto) (published : node.Published) (about : task.From origin)
    (grounded : task.Grounded crypto node) :
    ∃ progress, runTask crypto node task = .ok progress ∧
      Delivers crypto node task progress.node progress.todo := by
  have single (each : ProposerBlock) (own : origin each) (handles : task.Handles {each}) :
      ∃ progress, runTask crypto node task = .ok progress ∧
        Delivers crypto node task progress.node progress.todo := by
    apply delivers_of_handles ?_ (acceptable each own).ready formed published handles grounded
    intro block member
    rw [Finset.mem_singleton.mp member]
    exact (acceptable each own).work
  cases task with
  | proposerBlock each => exact single each about (Finset.mem_singleton_self each)
  | orphan each => exact single each about (Finset.mem_singleton_self each)
  | newParent block =>
      refine ⟨_, rfl, ?_⟩
      unfold handleNewParent
      split
      · next absent => exact .nothing block (Finmap.lookup_eq_none.mp absent)
      · next vec waiting => exact .release block vec waiting
  | addr _ | ico _ _ | announcedTransaction _ | requestedTransaction _ | transaction _ _
  | announcedTransactionBlock _ | requestedTransactionBlock _ | transactionBlock _
  | announcedProposerBlock _ | requestedProposerBlock _ => cases about

theorem Serving.step (serving : Serving crypto origin delivered start node (task :: rest))
    {progress : Progress} (ran : runTask crypto node task = .ok progress)
    (delivers : Delivers crypto node task progress.node progress.todo) :
    Serving crypto origin delivered start progress.node (progress.todo ++ rest) := by
  have effect := effect_of_run ran
  have about : task.From origin := serving.about task List.mem_cons_self
  obtain ⟨formed, grows, groundedTodo⟩ :=
    serving.formed.effect (serving.grounded task List.mem_cons_self) effect
  have nothingLost := serving.nothingLost.step delivers
  have published := serving.published.mono effect.publishes
  have pool := delivers.txBlockPool.trans serving.pool
  have grounded : ∀ next ∈ progress.todo ++ rest, next.Grounded crypto progress.node := by
    intro next member
    rcases List.mem_append.mp member with new | old
    · exact groundedTodo next new
    · exact (serving.grounded next (List.mem_cons_of_mem _ old)).mono grows
  have fromRest : ∀ next ∈ rest, next.From origin :=
    fun next member => serving.about next (List.mem_cons_of_mem _ member)
  generalize progress.node = after, progress.todo = todo at *
  cases delivers with
  | known _ _ | nothing _ _ =>
      exact ⟨formed, published, grounded, serving.buffered, fromRest, serving.tree, pool,
        nothingLost⟩
  | buffer each parentMissing =>
      refine ⟨formed, published, grounded, fun parent bucket found block member => ?_, fromRest,
        ?_, pool, nothingLost⟩
      · rcases mem_bufferOrphan found member with ⟨earlier, stored, member⟩ | ⟨-, rfl⟩
        · exact serving.buffered parent earlier stored block member
        · exact about
      · rw [bufferOrphan_eq]
        exact serving.tree
  | accept _ each _ checks applied =>
      obtain ⟨_, _, _, accepts⟩ := accepts_of_apply applied
      have own : origin each := by
        cases checks with
        | received _ _ _ _ => exact about
        | orphan _ => exact about
      refine ⟨formed, published, grounded, ?_, fun next member => ?_, fun hash block found => ?_,
        pool, nothingLost⟩
      · rw [accepts.orphanHandler]
        exact serving.buffered
      · rcases List.mem_cons.mp member with rfl | later
        · trivial
        · exact fromRest next later
      · rw [accepts.blocks, HashMap.lookup_insert_ite] at found
        split at found
        · cases found
          exact .inr own
        · exact serving.tree hash block found
  | release block vec waiting =>
      refine ⟨formed, published, grounded, fun parent bucket found => ?_, fun next member => ?_,
        serving.tree, pool, nothingLost⟩
      · rw [HashMap.lookup_erase_ite] at found
        split at found
        · cases found
        · exact serving.buffered parent bucket found
      · rcases List.mem_append.mp member with inBucket | later
        · obtain ⟨each, waits, rfl⟩ := List.mem_map.mp inBucket
          exact serving.buffered _ vec waiting each waits
        · exact fromRest next later

/-- A batch is served to its end: its blocks, and those that waited, are in the
tree or wait. -/
theorem Serving.batch (acceptable : ∀ block, origin block →
      Acceptable crypto start.txBlockPool block)
    (serving : Serving crypto origin delivered start start [])
    (batch : List ProposerBlock) (own : ∀ block ∈ batch, origin block) :
    (workerLoop crypto start (.proposerBlocks batch)).panic = none ∧
      Serving crypto origin (delivered ++ batch) start
        (workerLoop crypto start (.proposerBlocks batch)).node [] := by
  apply runTasks_invariant (Serving crypto origin (delivered ++ batch) start)
  · intro node task rest serving
    obtain ⟨progress, ran, delivers⟩ := delivers_of_from (serving.pool ▸ acceptable)
      serving.formed serving.published (serving.about task List.mem_cons_self)
      (serving.grounded task List.mem_cons_self)
    exact ⟨progress, ran, serving.step ran delivers⟩
  · refine ⟨serving.formed, serving.published,
      Message.grounded_tasks serving.formed (.proposerBlocks batch), serving.buffered, ?_,
      serving.tree, serving.pool, ?_, serving.nothingLost.nonempty, ?_⟩
    · intro task member
      obtain ⟨block, inBatch, rfl⟩ := List.mem_map.mp member
      exact own block inBatch
    · intro block member
      rcases List.mem_append.mp member with earlier | inBatch
      · rcases serving.nothingLost.located block earlier with
          inTree | waits | impossible | impossible
        · exact .inl inTree
        · exact .inr (.inl waits)
        · cases impossible
        · cases impossible
      · exact .inr (.inr (.inr (List.mem_map_of_mem inBatch)))
    · intro parent waiting inTree
      obtain ⟨_, impossible, -⟩ := serving.nothingLost.awaited parent waiting inTree
      cases impossible

end Serving

/-! ## Everything else leaves the blocks alone -/

/-- The message is one of the three about proposer blocks. -/
def Message.AboutBlocks : Message → Prop
  | .newProposerBlockHashes _ | .getProposerBlocks _ | .proposerBlocks _ => True
  | _ => False

instance (blocks : Finset ProposerBlock) (txBlockPool : HashMap H256 TXBlock) :
    Decidable (PoolReady crypto blocks txBlockPool) :=
  decidable_of_iff
    (∀ block ∈ blocks, ∀ ref ∈ block.content.proposerContent,
      ∃ txBlock ∈ txBlockPool.lookup ref, ∀ tx ∈ txBlock.content.transactionContent,
        tx.Sound crypto)
    Iff.rfl

/-- The task comes from a message about proposer blocks. -/
def Task.AboutBlocks : Task → Prop
  | .announcedProposerBlock _ | .requestedProposerBlock _ | .proposerBlock _ | .newParent _
  | .orphan _ => True
  | _ => False

/-- Tree and buffer are the same, and what the pool had it still has. -/
structure Node.Beside (crypto : Crypto) (before after : Node) : Prop where
  formed : after.WellFormed crypto
  published : after.Published
  blockchain : after.blockchain = before.blockchain
  orphanHandler : after.orphanHandler = before.orphanHandler
  pool : ∀ hash txBlock, before.txBlockPool.lookup hash = some txBlock →
    after.txBlockPool.lookup hash = some txBlock

section Beside

variable {node after : Node} {task : Task} {todo : List Task} {progress : Progress}
variable {message : Message}

theorem Message.nothing_of_other (other : ¬ message.AboutBlocks) :
    message.announcedBlocks = [] ∧ message.askedBlocks = [] ∧ message.givenBlocks = [] := by
  cases message with
  | newProposerBlockHashes _ | getProposerBlocks _ | proposerBlocks _ => exact absurd trivial other
  | newAddr _ | ico _ _ | newTransactionHashes _ | getTransactions _ | transactions _
  | newTransactionBlockHashes _ | getTransactionBlocks _ | transactionBlocks _ =>
      exact ⟨rfl, rfl, rfl⟩

theorem Node.Beside.refl (formed : node.WellFormed crypto) (published : node.Published) :
    node.Beside crypto node :=
  ⟨formed, published, rfl, rfl, fun _ _ found => found⟩

theorem Node.Beside.trans {middle : Node} (first : node.Beside crypto middle)
    (second : middle.Beside crypto after) : node.Beside crypto after where
  formed := second.formed
  published := second.published
  blockchain := second.blockchain.trans first.blockchain
  orphanHandler := second.orphanHandler.trans first.orphanHandler
  pool := fun hash txBlock found => second.pool hash txBlock (first.pool hash txBlock found)

/-- A task that is not about blocks leaves them alone and leads to no tasks. -/
theorem Effect.beside (effect : Effect crypto node task after todo)
    (other : ¬ task.AboutBlocks) (formed : node.WellFormed crypto) (published : node.Published)
    (grounded : task.Grounded crypto node) : node.Beside crypto after ∧ todo = [] := by
  have formedAfter := (formed.effect grounded effect).1
  have publishedAfter := published.mono effect.publishes
  cases effect with
  | skip _ | addr _ _ | ico _ _ _ | transaction _ _ _ _ _ _ _ _ _ _ _ =>
      exact ⟨⟨formedAfter, publishedAfter, rfl, rfl, fun _ _ found => found⟩, rfl⟩
  | transactionBlock each unknown _ _ =>
      refine ⟨⟨formedAfter, publishedAfter, rfl, rfl, fun hash txBlock found => ?_⟩, rfl⟩
      rw [HashMap.lookup_insert_ite]
      split
      · next same =>
          rw [same] at found
          exact absurd (Finmap.mem_of_lookup_eq_some found) unknown
      · exact found
  | buffer _ _ _ _ | release _ _ _ => exact absurd trivial other
  | accept _ _ _ checks _ _ =>
      cases checks with
      | received _ _ _ _ | orphan _ => exact absurd trivial other

theorem others_of_run (ran : runTask crypto node task = .ok progress)
    (other : ¬ task.AboutBlocks) : ∀ outgoing ∈ progress.sent, ¬ outgoing.message.AboutBlocks := by
  intro outgoing sent about
  cases sends_of_run ran sent with
  | addr _ _ | ico _ _ | getTransaction _ _ | giveTransaction _ _ _ | relayTransaction _ _ _
  | getTransactionBlock _ _ | giveTransactionBlock _ _ _ | relayTransactionBlock _ _ => exact about
  | getProposerBlock _ _ | giveProposerBlock _ _ _ | getParent _ _ => exact other trivial
  | relayProposerBlock _ _ checks _ =>
      cases checks with
      | received _ _ _ _ | orphan _ => exact other trivial

theorem beside_of_runTasks (node : Node) (todo : List Task)
    (completed : (runTasks crypto node todo).panic = none)
    (others : ∀ task ∈ todo, ¬ task.AboutBlocks) (formed : node.WellFormed crypto)
    (published : node.Published) (grounded : ∀ task ∈ todo, task.Grounded crypto node) :
    node.Beside crypto (runTasks crypto node todo).node ∧
      ∀ outgoing ∈ (runTasks crypto node todo).sent, ¬ outgoing.message.AboutBlocks := by
  fun_induction runTasks crypto node todo with
  | case1 node => exact ⟨.refl formed published, by simp⟩
  | case2 node task rest panicked ran => cases completed
  | case3 node task rest progress ran outcome ih =>
      have other := others task List.mem_cons_self
      have first := grounded task List.mem_cons_self
      obtain ⟨beside, noTasks⟩ := (effect_of_run ran).beside other formed published first
      have grows := (formed.effect first (effect_of_run ran)).2.1
      have rest := ih completed
        (by
          rw [noTasks]
          exact fun next member => others next (List.mem_cons_of_mem _ member))
        beside.formed beside.published
        (by
          rw [noTasks]
          exact fun next member => (grounded next (List.mem_cons_of_mem _ member)).mono grows)
      refine ⟨beside.trans rest.1, fun outgoing sent => ?_⟩
      rcases List.mem_append.mp sent with own | later
      · exact others_of_run ran other outgoing own
      · exact rest.2 outgoing later

theorem others_of_tasks (other : ¬ message.AboutBlocks) :
    ∀ task ∈ message.tasks node, ¬ task.AboutBlocks := by
  intro task member about
  cases message with
  | newProposerBlockHashes _ | getProposerBlocks _ | proposerBlocks _ => exact other trivial
  | ico _ _ =>
      rw [Message.tasks, List.mem_singleton] at member
      subst member
      exact about
  | newAddr _ | newTransactionHashes _ | getTransactions _ | transactions _
  | newTransactionBlockHashes _ | getTransactionBlocks _ | transactionBlocks _ =>
      obtain ⟨each, -, rfl⟩ := List.mem_map.mp member
      exact about

theorem runTasks_of_silent {Item : Type*} (task : Item → Task) (answers : Item → List Outgoing)
    (only : ∀ item, runTask crypto node (task item) = .ok { node, sent := answers item })
    (items : List Item) :
    runTasks crypto node (items.map task) = { node, sent := items.flatMap answers } := by
  induction items with
  | nil => simp [runTasks]
  | cons item items ih =>
      rw [List.map_cons, runTasks]
      split
      · next panicked ran =>
          rw [only item] at ran
          cases ran
      · next progress ran =>
          rw [only item, Except.ok.injEq] at ran
          subst ran
          simp [ih]

theorem workerLoop_announced (node : Node) (hashVec : List H256) :
    workerLoop crypto node (.newProposerBlockHashes hashVec) =
      { node
        sent := hashVec.flatMap fun each =>
          if each ∈ node.blockchain.blocks then [] else [.write (.getProposerBlocks [each])] } :=
  runTasks_of_silent _ _ (fun _ => rfl) hashVec

theorem workerLoop_asked (node : Node) (hashVec : List H256) :
    workerLoop crypto node (.getProposerBlocks hashVec) =
      { node
        sent := hashVec.flatMap fun each =>
          (node.blockchain.blocks.lookup each).toList.map
            fun block => .write (.proposerBlocks [block]) } :=
  runTasks_of_silent _ _ (fun _ => rfl) hashVec

end Beside

/-! ## Mining -/

theorem PoolReady.mono {blocks : Finset ProposerBlock} {pool more : HashMap H256 TXBlock}
    (ready : PoolReady crypto blocks pool)
    (keeps : ∀ hash txBlock, pool.lookup hash = some txBlock → more.lookup hash = some txBlock) :
    PoolReady crypto blocks more := by
  intro block member ref inContent
  obtain ⟨txBlock, found, sound⟩ := ready block member ref inContent
  exact ⟨txBlock, keeps ref txBlock found, sound⟩

theorem Mined.publishes {node after : Node} {hashed : Option Header}
    (mined : Mined crypto node hashed after) : node.Publishes after := by
  cases mined with
  | nothing => exact .refl node
  | proposer _ _ _ _ _ _ _ _ _ _ accepts => exact accepts.publishes
  | transaction _ _ _ _ _ _ _ _ _ _ => exact { Node.Publishes.refl node with }

theorem MinerSends.silent {node after : Node} {sent : List Outgoing}
    (sends : MinerSends crypto node after sent) :
    ∀ outgoing ∈ sent,
      outgoing.message.askedBlocks = [] ∧ outgoing.message.givenBlocks = [] := by
  intro outgoing member
  cases sends with
  | nothing _ => cases member
  | proposer _ _ | transaction _ _ =>
      rw [List.mem_singleton] at member
      subst member
      exact ⟨rfl, rfl⟩

theorem MinerSends.relays {node after : Node} {sent : List Outgoing}
    (sends : MinerSends crypto node after sent) : Relays node after sent := by
  have asks : ∀ outgoing ∈ sent, ∀ hash ∈ outgoing.message.askedBlocks,
      hash ∉ node.blockchain.blocks := by
    intro outgoing member hash asked
    rw [(sends.silent outgoing member).1] at asked
    cases asked
  cases sends with
  | nothing same => exact .of_same (by rw [same]) asks
  | transaction _ same => exact .of_same same asks
  | proposer newBlock inserted =>
      obtain ⟨_, -, blocks, -⟩ := Blockchain.insert_ok inserted
      refine ⟨fun hash member => ?_, fun hash member => ?_, asks⟩
      · rw [blocks, Finmap.mem_insert]
        exact .inr member
      · rw [blocks, Finmap.mem_insert] at member
        rcases member with rfl | earlier
        · exact .inr (List.mem_singleton.mpr rfl)
        · exact .inl earlier

end SimplifiedPrism
