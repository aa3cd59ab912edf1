import SimplifiedPrism.AddressGossip
import SimplifiedPrism.BlockRelay

/-!
# Where the contents of a network come from

Workers only pass things on.  A transaction in a mempool, a transaction block in
a pool and a proposer block in a tree, in a buffer or under way was made earlier
in the run by some miner or generator, or is the genesis block.
-/

namespace SimplifiedPrism

variable {crypto : Crypto}

/-- A choice of transactions, transaction blocks and proposer blocks. -/
structure Origin where
  transaction : SignedTransaction → Prop
  txBlock : TXBlock → Prop
  block : ProposerBlock → Prop

namespace Origin

/-- What is in one choice is in the other. -/
structure Le (origin more : Origin) : Prop where
  transaction : ∀ tx, origin.transaction tx → more.transaction tx
  txBlock : ∀ txBlock, origin.txBlock txBlock → more.txBlock txBlock
  block : ∀ block, origin.block block → more.block block

/-- A proposer block that is chosen, or genesis. -/
def Known (crypto : Crypto) (origin : Origin) (block : ProposerBlock) : Prop :=
  block = genesisBlock crypto ∨ origin.block block

variable {origin more : Origin}

theorem Le.refl (origin : Origin) : origin.Le origin :=
  ⟨fun _ chosen => chosen, fun _ chosen => chosen, fun _ chosen => chosen⟩

theorem Le.known (le : origin.Le more) {block : ProposerBlock} (known : origin.Known crypto block) :
    more.Known crypto block :=
  known.imp_right (le.block block)

end Origin

/-- Everything that a node keeps has been chosen, and its mempool is keyed by hash. -/
structure Node.Within (crypto : Crypto) (origin : Origin) (node : Node) : Prop where
  keyed : ∀ hash tx, node.txPool.lookup hash = some tx → tx.hash crypto = hash
  txPool : ∀ hash tx, node.txPool.lookup hash = some tx → origin.transaction tx
  txBlockPool : ∀ hash txBlock, node.txBlockPool.lookup hash = some txBlock →
    origin.txBlock txBlock
  blocks : ∀ hash block, node.blockchain.blocks.lookup hash = some block →
    origin.Known crypto block
  waiting : ∀ parent bucket, node.orphanHandler.lookup parent = some bucket →
    ∀ block ∈ bucket, origin.block block

def Message.Within (crypto : Crypto) (origin : Origin) : Message → Prop
  | .transactions transactionVec => ∀ tx ∈ transactionVec, origin.transaction tx
  | .transactionBlocks txBlockVec => ∀ txBlock ∈ txBlockVec, origin.txBlock txBlock
  | .proposerBlocks proposerBlockVec => ∀ block ∈ proposerBlockVec, origin.Known crypto block
  | _ => True

def Task.Within (crypto : Crypto) (origin : Origin) : Task → Prop
  | .transaction _ each => origin.transaction each
  | .transactionBlock each => origin.txBlock each
  | .proposerBlock each => origin.Known crypto each
  | .orphan each => origin.block each
  | _ => True

section Within

variable {origin more : Origin} {node after : Node} {task : Task} {todo : List Task}
variable {message : Message} {progress : Progress}

theorem Node.Within.mono (within : node.Within crypto origin) (le : origin.Le more) :
    node.Within crypto more where
  keyed := within.keyed
  txPool := fun hash tx found => le.transaction tx (within.txPool hash tx found)
  txBlockPool := fun hash txBlock found =>
    le.txBlock txBlock (within.txBlockPool hash txBlock found)
  blocks := fun hash block found => le.known (within.blocks hash block found)
  waiting := fun parent bucket found block member =>
    le.block block (within.waiting parent bucket found block member)

theorem Message.Within.mono (within : message.Within crypto origin) (le : origin.Le more) :
    message.Within crypto more := by
  cases message with
  | transactions _ => exact fun tx member => le.transaction tx (within tx member)
  | transactionBlocks _ => exact fun txBlock member => le.txBlock txBlock (within txBlock member)
  | proposerBlocks _ => exact fun block member => le.known (within block member)
  | newAddr _ | ico _ _ | newTransactionHashes _ | getTransactions _
  | newTransactionBlockHashes _ | getTransactionBlocks _ | newProposerBlockHashes _
  | getProposerBlocks _ => trivial

theorem Message.Within.tasks (within : message.Within crypto origin) (node : Node) :
    ∀ task ∈ message.tasks node, task.Within crypto origin := by
  intro task member
  cases message with
  | transactions _ | transactionBlocks _ | proposerBlocks _ =>
      obtain ⟨each, inside, rfl⟩ := List.mem_map.mp member
      exact within each inside
  | ico _ _ =>
      rw [Message.tasks, List.mem_singleton] at member
      subst member
      trivial
  | newAddr _ | newTransactionHashes _ | getTransactions _ | newTransactionBlockHashes _
  | getTransactionBlocks _ | newProposerBlockHashes _ | getProposerBlocks _ =>
      obtain ⟨each, -, rfl⟩ := List.mem_map.mp member
      trivial

/-! ## A worker -/

theorem Node.Within.accepts {block : ProposerBlock} {parentLedger ledger : Ledger}
    {txs : List SignedTransaction} (within : node.Within crypto origin)
    (known : origin.Known crypto block)
    (accepts : Accepts crypto node block parentLedger txs ledger after) :
    after.Within crypto origin where
  keyed := fun hash tx found => within.keyed hash tx (accepts.txPool hash tx found)
  txPool := fun hash tx found => within.txPool hash tx (accepts.txPool hash tx found)
  txBlockPool := by
    rw [accepts.txBlockPool]
    exact within.txBlockPool
  blocks := by
    rw [accepts.blocks]
    exact HashMap.forall_lookup_insert within.blocks known
  waiting := by
    rw [accepts.orphanHandler]
    exact within.waiting

theorem Node.Within.effect (within : node.Within crypto origin) (formed : node.WellFormed crypto)
    (inside : task.Within crypto origin) (effect : Effect crypto node task after todo) :
    after.Within crypto origin ∧ ∀ next ∈ todo, next.Within crypto origin := by
  cases effect with
  | skip _ => exact ⟨within, by simp⟩
  | addr _ _ | ico _ _ _ => exact ⟨{ within with }, by simp⟩
  | transaction tip each currState sums fresh verified tipState unspent owned summed covered =>
      refine ⟨{ within with keyed := fun hash tx found => ?_, txPool := ?_ }, by simp⟩
      · rw [HashMap.lookup_insert_ite] at found
        split at found
        · next same =>
            cases found
            exact same.symm
        · exact within.keyed hash tx found
      · exact HashMap.forall_lookup_insert within.txPool inside
  | transactionBlock each unknown work notProposer =>
      refine ⟨{ within with keyed := ?_, txPool := ?_, txBlockPool := ?_ }, by simp⟩
      · exact fun hash tx found => within.keyed hash tx (lookup_of_removeTransactions found)
      · exact fun hash tx found => within.txPool hash tx (lookup_of_removeTransactions found)
      · exact HashMap.forall_lookup_insert within.txBlockPool inside
  | buffer each unknown work parentMissing =>
      have notGenesis : each ≠ genesisBlock crypto := by
        rintro rfl
        exact unknown formed.chain.genesis
      rw [bufferOrphan_eq]
      refine ⟨{ within with waiting := fun parent bucket found block member => ?_ }, by simp⟩
      rcases mem_bufferOrphan found member with ⟨earlier, stored, member⟩ | ⟨-, rfl⟩
      · exact within.waiting parent earlier stored block member
      · exact inside.resolve_left notGenesis
  | accept _ each _ checks signed applied =>
      obtain ⟨_, _, _, accepts⟩ := accepts_of_apply applied
      have known : origin.Known crypto each := by
        cases checks with
        | received _ _ _ _ => exact inside
        | orphan _ => exact .inr inside
      refine ⟨within.accepts known accepts, fun next member => ?_⟩
      rw [List.mem_singleton] at member
      subst member
      trivial
  | release block vec waiting =>
      refine ⟨{ within with waiting := fun parent bucket found => ?_ }, fun next member => ?_⟩
      · rw [HashMap.lookup_erase_ite] at found
        split at found
        · cases found
        · exact within.waiting parent bucket found
      · obtain ⟨each, waits, rfl⟩ := List.mem_map.mp member
        exact within.waiting _ vec waiting each waits

theorem Node.Within.sends (within : node.Within crypto origin) {outgoing : Outgoing}
    (sends : Sends crypto node after task outgoing) : outgoing.message.Within crypto origin := by
  cases sends with
  | giveTransaction each tx found =>
      intro other member
      rw [List.mem_singleton.mp member]
      exact within.txPool each tx found
  | giveTransactionBlock each txBlock found =>
      intro other member
      rw [List.mem_singleton.mp member]
      exact within.txBlockPool each txBlock found
  | giveProposerBlock each block found =>
      intro other member
      rw [List.mem_singleton.mp member]
      exact within.blocks each block found
  | addr _ _ | ico _ _ | getTransaction _ _ | relayTransaction _ _ _ | getTransactionBlock _ _
  | relayTransactionBlock _ _ | getProposerBlock _ _ | getParent _ _
  | relayProposerBlock _ _ _ _ => trivial

/-- What every task that runs through keeps holds after the last one, and what is
true of its messages is true of all messages. -/
theorem runTasks_keeps (holds : Node → List Task → Prop) (tells : Outgoing → Prop)
    (step : ∀ node task rest progress, holds node (task :: rest) →
      runTask crypto node task = .ok progress →
        holds progress.node (progress.todo ++ rest) ∧ ∀ outgoing ∈ progress.sent, tells outgoing)
    (node : Node) (todo : List Task) (start : holds node todo)
    (completed : (runTasks crypto node todo).panic = none) :
    holds (runTasks crypto node todo).node [] ∧
      ∀ outgoing ∈ (runTasks crypto node todo).sent, tells outgoing := by
  fun_induction runTasks crypto node todo with
  | case1 node => exact ⟨start, by simp⟩
  | case2 node task rest panicked ran => cases completed
  | case3 node task rest progress ran outcome ih =>
      obtain ⟨kept, said⟩ := step node task rest progress start ran
      obtain ⟨keptToEnd, saidLater⟩ := ih kept completed
      refine ⟨keptToEnd, fun outgoing sent => ?_⟩
      rcases List.mem_append.mp sent with own | later
      · exact said outgoing own
      · exact saidLater outgoing later

/-- Between the tasks for a message everything is well formed and has been chosen. -/
structure Passing (crypto : Crypto) (origin : Origin) (node : Node) (todo : List Task) : Prop where
  formed : node.WellFormed crypto
  grounded : ∀ task ∈ todo, task.Grounded crypto node
  within : node.Within crypto origin
  inside : ∀ task ∈ todo, task.Within crypto origin

theorem Passing.step {rest : List Task} (passing : Passing crypto origin node (task :: rest))
    (effect : Effect crypto node task after todo) :
    Passing crypto origin after (todo ++ rest) := by
  obtain ⟨formed, grows, grounded⟩ :=
    passing.formed.effect (passing.grounded task List.mem_cons_self) effect
  obtain ⟨within, inside⟩ :=
    passing.within.effect passing.formed (passing.inside task List.mem_cons_self) effect
  refine ⟨formed, fun next member => ?_, within, fun next member => ?_⟩
  · rcases List.mem_append.mp member with new | old
    · exact grounded next new
    · exact (passing.grounded next (List.mem_cons_of_mem _ old)).mono grows
  · rcases List.mem_append.mp member with new | old
    · exact inside next new
    · exact passing.inside next (List.mem_cons_of_mem _ old)

theorem Passing.receive (within : node.Within crypto origin) (formed : node.WellFormed crypto)
    (inside : message.Within crypto origin) :
    Passing crypto origin node (message.tasks node) :=
  ⟨formed, message.grounded_tasks formed, within, inside.tasks node⟩

theorem Passing.runTasks (passing : Passing crypto origin node todo)
    (completed : (runTasks crypto node todo).panic = none) :
    Passing crypto origin (SimplifiedPrism.runTasks crypto node todo).node [] ∧
      ∀ outgoing ∈ (SimplifiedPrism.runTasks crypto node todo).sent,
        outgoing.message.Within crypto origin := by
  apply runTasks_keeps (Passing crypto origin)
    (fun outgoing => outgoing.message.Within crypto origin) ?_ node todo passing completed
  intro node task rest progress passing ran
  exact ⟨passing.step (effect_of_run ran),
    fun outgoing sent => passing.within.sends (sends_of_run ran sent)⟩

end Within

/-! ## Making -/

/-- What is new in the maps of a node. -/
def Node.gained (before after : Node) : Origin where
  transaction tx := ∃ hash, after.txPool.lookup hash = some tx ∧
    before.txPool.lookup hash ≠ some tx
  txBlock txBlock := ∃ hash, after.txBlockPool.lookup hash = some txBlock ∧
    before.txBlockPool.lookup hash ≠ some txBlock
  block block := ∃ hash, after.blockchain.blocks.lookup hash = some block ∧
    before.blockchain.blocks.lookup hash ≠ some block

theorem Node.Within.of_gained {origin : Origin} {node after : Node}
    (within : node.Within crypto origin) (gained : (node.gained after).Le origin)
    (keyed : ∀ hash tx, after.txPool.lookup hash = some tx →
      node.txPool.lookup hash = some tx ∨ tx.hash crypto = hash)
    (orphanHandler : after.orphanHandler = node.orphanHandler) : after.Within crypto origin where
  keyed := fun hash tx found => (keyed hash tx found).elim (within.keyed hash tx) id
  txPool := by
    intro hash tx found
    by_cases old : node.txPool.lookup hash = some tx
    · exact within.txPool hash tx old
    · exact gained.transaction tx ⟨hash, found, old⟩
  txBlockPool := by
    intro hash txBlock found
    by_cases old : node.txBlockPool.lookup hash = some txBlock
    · exact within.txBlockPool hash txBlock old
    · exact gained.txBlock txBlock ⟨hash, found, old⟩
  blocks := by
    intro hash block found
    by_cases old : node.blockchain.blocks.lookup hash = some block
    · exact within.blocks hash block old
    · exact .inr (gained.block block ⟨hash, found, old⟩)
  waiting := by
    rw [orphanHandler]
    exact within.waiting

theorem MinerSends.inside {origin : Origin} {node after : Node} {sent : List Outgoing}
    (sends : MinerSends crypto node after sent) :
    ∀ outgoing ∈ sent, outgoing.message.Within crypto origin := by
  intro outgoing member
  cases sends with
  | nothing _ => cases member
  | proposer _ _ | transaction _ _ =>
      rw [List.mem_singleton] at member
      subst member
      trivial

theorem Mined.orphanHandler {node after : Node} {hashed : Option Header}
    (mined : Mined crypto node hashed after) : after.orphanHandler = node.orphanHandler := by
  cases mined with
  | nothing | transaction _ _ _ _ _ _ _ _ _ _ => rfl
  | proposer _ _ _ _ _ _ _ _ _ _ accepts => exact accepts.orphanHandler

theorem Mined.txPool {node after : Node} {hashed : Option Header}
    (mined : Mined crypto node hashed after) {hash : H256} {tx : SignedTransaction}
    (found : after.txPool.lookup hash = some tx) : node.txPool.lookup hash = some tx := by
  cases mined with
  | nothing => exact found
  | transaction _ _ _ _ _ _ _ _ _ kept => exact kept hash tx found
  | proposer _ _ _ _ _ _ _ _ _ _ accepts => exact accepts.txPool hash tx found

/-- One pass of the generator leaves the node alone or adds the transaction that it builds. -/
theorem generateFrom_cases {node next : Node} {currentState : Ledger} {draw : Draw}
    {sent : List Outgoing}
    (passed : generateFrom crypto node currentState draw = .ok (next, sent)) :
    next = node ∨ ∃ coin key newTrans, currentState.lookup draw.outpoint = some coin ∧
      coin.1 ≠ 0 ∧ buildTransaction crypto node.allAddr key draw coin = some newTrans ∧
      next = { node with txPool := node.txPool.insert (newTrans.hash crypto) newTrans } := by
  simp only [generateFrom, bind_eq_ok, index_eq_ok] at passed
  obtain ⟨coin, found, passed⟩ := passed
  split at passed
  · cases passed
    exact .inl rfl
  next key owned =>
  split at passed
  · cases passed
    exact .inl rfl
  next nonzero =>
  simp only [bind_eq_ok, index_eq_ok] at passed
  obtain ⟨newTrans, built, passed⟩ := passed
  cases passed
  exact .inr ⟨coin, key, newTrans, found, nonzero, built, rfl⟩

/-- What a round puts into the pool, with the known addresses that it draws from,
and the hash that it is stored under. -/
theorem built_of_generateAll (currentState : Ledger) (draws : List Draw) (node : Node)
    {hash : H256} {tx : SignedTransaction}
    (found : (generateAll crypto node currentState draws).node.txPool.lookup hash = some tx) :
    node.txPool.lookup hash = some tx ∨ ∃ draw coin key,
      currentState.lookup draw.outpoint = some coin ∧
      buildTransaction crypto node.allAddr key draw coin = some tx ∧ tx.hash crypto = hash := by
  induction draws generalizing node with
  | nil => exact .inl found
  | cons draw draws ih =>
      unfold generateAll at found
      split at found
      · exact .inl found
      next next sent passed =>
      rcases generateFrom_cases passed with rfl | ⟨coin, key, newTrans, present, -, built, rfl⟩
      · exact ih _ found
      rcases ih _ found with earlier | later
      · rw [HashMap.lookup_insert_ite] at earlier
        split at earlier
        · next same =>
            cases earlier
            exact .inr ⟨draw, coin, key, present, built, same.symm⟩
        · exact .inl earlier
      · exact .inr later

namespace Network

variable {Peer : Type*}

/-- The event is not the delivery of a message. -/
def Event.Own : Event Peer → Prop
  | .deliver _ => False
  | _ => True

/-- What the acting peer has made, rather than received. -/
def made (before : Network Peer) (event : Event Peer) (after : Network Peer) : Origin where
  transaction tx := event.Own ∧
    ((before.nodes event.actor).gained (after.nodes event.actor)).transaction tx
  txBlock txBlock := event.Own ∧
    ((before.nodes event.actor).gained (after.nodes event.actor)).txBlock txBlock
  block block := event.Own ∧
    ((before.nodes event.actor).gained (after.nodes event.actor)).block block

/-- Everything that is kept or under way has been chosen. -/
structure Within (crypto : Crypto) (origin : Origin) (network : Network Peer) : Prop where
  formed : ∀ peer, (network.nodes peer).WellFormed crypto
  nodes : ∀ peer, (network.nodes peer).Within crypto origin
  packets : ∀ packet ∈ network.packets, packet.message.Within crypto origin

theorem Within.mono {origin more : Origin} {network : Network Peer}
    (within : network.Within crypto origin) (le : origin.Le more) :
    network.Within crypto more where
  formed := within.formed
  nodes := fun peer => (within.nodes peer).mono le
  packets := fun packet member => (within.packets packet member).mono le

section Step

variable [DecidableEq Peer] {graph : Graph Peer} {origin : Origin}
variable {before after : Network Peer} {event : Event Peer} {outcome : Outcome}

omit [DecidableEq Peer] in
theorem Within.performed (within : before.Within crypto origin)
    (performed : Performed crypto before event outcome) (completed : outcome.panic = none)
    (gained : event.Own → ((before.nodes event.actor).gained outcome.node).Le origin) :
    outcome.node.WellFormed crypto ∧ outcome.node.Within crypto origin ∧
      ∀ outgoing ∈ outcome.sent, outgoing.message.Within crypto origin := by
  have formed := within.formed event.actor
  have inside := within.nodes event.actor
  cases performed with
  | deliver packet underWay _ served =>
      subst served
      obtain ⟨passing, sent⟩ := (Passing.receive inside formed
        (within.packets packet underWay)).runTasks completed
      exact ⟨passing.formed, passing.within, sent⟩
  | mine peer choice progress possible ran =>
      have mined := mined_of_minerLoop possible ran
      exact ⟨(formed.mined mined).1, inside.of_gained (gained trivial)
        (fun _ _ found => .inl (mined.txPool found)) mined.orphanHandler,
        (sends_of_minerLoop ran).inside⟩
  | mineAttacker peer choice progress ran =>
      have mined := mined_of_minerLoopAttacker ran
      exact ⟨(formed.mined mined).1, inside.of_gained (gained trivial)
        (fun _ _ found => .inl (mined.txPool found)) mined.orphanHandler,
        (sends_of_minerLoopAttacker ran).inside⟩
  | generateAddress peer key =>
      refine ⟨{ formed with },
        inside.of_gained (gained trivial) (fun _ _ found => .inl found) rfl,
        fun outgoing sent => ?_⟩
      rw [generateAddress, List.mem_singleton] at sent
      subst sent
      trivial
  | generate peer draws =>
      have sent : ∀ outgoing ∈ (generatorLoop crypto (before.nodes peer) draws).sent,
          outgoing.message.Within crypto origin := by
        intro outgoing isSent
        obtain ⟨hash, rfl⟩ := sends_of_generatorLoop isSent
        trivial
      cases tipState : (before.nodes peer).globState.lookup (before.nodes peer).blockchain.tip with
      | none => simp [generatorLoop, tipState] at completed
      | some ledger =>
          have round : generatorLoop crypto (before.nodes peer) draws =
              generateAll crypto (before.nodes peer) ledger draws := by
            simp [generatorLoop, tipState]
          have generated : Generated crypto (before.nodes peer) ledger
              (generateAll crypto (before.nodes peer) ledger draws).node :=
            generated_of_generateAll draws
          have buffer : (generateAll crypto (before.nodes peer) ledger draws).node.orphanHandler =
              (before.nodes peer).orphanHandler := by rw [generated.onlyPool]
          rw [round] at gained sent ⊢
          refine ⟨formed.generated generated, inside.of_gained (gained trivial) ?_ buffer, sent⟩
          intro hash tx found
          rcases built_of_generateAll ledger draws _ found with
            old | ⟨_, _, _, _, _, keyed⟩
          · exact .inl old
          · exact .inr keyed
  | ico peer =>
      refine ⟨{ formed with },
        inside.of_gained (gained trivial) (fun _ _ found => .inl found) rfl,
        fun outgoing sent => ?_⟩
      rw [handleIcoSignal, List.mem_singleton] at sent
      subst sent
      trivial

/-- An event brings nothing into the network but what it makes. -/
theorem Within.step (within : before.Within crypto origin)
    (made : (before.made event after).Le origin)
    (stepped : before.step crypto graph event = some after) : after.Within crypto origin := by
  obtain ⟨outcome, performs, completed, -, nodes, packets⟩ := step_cases stepped
  have actor : after.nodes event.actor = outcome.node := by rw [nodes, Function.update_self]
  have gained : event.Own → ((before.nodes event.actor).gained outcome.node).Le origin := by
    rw [← actor]
    exact fun own => ⟨fun tx new => made.transaction tx ⟨own, new⟩,
      fun txBlock new => made.txBlock txBlock ⟨own, new⟩,
      fun block new => made.block block ⟨own, new⟩⟩
  obtain ⟨formed, inside, sent⟩ :=
    within.performed (performed_of_perform performs completed) completed gained
  refine ⟨fun peer => ?_, fun peer => ?_, fun packet member => ?_⟩
  · by_cases own : peer = event.actor
    · rwa [own, actor]
    · rw [nodes, Function.update_of_ne own]
      exact within.formed peer
  · by_cases own : peer = event.actor
    · rwa [own, actor]
    · rw [nodes, Function.update_of_ne own]
      exact within.nodes peer
  · rw [packets] at member
    rcases List.mem_append.mp member with old | new
    · exact within.packets packet (mem_of_mem_remaining old)
    · obtain ⟨outgoing, isSent, routed⟩ := List.mem_flatMap.mp new
      obtain ⟨-, ⟨rfl, -⟩ | ⟨rfl, -⟩⟩ := mem_route.mp routed
      · exact sent _ isSent
      · exact sent _ isSent

end Step

end Network

/-! ## Runs -/

section Runs

variable {Peer : Type*} [DecidableEq Peer] {graph : Graph Peer}

/-- What has been made in the first steps of a run. -/
def madeBefore {start : Network Peer → Prop} (run : Run (Network.step crypto graph) start)
    (index : Nat) : Origin where
  transaction tx := ∃ earlier < index,
    ((run.states earlier).made (run.actions earlier) (run.states (earlier + 1))).transaction tx
  txBlock txBlock := ∃ earlier < index,
    ((run.states earlier).made (run.actions earlier) (run.states (earlier + 1))).txBlock txBlock
  block block := ∃ earlier < index,
    ((run.states earlier).made (run.actions earlier) (run.states (earlier + 1))).block block

theorem madeBefore_le {start : Network Peer → Prop} (run : Run (Network.step crypto graph) start)
    {index later : Nat} (bound : index ≤ later) :
    (madeBefore run index).Le (madeBefore run later) := by
  constructor
  all_goals
    rintro each ⟨earlier, before, made⟩
    exact ⟨earlier, Nat.lt_of_lt_of_le before bound, made⟩

/-- What has been made in a run is in any lists that have what is new after each step. -/
theorem madeBefore_of_entries {start : Network Peer → Prop}
    (run : Run (Network.step crypto graph) start) {blocks : List ProposerBlock}
    {txBlocks : List TXBlock}
    (newBlocks : ∀ index < run.length, ∀ entry ∈
      ((run.states (index + 1)).nodes (run.actions index).actor).blockchain.blocks.entries,
        ((run.states index).nodes (run.actions index).actor).blockchain.blocks.lookup entry.1 =
          some entry.2 ∨ entry.2 ∈ blocks)
    (newTxBlocks : ∀ index < run.length, ∀ entry ∈
      ((run.states (index + 1)).nodes (run.actions index).actor).txBlockPool.entries,
        ((run.states index).nodes (run.actions index).actor).txBlockPool.lookup entry.1 =
          some entry.2 ∨ entry.2 ∈ txBlocks) :
    (∀ block, (madeBefore run run.length).block block → block ∈ blocks) ∧
      ∀ txBlock, (madeBefore run run.length).txBlock txBlock → txBlock ∈ txBlocks := by
  constructor
  · rintro block ⟨index, bound, -, hash, found, new⟩
    exact (newBlocks index bound ⟨hash, block⟩
      ((HashMap.mem_entries_iff _ hash block).mpr found)).resolve_left new
  · rintro txBlock ⟨index, bound, -, hash, found, new⟩
    exact (newTxBlocks index bound ⟨hash, txBlock⟩
      ((HashMap.mem_entries_iff _ hash txBlock).mpr found)).resolve_left new

/-- What has been made in a run is also in any list that has the transactions that are
new after each step. -/
theorem transaction_of_entries {start : Network Peer → Prop}
    (run : Run (Network.step crypto graph) start) {txs : List SignedTransaction}
    (newTxs : ∀ index < run.length, ∀ entry ∈
      ((run.states (index + 1)).nodes (run.actions index).actor).txPool.entries,
        ((run.states index).nodes (run.actions index).actor).txPool.lookup entry.1 =
          some entry.2 ∨ entry.2 ∈ txs) :
    ∀ tx, (madeBefore run run.length).transaction tx → tx ∈ txs := by
  rintro tx ⟨index, bound, -, hash, found, new⟩
  exact (newTxs index bound ⟨hash, tx⟩ ((HashMap.mem_entries_iff _ hash tx).mpr found)).resolve_left
    new

omit [DecidableEq Peer] in
theorem Network.Initial.within {network : Network Peer} (start : network.Initial crypto)
    (origin : Origin) : network.Within crypto origin := by
  obtain ⟨nodes, packets⟩ := start
  refine ⟨fun peer => ?_, fun peer => ?_, by simp [packets]⟩
  · rw [nodes]
    have initial : SimplifiedPrism.Initial crypto ⟨Node.initial crypto [] ∅, [], H256.zero⟩ :=
      ⟨rfl, rfl, [], ∅, rfl⟩
    exact initial.wellFormed.node
  · rw [nodes]
    refine ⟨by simp [Node.initial], by simp [Node.initial], by simp [Node.initial],
      fun hash block found => .inl ?_, by simp [Node.initial]⟩
    simp only [Node.initial, Blockchain.new, HashMap.lookup_insert_ite] at found
    split at found
    · cases found
      rfl
    · simp at found

/-- Whatever is kept or under way was made earlier in the run. -/
theorem within_of_run (run : Run (Network.step crypto graph) (Network.Initial crypto)) :
    ∀ index ≤ run.length, (run.states index).Within crypto (madeBefore run index) := by
  intro index bound
  induction index with
  | zero => exact run.starts.within _
  | succ index ih =>
      have within := (ih (by omega)).mono (madeBefore_le run (Nat.le_succ index))
      refine within.step ?_ (run.steps index (by omega))
      exact ⟨fun tx made => ⟨index, by omega, made⟩, fun txBlock made => ⟨index, by omega, made⟩,
        fun block made => ⟨index, by omega, made⟩⟩

end Runs

end SimplifiedPrism
