import Mathlib.Data.Fintype.Defs
import SimplifiedPrism.Invariants

/-!
# A network of nodes

Nodes are connected by a fixed graph.  A broadcast puts a message on the way to
every connected peer and a reply puts one on the way back.  The messages under
way are delivered one at a time and in any order; between deliveries a node may
mine, generate transactions or addresses, or make its offering.  `Sends` lists
what a worker sends, as `Effect` lists what it does to the maps.
-/

namespace SimplifiedPrism

/-- The connections: the peer list of every node.  A connection has two ends. -/
structure Graph (Peer : Type*) where
  peers : Peer → List Peer
  symmetric : ∀ first second, second ∈ peers first → first ∈ peers second

/-- A message under way. -/
structure Packet (Peer : Type*) where
  source : Peer
  dest : Peer
  message : Message
deriving DecidableEq

structure Network (Peer : Type*) where
  nodes : Peer → Node
  packets : List (Packet Peer)

/-- What can happen in a network. -/
inductive Network.Event (Peer : Type*)
  | deliver (packet : Packet Peer)
  | mine (peer : Peer) (choice : MinerChoice)
  | mineAttacker (peer : Peer) (choice : MinerChoice)
  | generateAddress (peer : Peer) (key : KeyPair)
  | generate (peer : Peer) (draws : List Draw)
  | ico (peer : Peer)

namespace Network

variable {Peer : Type*}

/-- The peer whose turn it is. -/
def Event.actor : Event Peer → Peer
  | .deliver packet => packet.dest
  | .mine peer _ | .mineAttacker peer _ | .generateAddress peer _ | .generate peer _
  | .ico peer => peer

/-- The peer that `write` answers. -/
def Event.replyTo : Event Peer → Option Peer
  | .deliver packet => some packet.source
  | _ => none

/-- An iteration of a loop as an outcome; a panic is left to the worker model. -/
def outcomeOf : Except Panicked Progress → Outcome
  | .ok progress => { node := progress.node, sent := progress.sent }
  | .error panicked => { node := panicked.node, panic := some panicked.panic }

variable [DecidableEq Peer] (crypto : Crypto)

/-- What the acting peer does.  Whether the tip has changed since the last round
of the generator is left open. -/
def perform (network : Network Peer) : Event Peer → Option Outcome
  | .deliver packet =>
      if packet ∈ network.packets then
        some (workerLoop crypto (network.nodes packet.dest) packet.message)
      else
        none
  | .mine peer choice =>
      if choice.Possible (network.nodes peer) then
        some (outcomeOf (minerLoop crypto (network.nodes peer) choice))
      else
        none
  | .mineAttacker peer choice =>
      some (outcomeOf (minerLoopAttacker crypto (network.nodes peer) choice))
  | .generateAddress peer key =>
      some (outcomeOf (.ok (generateAddress crypto (network.nodes peer) key)))
  | .generate peer draws =>
      if DrawsPossible (network.nodes peer) draws then
        some (generatorLoop crypto (network.nodes peer) draws)
      else
        none
  | .ico peer => some (outcomeOf (.ok (handleIcoSignal (network.nodes peer))))

/-- The packets that an event leaves under way. -/
def remaining (network : Network Peer) : Event Peer → List (Packet Peer)
  | .deliver packet => network.packets.erase packet
  | _ => network.packets

/-- The packets that a message makes: a broadcast goes to every connected peer. -/
def route (graph : Graph Peer) (event : Event Peer) : Outgoing → List (Packet Peer)
  | .broadcast message => (graph.peers event.actor).map fun dest => ⟨event.actor, dest, message⟩
  | .write message => event.replyTo.toList.map fun dest => ⟨event.actor, dest, message⟩

variable (graph : Graph Peer)

/-- The step function of a network, for events in which no thread panics. -/
def step (network : Network Peer) (event : Event Peer) : Option (Network Peer) :=
  (network.perform crypto event).bind fun outcome =>
    if outcome.panic = none then
      some
        { nodes := Function.update network.nodes event.actor outcome.node
          packets := network.remaining event ++ outcome.sent.flatMap (route graph event) }
    else
      none

/-! ## What an event does -/

variable {crypto graph} {before after : Network Peer} {event : Event Peer}

/-- The messages that the acting peer sends. -/
def sent (crypto : Crypto) (network : Network Peer) (event : Event Peer) : List Outgoing :=
  match network.perform crypto event with
  | some outcome => outcome.sent
  | none => []

theorem step_cases (stepped : before.step crypto graph event = some after) :
    ∃ outcome, before.perform crypto event = some outcome ∧ outcome.panic = none ∧
      before.sent crypto event = outcome.sent ∧
      after.nodes = Function.update before.nodes event.actor outcome.node ∧
      after.packets = before.remaining event ++ outcome.sent.flatMap (route graph event) := by
  simp only [step, Option.bind_eq_some_iff, Option.ite_none_right_eq_some,
    Option.some.injEq] at stepped
  obtain ⟨outcome, performed, completed, rfl⟩ := stepped
  exact ⟨outcome, performed, completed, by rw [sent, performed], rfl, rfl⟩

theorem mem_remaining (event : Event Peer) {packet : Packet Peer}
    (member : packet ∈ before.packets) :
    packet ∈ before.remaining event ∨ event = .deliver packet := by
  cases event with
  | deliver delivered =>
      by_cases same : packet = delivered
      · exact .inr (congrArg Event.deliver same.symm)
      · exact .inl ((List.mem_erase_of_ne same).mpr member)
  | mine _ _ | mineAttacker _ _ | generateAddress _ _ | generate _ _ | ico _ => exact .inl member

theorem mem_of_mem_remaining {packet : Packet Peer} (member : packet ∈ before.remaining event) :
    packet ∈ before.packets := by
  cases event with
  | deliver delivered => exact List.mem_of_mem_erase member
  | mine _ _ | mineAttacker _ _ | generateAddress _ _ | generate _ _ | ico _ => exact member

omit [DecidableEq Peer] in
theorem mem_route {packet : Packet Peer} {outgoing : Outgoing} :
    packet ∈ route graph event outgoing ↔ packet.source = event.actor ∧
      (outgoing = .broadcast packet.message ∧ packet.dest ∈ graph.peers event.actor ∨
        outgoing = .write packet.message ∧ event.replyTo = some packet.dest) := by
  obtain ⟨source, dest, message⟩ := packet
  cases outgoing with
  | broadcast other =>
      simp only [route, List.mem_map, Packet.mk.injEq]
      constructor
      · rintro ⟨peer, connected, rfl, rfl, rfl⟩
        exact ⟨rfl, .inl ⟨rfl, connected⟩⟩
      · rintro ⟨rfl, ⟨same, connected⟩ | ⟨impossible, -⟩⟩
        · cases same
          exact ⟨dest, connected, rfl, rfl, rfl⟩
        · cases impossible
  | write other =>
      simp only [route, List.mem_map, Option.mem_toList, Packet.mk.injEq]
      constructor
      · rintro ⟨peer, answered, rfl, rfl, rfl⟩
        exact ⟨rfl, .inr ⟨rfl, answered⟩⟩
      · rintro ⟨rfl, ⟨impossible, -⟩ | ⟨same, answered⟩⟩
        · cases impossible
        · cases same
          exact ⟨dest, answered, rfl, rfl, rfl⟩

/-- Every packet runs along a connection. -/
def Connected (graph : Graph Peer) (network : Network Peer) : Prop :=
  ∀ packet ∈ network.packets, packet.dest ∈ graph.peers packet.source

theorem Connected.step (connected : before.Connected graph)
    (stepped : before.step crypto graph event = some after) : after.Connected graph := by
  obtain ⟨outcome, performed, -, -, -, packets⟩ := step_cases stepped
  intro packet member
  rw [packets, List.mem_append, List.mem_flatMap] at member
  rcases member with old | ⟨outgoing, -, routed⟩
  · exact connected packet (mem_of_mem_remaining old)
  obtain ⟨source, ⟨-, toPeer⟩ | ⟨-, answered⟩⟩ := mem_route.mp routed
  · rw [source]
    exact toPeer
  · cases event with
    | deliver delivered =>
        simp only [perform, Option.ite_none_right_eq_some] at performed
        simp only [Event.replyTo, Option.some.injEq] at answered
        rw [source, ← answered]
        exact graph.symmetric _ _ (connected delivered performed.1)
    | mine _ _ | mineAttacker _ _ | generateAddress _ _ | generate _ _ | ico _ => cases answered

end Network

/-! ## What a worker sends -/

/-- Every message that a task can send, by the maps before and after it. -/
inductive Sends (crypto : Crypto) (before after : Node) : Task → Outgoing → Prop
  | addr (each : H160) (fresh : each ∉ before.allAddr) :
      Sends crypto before after (.addr each) (.broadcast (.newAddr after.allAddr))
  | ico (genesisHash : H256) (icoState : Ledger) :
      Sends crypto before after (.ico genesisHash icoState)
        (.broadcast (.ico genesisHash icoState))
  | getTransaction (each : H256) (absent : each ∉ before.txPool) :
      Sends crypto before after (.announcedTransaction each) (.write (.getTransactions [each]))
  | giveTransaction (each : H256) (tx : SignedTransaction)
      (found : before.txPool.lookup each = some tx) :
      Sends crypto before after (.requestedTransaction each) (.write (.transactions [tx]))
  | relayTransaction (tip : H256) (each : SignedTransaction)
      (pooled : each.hash crypto ∈ after.txPool) :
      Sends crypto before after (.transaction tip each)
        (.broadcast (.newTransactionHashes [each.hash crypto]))
  | getTransactionBlock (each : H256) (absent : each ∉ before.txBlockPool) :
      Sends crypto before after (.announcedTransactionBlock each)
        (.write (.getTransactionBlocks [each]))
  | giveTransactionBlock (each : H256) (block : TXBlock)
      (found : before.txBlockPool.lookup each = some block) :
      Sends crypto before after (.requestedTransactionBlock each)
        (.write (.transactionBlocks [block]))
  | relayTransactionBlock (each : TXBlock) (pooled : each.hash crypto ∈ after.txBlockPool) :
      Sends crypto before after (.transactionBlock each)
        (.broadcast (.newTransactionBlockHashes [each.hash crypto]))
  | getProposerBlock (each : H256) (absent : each ∉ before.blockchain.blocks) :
      Sends crypto before after (.announcedProposerBlock each) (.write (.getProposerBlocks [each]))
  | giveProposerBlock (each : H256) (block : ProposerBlock)
      (found : before.blockchain.blocks.lookup each = some block) :
      Sends crypto before after (.requestedProposerBlock each) (.write (.proposerBlocks [block]))
  | getParent (each : ProposerBlock)
      (absent : each.header.proposerParent ∉ before.blockchain.blocks) :
      Sends crypto before after (.proposerBlock each)
        (.write (.getProposerBlocks [each.header.proposerParent]))
  | relayProposerBlock (task : Task) (each : ProposerBlock)
      (checks : Checks crypto before task each)
      (known : each.hash crypto ∈ after.blockchain.blocks) :
      Sends crypto before after task (.broadcast (.newProposerBlockHashes [each.hash crypto]))

variable {crypto : Crypto}

section Sends

variable {node : Node} {task : Task} {progress : Progress} {outgoing : Outgoing}

/-- A block that goes through the acceptance code is left out without a message,
or is relayed. -/
theorem sent_of_accept {each : ProposerBlock}
    (ran : acceptProposerBlock crypto node each = .ok progress) :
    (progress.node = node ∧ progress.sent = []) ∨
      (applyProposerBlock crypto node each = .ok progress.node ∧
        progress.sent = [.broadcast (.newProposerBlockHashes [each.hash crypto])]) := by
  simp only [acceptProposerBlock, bind_eq_ok] at ran
  obtain ⟨valid, -, ran⟩ := ran
  cases valid with
  | false =>
      cases ran
      exact .inl ⟨rfl, rfl⟩
  | true =>
      simp only [Bool.true_eq_false, if_false, bind_eq_ok] at ran
      obtain ⟨after, applied, ran⟩ := ran
      cases ran
      exact .inr ⟨applied, rfl⟩

private theorem sends_of_accept {each : ProposerBlock} (checks : Checks crypto node task each)
    (ran : acceptProposerBlock crypto node each = .ok progress)
    (sent : outgoing ∈ progress.sent) : Sends crypto node progress.node task outgoing := by
  rcases sent_of_accept ran with ⟨-, nothing⟩ | ⟨applied, relayed⟩
  · rw [nothing] at sent
    cases sent
  · rw [relayed, List.mem_singleton] at sent
    obtain ⟨_, _, _, accepts⟩ := accepts_of_apply applied
    subst sent
    exact .relayProposerBlock task each checks accepts.hash_mem

private theorem sends_of_transaction {tip : H256} {each : SignedTransaction}
    (ran : handleTransaction crypto node tip each = .ok progress)
    (sent : outgoing ∈ progress.sent) :
    Sends crypto node progress.node (.transaction tip each) outgoing := by
  unfold handleTransaction at ran
  split at ran
  · cases ran
    cases sent
  split at ran
  · cases ran
    cases sent
  simp only [bind_eq_ok] at ran
  obtain ⟨_, -, _, -, ran⟩ := ran
  split at ran
  · cases ran
    cases sent
  simp only [bind_eq_ok] at ran
  obtain ⟨_, -, ran⟩ := ran
  split at ran
  · cases ran
    cases sent
  simp only [bind_eq_ok] at ran
  obtain ⟨_, -, ran⟩ := ran
  split at ran
  · cases ran
    cases sent
  cases ran
  rw [List.mem_singleton] at sent
  subst sent
  exact .relayTransaction tip each (Finmap.mem_insert.mpr (.inl rfl))

/-- Every message of a task that runs through is listed. -/
theorem sends_of_run (ran : runTask crypto node task = .ok progress)
    (sent : outgoing ∈ progress.sent) : Sends crypto node progress.node task outgoing := by
  cases task with
  | addr each =>
      cases ran
      unfold handleAddr at sent ⊢
      split at sent
      · cases sent
      · next fresh =>
          rw [if_neg fresh]
          rw [List.mem_singleton] at sent
          subst sent
          exact .addr each fresh
  | ico genesisHash icoState =>
      cases ran
      unfold handleIco at sent
      split at sent
      · rw [List.mem_singleton] at sent
        subst sent
        exact .ico genesisHash icoState
      · cases sent
  | announcedTransaction each =>
      cases ran
      dsimp only at sent
      split at sent
      · cases sent
      · next absent =>
          rw [List.mem_singleton] at sent
          subst sent
          exact .getTransaction each absent
  | requestedTransaction each =>
      cases ran
      obtain ⟨tx, found, rfl⟩ := List.mem_map.mp sent
      exact .giveTransaction each tx (Option.mem_toList.mp found)
  | transaction tip each => exact sends_of_transaction ran sent
  | announcedTransactionBlock each =>
      cases ran
      dsimp only at sent
      split at sent
      · cases sent
      · next absent =>
          rw [List.mem_singleton] at sent
          subst sent
          exact .getTransactionBlock each absent
  | requestedTransactionBlock each =>
      cases ran
      obtain ⟨block, found, rfl⟩ := List.mem_map.mp sent
      exact .giveTransactionBlock each block (Option.mem_toList.mp found)
  | transactionBlock each =>
      cases ran
      unfold handleTransactionBlock at sent ⊢
      split at sent
      · cases sent
      next unknown =>
      split at sent
      · cases sent
      next work =>
      split at sent
      · cases sent
      next notProposer =>
      rw [if_neg unknown, if_neg work, if_neg notProposer]
      rw [List.mem_singleton] at sent
      subst sent
      exact .relayTransactionBlock each (Finmap.mem_insert.mpr (.inl rfl))
  | announcedProposerBlock each =>
      cases ran
      dsimp only at sent
      split at sent
      · cases sent
      · next absent =>
          rw [List.mem_singleton] at sent
          subst sent
          exact .getProposerBlock each absent
  | requestedProposerBlock each =>
      cases ran
      obtain ⟨block, found, rfl⟩ := List.mem_map.mp sent
      exact .giveProposerBlock each block (Option.mem_toList.mp found)
  | proposerBlock each =>
      rw [runTask, handleProposerBlock] at ran
      split at ran
      · cases ran
        cases sent
      next unknown =>
      split at ran
      · cases ran
        cases sent
      next work =>
      split at ran
      · next parentMissing =>
          cases ran
          rw [List.mem_singleton] at sent
          subst sent
          exact .getParent each parentMissing
      · next parentKnown =>
          exact sends_of_accept (.received each unknown work (not_not.mp parentKnown)) ran sent
  | newParent block =>
      cases ran
      unfold handleNewParent at sent
      split at sent <;> cases sent
  | orphan each => exact sends_of_accept (.orphan each) ran sent

end Sends

/-! ## What the miner and the generator send -/

/-- The messages of an iteration of a miner, by what it does to the tree. -/
inductive MinerSends (crypto : Crypto) (before after : Node) : List Outgoing → Prop
  | nothing (same : after = before) : MinerSends crypto before after []
  | proposer (newBlock : ProposerBlock)
      (inserted : before.blockchain.insert crypto newBlock = .ok after.blockchain) :
      MinerSends crypto before after
        [.broadcast (.newProposerBlockHashes [newBlock.hash crypto])]
  | transaction (newBlock : TXBlock) (same : after.blockchain = before.blockchain) :
      MinerSends crypto before after
        [.broadcast (.newTransactionBlockHashes [newBlock.hash crypto])]

section Others

variable {node : Node} {choice : MinerChoice} {progress : Progress}

theorem inserted_of_publish {newBlock : ProposerBlock} {pointedTxBlocks : List H256}
    {currState : Ledger} {after : Node}
    (published : publishProposerBlock crypto node newBlock pointedTxBlocks currState =
      .ok after) :
    node.blockchain.insert crypto newBlock = .ok after.blockchain := by
  simp only [publishProposerBlock, bind_eq_ok] at published
  obtain ⟨_, -, _, -, inserted⟩ := published
  obtain ⟨blockchain, chained, rfl⟩ := Node.insertBlock_ok inserted
  exact chained

theorem sends_of_minerLoop (ran : minerLoop crypto node choice = .ok progress) :
    MinerSends crypto node progress.node progress.sent := by
  simp only [minerLoop, bind_eq_ok] at ran
  obtain ⟨_, -, _, -, _, -, header, -, ran⟩ := ran
  split at ran
  · split at ran
    · cases ran
      exact .nothing rfl
    · simp only [bind_eq_ok] at ran
      obtain ⟨after, published, ran⟩ := ran
      cases ran
      exact .proposer _ (inserted_of_publish published)
  · split at ran
    · split at ran
      · cases ran
        exact .nothing rfl
      · cases ran
        exact .transaction _ rfl
    · cases ran
      exact .nothing rfl

theorem sends_of_minerLoopAttacker (ran : minerLoopAttacker crypto node choice = .ok progress) :
    MinerSends crypto node progress.node progress.sent := by
  simp only [minerLoopAttacker, bind_eq_ok] at ran
  obtain ⟨_, -, _, -, header, -, ran⟩ := ran
  split at ran
  · simp only [bind_eq_ok] at ran
    obtain ⟨after, inserted, ran⟩ := ran
    cases ran
    obtain ⟨blockchain, chained, rfl⟩ := Node.insertBlock_ok inserted
    exact .proposer _ chained
  · split at ran
    · cases ran
      exact .transaction _ rfl
    · cases ran
      exact .nothing rfl

theorem sends_of_generateAll (currentState : Ledger) (draws : List Draw) (node : Node) :
    ∀ outgoing ∈ (generateAll crypto node currentState draws).sent,
      ∃ hash, outgoing = .broadcast (.newTransactionHashes [hash]) := by
  induction draws generalizing node with
  | nil => simp [generateAll]
  | cons draw draws ih =>
      intro outgoing sent
      unfold generateAll at sent
      split at sent
      · cases sent
      next next first passed =>
      rcases List.mem_append.mp sent with own | later
      · simp only [generateFrom, bind_eq_ok] at passed
        obtain ⟨_, -, passed⟩ := passed
        split at passed
        · cases passed
          cases own
        split at passed
        · cases passed
          cases own
        simp only [bind_eq_ok] at passed
        obtain ⟨newTrans, -, passed⟩ := passed
        cases passed
        exact ⟨_, List.mem_singleton.mp own⟩
      · exact ih next outgoing later

theorem sends_of_generatorLoop {draws : List Draw} {outgoing : Outgoing}
    (sent : outgoing ∈ (generatorLoop crypto node draws).sent) :
    ∃ hash, outgoing = .broadcast (.newTransactionHashes [hash]) := by
  unfold generatorLoop at sent
  split at sent
  · cases sent
  · exact sends_of_generateAll _ draws node outgoing sent

end Others

/-- Everything that an event can do to the acting peer. -/
inductive Performed {Peer : Type*} (crypto : Crypto) (network : Network Peer) :
    Network.Event Peer → Outcome → Prop
  | deliver (packet : Packet Peer) (underWay : packet ∈ network.packets) (outcome : Outcome)
      (served : workerLoop crypto (network.nodes packet.dest) packet.message = outcome) :
      Performed crypto network (.deliver packet) outcome
  | mine (peer : Peer) (choice : MinerChoice) (progress : Progress)
      (possible : choice.Possible (network.nodes peer))
      (ran : minerLoop crypto (network.nodes peer) choice = .ok progress) :
      Performed crypto network (.mine peer choice) ⟨progress.node, progress.sent, none⟩
  | mineAttacker (peer : Peer) (choice : MinerChoice) (progress : Progress)
      (ran : minerLoopAttacker crypto (network.nodes peer) choice = .ok progress) :
      Performed crypto network (.mineAttacker peer choice) ⟨progress.node, progress.sent, none⟩
  | generateAddress (peer : Peer) (key : KeyPair) :
      Performed crypto network (.generateAddress peer key)
        ⟨(generateAddress crypto (network.nodes peer) key).node,
          (generateAddress crypto (network.nodes peer) key).sent, none⟩
  | generate (peer : Peer) (draws : List Draw) :
      Performed crypto network (.generate peer draws)
        (generatorLoop crypto (network.nodes peer) draws)
  | ico (peer : Peer) :
      Performed crypto network (.ico peer)
        ⟨(handleIcoSignal (network.nodes peer)).node,
          (handleIcoSignal (network.nodes peer)).sent, none⟩

theorem performed_of_perform {Peer : Type*} [DecidableEq Peer] {network : Network Peer}
    {event : Network.Event Peer} {outcome : Outcome}
    (performs : network.perform crypto event = some outcome) (completed : outcome.panic = none) :
    Performed crypto network event outcome := by
  cases event with
  | deliver packet =>
      simp only [Network.perform, Option.ite_none_right_eq_some, Option.some.injEq] at performs
      exact .deliver packet performs.1 outcome performs.2
  | mine peer choice =>
      simp only [Network.perform, Option.ite_none_right_eq_some, Option.some.injEq] at performs
      obtain ⟨possible, rfl⟩ := performs
      cases ran : minerLoop crypto (network.nodes peer) choice with
      | ok progress => exact .mine peer choice progress possible ran
      | error panicked =>
          rw [ran] at completed
          cases completed
  | mineAttacker peer choice =>
      simp only [Network.perform, Option.some.injEq] at performs
      subst performs
      cases ran : minerLoopAttacker crypto (network.nodes peer) choice with
      | ok progress => exact .mineAttacker peer choice progress ran
      | error panicked =>
          rw [ran] at completed
          cases completed
  | generateAddress peer key =>
      simp only [Network.perform, Option.some.injEq] at performs
      subst performs
      exact .generateAddress peer key
  | generate peer draws =>
      simp only [Network.perform, Option.ite_none_right_eq_some, Option.some.injEq] at performs
      obtain ⟨-, rfl⟩ := performs
      exact .generate peer draws
  | ico peer =>
      simp only [Network.perform, Option.some.injEq] at performs
      subst performs
      exact .ico peer

/-! ## Three nodes -/

inductive Place
  | left
  | middle
  | right
deriving DecidableEq, Inhabited

instance : Fintype Place where
  elems := {.left, .middle, .right}
  complete := by
    intro place
    cases place <;> decide

def rowPeers : Place → List Place
  | .left => [.middle]
  | .middle => [.left, .right]
  | .right => [.middle]

/-- Three nodes in a row. -/
def Graph.row : Graph Place where
  peers := rowPeers
  symmetric := by decide

instance Network.Event.inhabited {Peer : Type*} [Inhabited Peer] :
    Inhabited (Network.Event Peer) :=
  ⟨.ico default⟩

end SimplifiedPrism
