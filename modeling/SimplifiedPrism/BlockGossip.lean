import SimplifiedPrism.BlockRelay

/-!
# The gossip of proposer blocks

A node announces every block that enters its tree, a neighbour that lacks it
asks for it, and a block without parent waits in the buffer.  Every block that a
node has is known to its neighbours, or announced, asked for or on the way to
them, or waits there.  When no such message is under way, what waits at a
neighbour leads back to a block that does not wait, so nothing waits and
neighbours have the same blocks.
-/

namespace SimplifiedPrism

variable {crypto : Crypto}

/-! ## The network -/

namespace Network

variable {Peer : Type*}

/-- The peer has the block, and it is not genesis. -/
def Stores (crypto : Crypto) (network : Network Peer) (peer : Peer) (block : ProposerBlock) :
    Prop :=
  (network.nodes peer).blockchain.blocks.lookup (block.hash crypto) = some block ∧
    block.hash crypto ≠ genesisHash crypto

/-- A neighbour of the peer has the block. -/
def FromNeighbour (crypto : Crypto) (graph : Graph Peer) (network : Network Peer) (peer : Peer)
    (block : ProposerBlock) : Prop :=
  ∃ neighbour, peer ∈ graph.peers neighbour ∧ network.Stores crypto neighbour block

/-- A block of the first peer is on its way into the tree of the second. -/
inductive InProgress (crypto : Crypto) (network : Network Peer) (first second : Peer)
    (hash : H256) : Prop
  | announced (message : Message) (underWay : ⟨first, second, message⟩ ∈ network.packets)
      (within : hash ∈ message.announcedBlocks)
  | asked (message : Message) (underWay : ⟨second, first, message⟩ ∈ network.packets)
      (within : hash ∈ message.askedBlocks)
  | given (message : Message) (underWay : ⟨first, second, message⟩ ∈ network.packets)
      (block : ProposerBlock) (within : block ∈ message.givenBlocks)
      (same : block.hash crypto = hash)
  | waiting (block : ProposerBlock) (waits : (network.nodes second).Waits block)
      (same : block.hash crypto = hash)

end Network

/-- The invariant of the gossip. -/
structure BlockGossip {Peer : Type*} (crypto : Crypto) (graph : Graph Peer)
    (network : Network Peer) : Prop where
  connected : network.Connected graph
  formed : ∀ peer, (network.nodes peer).WellFormed crypto
  published : ∀ peer, (network.nodes peer).Published
  coherent : ∀ first second hash block other,
    (network.nodes first).blockchain.blocks.lookup hash = some block →
    (network.nodes second).blockchain.blocks.lookup hash = some other → block = other
  work : ∀ peer block, network.Stores crypto peer block →
    ¬ block.hash crypto > block.header.proposerDifficulty
  buffered : ∀ peer parent bucket,
    (network.nodes peer).orphanHandler.lookup parent = some bucket → ∀ block ∈ bucket,
      network.FromNeighbour crypto graph peer block ∧
        PoolReady crypto {block} (network.nodes peer).txBlockPool
  nothingLost : ∀ peer, NothingLost crypto [] (network.nodes peer) []
  given : ∀ packet ∈ network.packets, ∀ block ∈ packet.message.givenBlocks,
    network.Stores crypto packet.source block
  asked : ∀ packet ∈ network.packets, ∀ hash ∈ packet.message.askedBlocks,
    hash ≠ genesisHash crypto
  edge : ∀ first second, second ∈ graph.peers first →
    ∀ hash ∈ (network.nodes first).blockchain.blocks,
      hash ∈ (network.nodes second).blockchain.blocks ∨
        network.InProgress crypto first second hash
  ranked : ∃ rank : H256 → Nat, ∀ peer block, network.Stores crypto peer block →
    rank block.header.proposerParent < rank (block.hash crypto)

/-- What an event does to the acting peer, as far as the gossip is concerned. -/
structure Advance {Peer : Type*} (crypto : Crypto) (graph : Graph Peer) (network : Network Peer)
    (event : Network.Event Peer) (after : Node) (sent : List Outgoing) : Prop where
  formed : after.WellFormed crypto
  published : after.Published
  relays : Relays (network.nodes event.actor) after sent
  entries : ∀ hash block, after.blockchain.blocks.lookup hash = some block →
    (∃ peer, (network.nodes peer).blockchain.blocks.lookup hash = some block) ∨
      (∀ peer, hash ∉ (network.nodes peer).blockchain.blocks) ∧
        ¬ hash > block.header.proposerDifficulty ∧
        block.header.proposerParent ∈ (network.nodes event.actor).blockchain.blocks
  buffered : ∀ parent bucket, after.orphanHandler.lookup parent = some bucket →
    ∀ block ∈ bucket, network.FromNeighbour crypto graph event.actor block ∧
      PoolReady crypto {block} after.txBlockPool
  nothingLost : NothingLost crypto [] after []
  waits : ∀ block, (network.nodes event.actor).Waits block →
    block.hash crypto ∈ after.blockchain.blocks ∨ after.Waits block
  gives : ∀ outgoing ∈ sent, ∀ block ∈ outgoing.message.givenBlocks,
    after.blockchain.blocks.lookup (block.hash crypto) = some block ∧
      block.hash crypto ≠ genesisHash crypto
  announced : ∀ packet, event = .deliver packet → ∀ hash ∈ packet.message.announcedBlocks,
    hash ∈ after.blockchain.blocks ∨
      ∃ message, .write message ∈ sent ∧ hash ∈ message.askedBlocks
  asked : ∀ packet, event = .deliver packet → ∀ hash ∈ packet.message.askedBlocks,
    hash ∈ (network.nodes event.actor).blockchain.blocks →
      ∃ message, .write message ∈ sent ∧
        ∃ block ∈ message.givenBlocks, block.hash crypto = hash
  given : ∀ packet, event = .deliver packet → ∀ block ∈ packet.message.givenBlocks,
    block.hash crypto ∈ after.blockchain.blocks ∨ after.Waits block

section Advance

variable {Peer : Type*} [DecidableEq Peer] {graph : Graph Peer}
variable {before after : Network Peer} {event : Network.Event Peer} {node : Node}
variable {sent : List Outgoing}

/-- The next network, when the acting peer has advanced. -/
structure Advances (crypto : Crypto) (graph : Graph Peer) (before : Network Peer)
    (event : Network.Event Peer) (node : Node) (sent : List Outgoing) (after : Network Peer) :
    Prop extends Advance crypto graph before event node sent where
  nodes : after.nodes = Function.update before.nodes event.actor node
  packets : after.packets = before.remaining event ++ sent.flatMap (Network.route graph event)

namespace Advances

theorem actor (advances : Advances crypto graph before event node sent after) :
    after.nodes event.actor = node := by
  rw [advances.nodes, Function.update_self]

theorem other (advances : Advances crypto graph before event node sent after) {peer : Peer}
    (other : peer ≠ event.actor) : after.nodes peer = before.nodes peer := by
  rw [advances.nodes, Function.update_of_ne other]

/-- An entry of a tree was there, or is that of a block no tree had. -/
theorem entry (advances : Advances crypto graph before event node sent after) {peer : Peer}
    {hash : H256} {block : ProposerBlock}
    (found : (after.nodes peer).blockchain.blocks.lookup hash = some block) :
    (∃ earlier, (before.nodes earlier).blockchain.blocks.lookup hash = some block) ∨
      peer = event.actor ∧ (∀ earlier, hash ∉ (before.nodes earlier).blockchain.blocks) ∧
        ¬ hash > block.header.proposerDifficulty ∧
        block.header.proposerParent ∈ (before.nodes event.actor).blockchain.blocks := by
  by_cases own : peer = event.actor
  · subst own
    rw [advances.actor] at found
    rcases advances.entries hash block found with earlier | new
    · exact .inl earlier
    · exact .inr ⟨rfl, new⟩
  · rw [advances.other own] at found
    exact .inl ⟨peer, found⟩

theorem keeps (advances : Advances crypto graph before event node sent after)
    (gossip : BlockGossip crypto graph before) {peer : Peer} {hash : H256}
    {block : ProposerBlock}
    (found : (before.nodes peer).blockchain.blocks.lookup hash = some block) :
    (after.nodes peer).blockchain.blocks.lookup hash = some block := by
  by_cases own : peer = event.actor
  · subst own
    obtain ⟨stored, lookup⟩ :=
      HashMap.lookup_of_mem (advances.relays.grows hash (Finmap.mem_of_lookup_eq_some found))
    rw [advances.actor, lookup]
    rcases advances.entries hash stored lookup with ⟨earlier, known⟩ | ⟨fresh, -, -⟩
    · rw [gossip.coherent _ _ _ _ _ known found]
    · exact absurd (Finmap.mem_of_lookup_eq_some found) (fresh _)
  · rwa [advances.other own]

theorem stores (advances : Advances crypto graph before event node sent after)
    (gossip : BlockGossip crypto graph before) {peer : Peer} {block : ProposerBlock}
    (stores : before.Stores crypto peer block) : after.Stores crypto peer block :=
  ⟨advances.keeps gossip stores.1, stores.2⟩

theorem grows (advances : Advances crypto graph before event node sent after)
    (gossip : BlockGossip crypto graph before) {peer : Peer} {hash : H256}
    (member : hash ∈ (before.nodes peer).blockchain.blocks) :
    hash ∈ (after.nodes peer).blockchain.blocks := by
  obtain ⟨block, found⟩ := HashMap.lookup_of_mem member
  exact Finmap.mem_of_lookup_eq_some (advances.keeps gossip found)

theorem fromNeighbour (advances : Advances crypto graph before event node sent after)
    (gossip : BlockGossip crypto graph before) {peer : Peer} {block : ProposerBlock}
    (known : before.FromNeighbour crypto graph peer block) :
    after.FromNeighbour crypto graph peer block := by
  obtain ⟨neighbour, connected, stores⟩ := known
  exact ⟨neighbour, connected, advances.stores gossip stores⟩

theorem packet_cases (advances : Advances crypto graph before event node sent after)
    {packet : Packet Peer} (member : packet ∈ after.packets) :
    packet ∈ before.packets ∨ packet.source = event.actor ∧
      ∃ outgoing ∈ sent, outgoing.message = packet.message := by
  rw [advances.packets] at member
  rcases List.mem_append.mp member with old | new
  · exact .inl (Network.mem_of_mem_remaining old)
  · obtain ⟨outgoing, isSent, routed⟩ := List.mem_flatMap.mp new
    obtain ⟨source, ⟨rfl, -⟩ | ⟨rfl, -⟩⟩ := Network.mem_route.mp routed
    · exact .inr ⟨source, _, isSent, rfl⟩
    · exact .inr ⟨source, _, isSent, rfl⟩

theorem stays_or_delivered (advances : Advances crypto graph before event node sent after)
    {packet : Packet Peer} (member : packet ∈ before.packets) :
    packet ∈ after.packets ∨ event = .deliver packet := by
  rcases Network.mem_remaining event member with stays | delivered
  · exact .inl (advances.packets ▸ List.mem_append_left _ stays)
  · exact .inr delivered

theorem answered {packet : Packet Peer}
    (advances : Advances crypto graph before (.deliver packet) node sent after)
    {message : Message} (isSent : .write message ∈ sent) :
    ⟨packet.dest, packet.source, message⟩ ∈ after.packets := by
  rw [advances.packets]
  apply List.mem_append_right
  exact List.mem_flatMap.mpr ⟨_, isSent, Network.mem_route.mpr ⟨rfl, .inr ⟨rfl, rfl⟩⟩⟩

theorem inProgress (advances : Advances crypto graph before event node sent after)
    {first second : Peer} {hash : H256}
    (known : hash ∈ (before.nodes first).blockchain.blocks)
    (progress : before.InProgress crypto first second hash) :
    hash ∈ (after.nodes second).blockchain.blocks ∨
      after.InProgress crypto first second hash := by
  cases progress with
  | announced message underWay within =>
      rcases advances.stays_or_delivered underWay with stays | rfl
      · exact .inr (.announced message stays within)
      · have actor : after.nodes second = node := advances.actor
        rcases advances.announced _ rfl hash within with arrived | ⟨asked, isSent, inside⟩
        · exact .inl (actor ▸ arrived)
        · exact .inr (.asked asked (advances.answered isSent) inside)
  | asked message underWay within =>
      rcases advances.stays_or_delivered underWay with stays | rfl
      · exact .inr (.asked message stays within)
      · obtain ⟨given, isSent, block, inside, same⟩ := advances.asked _ rfl hash within known
        exact .inr (.given given (advances.answered isSent) block inside same)
  | given message underWay block within same =>
      rcases advances.stays_or_delivered underWay with stays | rfl
      · exact .inr (.given message stays block within same)
      · have actor : after.nodes second = node := advances.actor
        rcases advances.given _ rfl block within with arrived | waits
        · exact .inl (actor ▸ same ▸ arrived)
        · exact .inr (.waiting block (actor ▸ waits) same)
  | waiting block waits same =>
      by_cases own : second = event.actor
      · subst own
        rcases advances.waits block waits with arrived | waits
        · exact .inl (advances.actor ▸ same ▸ arrived)
        · exact .inr (.waiting block (advances.actor ▸ waits) same)
      · exact .inr (.waiting block (advances.other own ▸ waits) same)

end Advances

theorem Advances.ranked (advances : Advances crypto graph before event node sent after)
    (gossip : BlockGossip crypto graph before) :
    ∃ rank : H256 → Nat, ∀ peer block, after.Stores crypto peer block →
      rank block.header.proposerParent < rank (block.hash crypto) := by
  classical
  obtain ⟨rank, ordered⟩ := gossip.ranked
  let known (hash : H256) : Prop := ∃ peer, hash ∈ (before.nodes peer).blockchain.blocks
  let above (hash : H256) : Nat :=
    (node.blockchain.blocks.lookup hash).elim 0 fun block => rank block.header.proposerParent + 1
  refine ⟨fun hash => if known hash then rank hash else above hash, fun peer block stores => ?_⟩
  rcases advances.entry stores.1 with ⟨earlier, found⟩ | ⟨rfl, fresh, -, parent⟩
  · have stored : before.Stores crypto earlier block := ⟨found, stores.2⟩
    have own : known (block.hash crypto) := ⟨earlier, Finmap.mem_of_lookup_eq_some found⟩
    have parent : known block.header.proposerParent := by
      rcases (gossip.formed earlier).chain.parents _ block found with rfl | inTree
      · exact absurd rfl stores.2
      · exact ⟨earlier, inTree⟩
    simp only [if_pos own, if_pos parent]
    exact ordered earlier block stored
  · have notKnown : ¬ known (block.hash crypto) := fun ⟨earlier, member⟩ => fresh earlier member
    have parentKnown : known block.header.proposerParent := ⟨_, parent⟩
    have found := stores.1
    rw [advances.actor] at found
    simp only [if_neg notKnown, if_pos parentKnown, above, found, Option.elim_some]
    omega

theorem BlockGossip.advance (gossip : BlockGossip crypto graph before)
    (advances : Advances crypto graph before event node sent after)
    (connected : after.Connected graph) : BlockGossip crypto graph after := by
  have cases (peer : Peer) : peer = event.actor ∧ after.nodes peer = node ∨
      after.nodes peer = before.nodes peer := by
    by_cases own : peer = event.actor
    · exact .inl ⟨own, own ▸ advances.actor⟩
    · exact .inr (advances.other own)
  have genesisKnown : genesisHash crypto ∈ (before.nodes event.actor).blockchain.blocks :=
    (gossip.formed event.actor).chain.genesis
  refine ⟨connected, fun peer => ?_, fun peer => ?_, fun first second hash block other found
    foundOther => ?_, fun peer block stores => ?_, fun peer parent bucket found block member => ?_,
    fun peer => ?_, fun packet member block within => ?_, fun packet member hash within => ?_,
    fun first second joined hash member => ?_, advances.ranked gossip⟩
  · rcases cases peer with ⟨-, same⟩ | same
    · exact same ▸ advances.formed
    · exact same ▸ gossip.formed peer
  · rcases cases peer with ⟨-, same⟩ | same
    · exact same ▸ advances.published
    · exact same ▸ gossip.published peer
  · -- both entries were there, or both are the new one
    rcases advances.entry found with ⟨earlier, known⟩ | ⟨own, fresh, -⟩
    · rcases advances.entry foundOther with ⟨earlierOther, knownOther⟩ | ⟨-, fresh, -⟩
      · exact gossip.coherent _ _ _ _ _ known knownOther
      · exact absurd (Finmap.mem_of_lookup_eq_some known) (fresh _)
    · rcases advances.entry foundOther with ⟨earlierOther, knownOther⟩ | ⟨ownOther, -⟩
      · exact absurd (Finmap.mem_of_lookup_eq_some knownOther) (fresh _)
      · rw [own, ← ownOther, foundOther, Option.some.injEq] at found
        exact found.symm
  · rcases advances.entry stores.1 with ⟨earlier, known⟩ | ⟨-, -, work, -⟩
    · exact gossip.work earlier block ⟨known, stores.2⟩
    · exact work
  · rcases cases peer with ⟨rfl, same⟩ | same
    · rw [same] at found ⊢
      obtain ⟨known, ready⟩ := advances.buffered parent bucket found block member
      exact ⟨advances.fromNeighbour gossip known, ready⟩
    · rw [same] at found ⊢
      obtain ⟨known, ready⟩ := gossip.buffered peer parent bucket found block member
      exact ⟨advances.fromNeighbour gossip known, ready⟩
  · rcases cases peer with ⟨-, same⟩ | same
    · exact same ▸ advances.nothingLost
    · exact same ▸ gossip.nothingLost peer
  · rcases advances.packet_cases member with old | ⟨source, outgoing, isSent, message⟩
    · exact advances.stores gossip (gossip.given packet old block within)
    · rw [Network.Stores, source, advances.actor]
      exact advances.gives outgoing isSent block (message ▸ within)
  · rcases advances.packet_cases member with old | ⟨-, outgoing, isSent, message⟩
    · exact gossip.asked packet old hash within
    · rintro rfl
      exact advances.relays.asks outgoing isSent _ (message ▸ within) genesisKnown
  · by_cases known : hash ∈ (before.nodes first).blockchain.blocks
    · rcases gossip.edge first second joined hash known with there | progress
      · exact .inl (advances.grows gossip there)
      · exact advances.inProgress known progress
    · -- the block is new to the acting peer, which announces it
      rcases cases first with ⟨rfl, same⟩ | same
      · rw [same] at member
        have announced := (advances.relays.announces hash member).resolve_left known
        right
        apply Network.InProgress.announced (.newProposerBlockHashes [hash]) ?_
          (List.mem_singleton.mpr rfl)
        rw [advances.packets]
        apply List.mem_append_right
        exact List.mem_flatMap.mpr ⟨_, announced, Network.mem_route.mpr ⟨rfl, .inl ⟨rfl, joined⟩⟩⟩
      · exact absurd (same ▸ member) known

end Advance

/-! ## The events -/

/-- No tree and no pool has the hash. -/
def Network.Unmentioned {Peer : Type*} (network : Network Peer) (hash : H256) : Prop :=
  ∀ peer, hash ∉ (network.nodes peer).blockchain.blocks ∧
    hash ∉ (network.nodes peer).txBlockPool

/-- The hash of a block that is mined is new. -/
def Network.MinesFresh {Peer : Type*} (crypto : Crypto) (network : Network Peer)
    (hashed : Option Header) : Prop :=
  ∀ header ∈ hashed, (header.hash crypto < header.proposerDifficulty ∨
    header.hash crypto < header.transactionDifficulty) →
      network.Unmentioned (header.hash crypto)

/-- A node has the sound transaction blocks that a proposer block refers to before
it handles the block, mined blocks are new, and the offering is over. -/
def Network.Assumed {Peer : Type*} (crypto : Crypto) (network : Network Peer) :
    Network.Event Peer → Prop
  | .deliver packet => ∀ block ∈ packet.message.givenBlocks,
      PoolReady crypto {block} (network.nodes packet.dest).txBlockPool
  | .mine peer choice => network.MinesFresh crypto (minerHeader crypto (network.nodes peer) choice)
  | .mineAttacker peer choice =>
      network.MinesFresh crypto (minerHeaderAttacker crypto (network.nodes peer) choice)
  | .generateAddress _ _ | .generate _ _ => True
  | .ico _ => False

instance {Peer : Type*} [Fintype Peer] (network : Network Peer) (hash : H256) :
    Decidable (network.Unmentioned hash) :=
  inferInstanceAs (Decidable (∀ _, _ ∧ _))

instance {Peer : Type*} [Fintype Peer] (network : Network Peer) (hashed : Option Header) :
    Decidable (network.MinesFresh crypto hashed) :=
  inferInstanceAs (Decidable (∀ header ∈ hashed, _))

instance {Peer : Type*} [Fintype Peer] (network : Network Peer) :
    DecidablePred (network.Assumed crypto)
  | .deliver packet =>
      inferInstanceAs (Decidable (∀ block ∈ packet.message.givenBlocks,
        PoolReady crypto {block} (network.nodes packet.dest).txBlockPool))
  | .mine peer choice =>
      inferInstanceAs (Decidable
        (network.MinesFresh crypto (minerHeader crypto (network.nodes peer) choice)))
  | .mineAttacker peer choice =>
      inferInstanceAs (Decidable
        (network.MinesFresh crypto (minerHeaderAttacker crypto (network.nodes peer) choice)))
  | .generateAddress _ _ | .generate _ _ => inferInstanceAs (Decidable True)
  | .ico _ => inferInstanceAs (Decidable False)

namespace BlockGossip

variable {Peer : Type*} {graph : Graph Peer} {network : Network Peer}
variable {event : Network.Event Peer} {outcome : Outcome} {node : Node} {sent : List Outgoing}

theorem notMem_of_waits (gossip : BlockGossip crypto graph network) {peer : Peer} {parent : H256}
    (waiting : parent ∈ (network.nodes peer).orphanHandler) :
    parent ∉ (network.nodes peer).blockchain.blocks := by
  intro inTree
  obtain ⟨_, impossible, -⟩ := (gossip.nothingLost peer).awaited parent waiting inTree
  cases impossible

/-- What waits in a bucket has its parent in the tree of a neighbour. -/
theorem parent_of_waiting (gossip : BlockGossip crypto graph network) {peer : Peer}
    {parent : H256} (waiting : parent ∈ (network.nodes peer).orphanHandler) :
    ∃ neighbour, peer ∈ graph.peers neighbour ∧
      parent ∈ (network.nodes neighbour).blockchain.blocks := by
  obtain ⟨bucket, found⟩ := HashMap.lookup_of_mem waiting
  cases bucket with
  | nil => exact absurd found ((gossip.nothingLost peer).nonempty parent)
  | cons block rest =>
      obtain ⟨⟨neighbour, joined, stored, notGenesis⟩, -⟩ :=
        gossip.buffered peer parent _ found block List.mem_cons_self
      rw [← (gossip.formed peer).waiting parent _ found block List.mem_cons_self]
      rcases (gossip.formed neighbour).chain.parents _ block stored with rfl | inTree
      · exact absurd rfl notGenesis
      · exact ⟨neighbour, joined, inTree⟩

theorem advance_of_beside (gossip : BlockGossip crypto graph network)
    (beside : (network.nodes event.actor).Beside crypto node)
    (asks : ∀ outgoing ∈ sent, ∀ hash ∈ outgoing.message.askedBlocks,
      hash ∉ (network.nodes event.actor).blockchain.blocks)
    (gives : ∀ outgoing ∈ sent, ∀ block ∈ outgoing.message.givenBlocks,
      network.Stores crypto event.actor block)
    (announced : ∀ packet, event = .deliver packet → ∀ hash ∈ packet.message.announcedBlocks,
      hash ∈ (network.nodes event.actor).blockchain.blocks ∨
        ∃ message, .write message ∈ sent ∧ hash ∈ message.askedBlocks)
    (asked : ∀ packet, event = .deliver packet → ∀ hash ∈ packet.message.askedBlocks,
      hash ∈ (network.nodes event.actor).blockchain.blocks →
        ∃ message, .write message ∈ sent ∧
          ∃ block ∈ message.givenBlocks, block.hash crypto = hash)
    (given : ∀ packet, event = .deliver packet → packet.message.givenBlocks = []) :
    Advance crypto graph network event node sent where
  formed := beside.formed
  published := beside.published
  relays := .of_same beside.blockchain asks
  entries := by
    rw [beside.blockchain]
    exact fun hash block found => .inl ⟨event.actor, found⟩
  buffered := by
    rw [beside.orphanHandler]
    intro parent bucket found block member
    obtain ⟨known, ready⟩ := gossip.buffered event.actor parent bucket found block member
    exact ⟨known, ready.mono beside.pool⟩
  nothingLost := by
    have nothingLost := gossip.nothingLost event.actor
    refine ⟨by simp, ?_, ?_⟩
    · rw [beside.orphanHandler]
      exact nothingLost.nonempty
    · rw [beside.orphanHandler, beside.blockchain]
      exact nothingLost.awaited
  waits := by
    intro block waits
    right
    rw [Node.Waits, beside.orphanHandler]
    exact waits
  gives := by
    rw [beside.blockchain]
    exact gives
  announced := by
    rw [beside.blockchain]
    exact announced
  asked := asked
  given := by
    intro packet same block within
    rw [given packet same] at within
    cases within

theorem advance_of_other (gossip : BlockGossip crypto graph network) {packet : Packet Peer}
    (served : workerLoop crypto (network.nodes packet.dest) packet.message = outcome)
    (completed : outcome.panic = none) (other : ¬ packet.message.AboutBlocks) :
    Advance crypto graph network (.deliver packet) outcome.node outcome.sent := by
  subst served
  obtain ⟨beside, others⟩ := beside_of_runTasks _ _ completed (others_of_tasks other)
    (gossip.formed packet.dest) (gossip.published packet.dest)
    (Message.grounded_tasks (gossip.formed packet.dest) packet.message)
  obtain ⟨noAnnounced, noAsked, noGiven⟩ := Message.nothing_of_other other
  have atActor : (network.nodes (Network.Event.deliver packet).actor).Beside crypto
      (workerLoop crypto (network.nodes packet.dest) packet.message).node := beside
  apply gossip.advance_of_beside atActor
  · intro outgoing isSent hash asked
    rw [(Message.nothing_of_other (others outgoing isSent)).2.1] at asked
    cases asked
  · intro outgoing isSent block given
    rw [(Message.nothing_of_other (others outgoing isSent)).2.2] at given
    cases given
  · rintro _ ⟨⟩ hash within
    rw [noAnnounced] at within
    cases within
  · rintro _ ⟨⟩ hash within
    rw [noAsked] at within
    cases within
  · rintro _ ⟨⟩
    exact noGiven

theorem advance_of_announced (gossip : BlockGossip crypto graph network) {source dest : Peer}
    {hashVec : List H256} :
    Advance crypto graph network (.deliver ⟨source, dest, .newProposerBlockHashes hashVec⟩)
      (workerLoop crypto (network.nodes dest) (.newProposerBlockHashes hashVec)).node
      (workerLoop crypto (network.nodes dest) (.newProposerBlockHashes hashVec)).sent := by
  rw [workerLoop_announced]
  apply gossip.advance_of_beside
  · exact .refl (gossip.formed dest) (gossip.published dest)
  · intro outgoing isSent hash asked
    obtain ⟨each, -, isSent⟩ := List.mem_flatMap.mp isSent
    split at isSent
    · cases isSent
    · next absent =>
        rw [List.mem_singleton] at isSent
        subst isSent
        rw [List.mem_singleton.mp asked]
        exact absent
  · intro outgoing isSent block given
    obtain ⟨each, -, isSent⟩ := List.mem_flatMap.mp isSent
    split at isSent
    · cases isSent
    · rw [List.mem_singleton] at isSent
      subst isSent
      cases given
  · rintro _ ⟨⟩ hash within
    by_cases known : hash ∈ (network.nodes dest).blockchain.blocks
    · exact .inl known
    · refine .inr ⟨.getProposerBlocks [hash], List.mem_flatMap.mpr ⟨hash, within, ?_⟩,
        List.mem_singleton.mpr rfl⟩
      rw [if_neg known]
      exact List.mem_singleton.mpr rfl
  · rintro _ ⟨⟩ hash impossible
    cases impossible
  · rintro _ ⟨⟩
    rfl

theorem advance_of_asked (gossip : BlockGossip crypto graph network) {source dest : Peer}
    {hashVec : List H256}
    (underWay : ⟨source, dest, .getProposerBlocks hashVec⟩ ∈ network.packets) :
    Advance crypto graph network (.deliver ⟨source, dest, .getProposerBlocks hashVec⟩)
      (workerLoop crypto (network.nodes dest) (.getProposerBlocks hashVec)).node
      (workerLoop crypto (network.nodes dest) (.getProposerBlocks hashVec)).sent := by
  have stored := (gossip.formed dest).chain.stored
  rw [workerLoop_asked]
  apply gossip.advance_of_beside
  · exact .refl (gossip.formed dest) (gossip.published dest)
  · intro outgoing isSent hash asked
    obtain ⟨each, -, isSent⟩ := List.mem_flatMap.mp isSent
    obtain ⟨block, -, rfl⟩ := List.mem_map.mp isSent
    cases asked
  · intro outgoing isSent block given
    obtain ⟨each, within, isSent⟩ := List.mem_flatMap.mp isSent
    obtain ⟨found, lookup, rfl⟩ := List.mem_map.mp isSent
    have lookup := Option.mem_toList.mp lookup
    rw [List.mem_singleton.mp given]
    have sameHash := stored each found lookup
    refine ⟨sameHash ▸ lookup, ?_⟩
    rw [sameHash]
    exact gossip.asked _ underWay each within
  · rintro _ ⟨⟩ hash impossible
    cases impossible
  · rintro _ ⟨⟩ hash within known
    obtain ⟨block, lookup⟩ := HashMap.lookup_of_mem known
    exact ⟨.proposerBlocks [block], List.mem_flatMap.mpr ⟨hash, within, List.mem_map.mpr
      ⟨block, Option.mem_toList.mpr lookup, rfl⟩⟩, block, List.mem_singleton.mpr rfl,
      stored hash block lookup⟩
  · rintro _ ⟨⟩
    rfl

theorem advance_of_given (gossip : BlockGossip crypto graph network) {source dest : Peer}
    {batch : List ProposerBlock}
    (underWay : ⟨source, dest, .proposerBlocks batch⟩ ∈ network.packets)
    (ready : ∀ block ∈ batch, PoolReady crypto {block} (network.nodes dest).txBlockPool) :
    (workerLoop crypto (network.nodes dest) (.proposerBlocks batch)).panic = none ∧
      Advance crypto graph network (.deliver ⟨source, dest, .proposerBlocks batch⟩)
        (workerLoop crypto (network.nodes dest) (.proposerBlocks batch)).node
        (workerLoop crypto (network.nodes dest) (.proposerBlocks batch)).sent := by
  let origin (block : ProposerBlock) : Prop :=
    network.FromNeighbour crypto graph dest block ∧
      Acceptable crypto (network.nodes dest).txBlockPool block
  have acceptable : ∀ block, network.FromNeighbour crypto graph dest block →
      PoolReady crypto {block} (network.nodes dest).txBlockPool → origin block := by
    rintro block ⟨neighbour, joined, stores⟩ ready
    exact ⟨⟨neighbour, joined, stores⟩, gossip.work neighbour block stores, ready⟩
  have own : ∀ block ∈ batch, origin block := fun block member =>
    acceptable block ⟨source, gossip.connected _ underWay, gossip.given _ underWay block member⟩
      (ready block member)
  -- the batch is served with any blocks that waited before
  have served (delivered : List ProposerBlock)
      (waiting : ∀ block ∈ delivered, (network.nodes dest).Waits block) :
      (workerLoop crypto (network.nodes dest) (.proposerBlocks batch)).panic = none ∧
        Serving crypto origin (delivered ++ batch) (network.nodes dest)
          (workerLoop crypto (network.nodes dest) (.proposerBlocks batch)).node [] := by
    apply Serving.batch (fun block inOrigin => inOrigin.2) ?_ batch own
    refine ⟨gossip.formed dest, gossip.published dest, by simp, ?_, by simp,
      fun hash block found => .inl found, rfl, ?_⟩
    · intro parent bucket found block member
      obtain ⟨known, ready⟩ := gossip.buffered dest parent bucket found block member
      exact acceptable block known ready
    · exact ⟨fun block member => .inr (.inl (waiting block member)),
        (gossip.nothingLost dest).nonempty, (gossip.nothingLost dest).awaited⟩
  obtain ⟨completed, serving⟩ := served [] (by simp)
  have located {delivered : List ProposerBlock} {block : ProposerBlock} {node : Node}
      (nothingLost : NothingLost crypto delivered node []) (member : block ∈ delivered) :
      block.hash crypto ∈ node.blockchain.blocks ∨ node.Waits block := by
    rcases nothingLost.located block member with inTree | waits | impossible | impossible
    · exact .inl inTree
    · exact .inr waits
    · cases impossible
    · cases impossible
  refine ⟨completed,
    { formed := serving.formed
      published := serving.published
      relays := relays_of_runTasks _ _ completed
      entries := ?_
      buffered := ?_
      nothingLost := ⟨by simp, serving.nothingLost.nonempty, serving.nothingLost.awaited⟩
      waits := ?_
      gives := ?_
      announced := ?_
      asked := ?_
      given := ?_ }⟩
  · intro hash block found
    left
    rcases serving.tree hash block found with earlier | ⟨⟨neighbour, -, stored, -⟩, -⟩
    · exact ⟨dest, earlier⟩
    · rw [serving.formed.chain.stored hash block found] at stored
      exact ⟨neighbour, stored⟩
  · intro parent bucket found block member
    obtain ⟨known, acceptable⟩ := serving.buffered parent bucket found block member
    rw [serving.pool]
    exact ⟨known, acceptable.ready⟩
  · intro block waits
    have here : (network.nodes dest).Waits block := waits
    exact located (served [block] (by simpa using here)).2.nothingLost List.mem_cons_self
  · intro outgoing isSent block given
    have nothing := @gives_nothing_of_runTasks crypto (network.nodes dest)
      (Message.tasks (network.nodes dest) (.proposerBlocks batch)) ?_ outgoing isSent
    · rw [nothing] at given
      cases given
    · intro task member hash same
      obtain ⟨each, -, rfl⟩ := List.mem_map.mp member
      cases same
  · rintro _ ⟨⟩ hash impossible
    cases impossible
  · rintro _ ⟨⟩ hash impossible
    cases impossible
  · rintro _ ⟨⟩ block member
    exact located serving.nothingLost (List.mem_append_right _ member)

theorem advance_of_mined (gossip : BlockGossip crypto graph network) {hashed : Option Header}
    (fresh : network.MinesFresh crypto hashed)
    (notDelivery : ∀ packet, event ≠ .deliver packet)
    (sends : MinerSends crypto (network.nodes event.actor) node sent)
    (mined : Mined crypto (network.nodes event.actor) hashed node) :
    Advance crypto graph network event node sent := by
  have formed := ((gossip.formed event.actor).mined mined).1
  have published := (gossip.published event.actor).mono mined.publishes
  have relays := sends.relays
  have gives : ∀ outgoing ∈ sent, outgoing.message.givenBlocks = [] :=
    fun outgoing isSent => (sends.silent outgoing isSent).2
  have beside (same : (network.nodes event.actor).Beside crypto node) :
      Advance crypto graph network event node sent := by
    apply gossip.advance_of_beside same relays.asks
    · intro outgoing isSent block given
      rw [gives outgoing isSent] at given
      cases given
    · exact fun packet same => absurd same (notDelivery packet)
    · exact fun packet same => absurd same (notDelivery packet)
    · exact fun packet same => absurd same (notDelivery packet)
  cases mined with
  | nothing => exact beside (.refl formed published)
  | transaction header _ _ _ built _ _ won _ _ =>
      have unmentioned := fresh header built (.inr won)
      refine beside ⟨formed, published, rfl, rfl, fun hash txBlock found => ?_⟩
      rw [HashMap.lookup_insert_ite]
      split
      · next same =>
          rw [same] at found
          exact absurd (Finmap.mem_of_lookup_eq_some found) (unmentioned event.actor).2
      · exact found
  | proposer header _ _ _ _ _ _ built minedHeader won accepts =>
      have unmentioned := fresh header built (.inl won)
      have waitsSame (block : ProposerBlock) :
          node.Waits block ↔ (network.nodes event.actor).Waits block := by
        rw [Node.Waits, Node.Waits, accepts.orphanHandler]
      refine
        { formed := formed
          published := published
          relays := relays
          entries := fun hash block found => ?_
          buffered := ?_
          nothingLost := ⟨by simp, ?_, ?_⟩
          waits := fun block waits => .inr ((waitsSame block).mpr waits)
          gives := fun outgoing isSent block given => ?_
          announced := fun packet same => absurd same (notDelivery packet)
          asked := fun packet same => absurd same (notDelivery packet)
          given := fun packet same => absurd same (notDelivery packet) }
      · rw [accepts.blocks, HashMap.lookup_insert_ite] at found
        split at found
        · next same =>
            cases found
            rw [same]
            refine .inr ⟨fun peer => (unmentioned peer).1, H256.not_lt_of_lt won, ?_⟩
            rw [minedHeader.parent]
            exact (gossip.formed event.actor).chain.tip
        · exact .inl ⟨event.actor, found⟩
      · rw [accepts.orphanHandler, accepts.txBlockPool]
        exact gossip.buffered event.actor
      · rw [accepts.orphanHandler]
        exact (gossip.nothingLost event.actor).nonempty
      · intro parent waiting inTree
        rw [accepts.orphanHandler] at waiting
        rw [accepts.blocks, Finmap.mem_insert] at inTree
        rcases inTree with rfl | earlier
        · obtain ⟨neighbour, -, known⟩ := gossip.parent_of_waiting waiting
          exact absurd known (unmentioned neighbour).1
        · exact absurd earlier (gossip.notMem_of_waits waiting)
      · rw [gives outgoing isSent] at given
        cases given

/-- Every event within the assumptions is an advance. -/
theorem advance_of_performed (gossip : BlockGossip crypto graph network)
    (assumed : network.Assumed crypto event) (performed : Performed crypto network event outcome)
    (completed : outcome.panic = none) :
    Advance crypto graph network event outcome.node outcome.sent := by
  have silent (other : ∀ packet, event ≠ .deliver packet)
      (beside : (network.nodes event.actor).Beside crypto outcome.node)
      (others : ∀ outgoing ∈ outcome.sent, ¬ outgoing.message.AboutBlocks) :
      Advance crypto graph network event outcome.node outcome.sent := by
    apply gossip.advance_of_beside beside
    · intro outgoing isSent hash asked
      rw [(Message.nothing_of_other (others outgoing isSent)).2.1] at asked
      cases asked
    · intro outgoing isSent block given
      rw [(Message.nothing_of_other (others outgoing isSent)).2.2] at given
      cases given
    · exact fun packet same => absurd same (other packet)
    · exact fun packet same => absurd same (other packet)
    · exact fun packet same => absurd same (other packet)
  cases performed with
  | deliver packet underWay _ served =>
      obtain ⟨source, dest, message⟩ := packet
      by_cases about : message.AboutBlocks
      · subst served
        cases message with
        | newProposerBlockHashes hashVec => exact gossip.advance_of_announced
        | getProposerBlocks hashVec => exact gossip.advance_of_asked underWay
        | proposerBlocks batch => exact (gossip.advance_of_given underWay assumed).2
        | newAddr _ | ico _ _ | newTransactionHashes _ | getTransactions _ | transactions _
        | newTransactionBlockHashes _ | getTransactionBlocks _ | transactionBlocks _ => cases about
      · exact gossip.advance_of_other served completed about
  | mine peer choice progress possible ran =>
      exact gossip.advance_of_mined assumed (by simp) (sends_of_minerLoop ran)
        (mined_of_minerLoop possible ran)
  | mineAttacker peer choice progress ran =>
      exact gossip.advance_of_mined assumed (by simp) (sends_of_minerLoopAttacker ran)
        (mined_of_minerLoopAttacker ran)
  | generateAddress peer key =>
      apply silent (by simp)
      · exact ⟨{ gossip.formed peer with }, gossip.published peer, rfl, rfl, fun _ _ found => found⟩
      · intro outgoing isSent
        rw [generateAddress, List.mem_singleton] at isSent
        subst isSent
        exact id
  | generate peer draws =>
      apply silent (by simp)
      · rcases @generated_of_round crypto (network.nodes peer) draws with
          same | ⟨_, -, generated⟩
        · rw [same]
          exact .refl (gossip.formed peer) (gossip.published peer)
        · have formed := (gossip.formed peer).generated generated
          rw [generated.onlyPool] at formed ⊢
          exact ⟨formed, gossip.published peer, rfl, rfl, fun _ _ found => found⟩
      · intro outgoing isSent
        obtain ⟨hash, rfl⟩ := sends_of_generatorLoop isSent
        exact id
  | ico peer => cases assumed

theorem step [DecidableEq Peer] {after : Network Peer}
    (gossip : BlockGossip crypto graph network) (assumed : network.Assumed crypto event)
    (stepped : network.step crypto graph event = some after) :
    BlockGossip crypto graph after := by
  obtain ⟨outcome, performs, completed, -, nodes, packets⟩ := Network.step_cases stepped
  have performed := performed_of_perform performs completed
  exact gossip.advance
    { gossip.advance_of_performed assumed performed completed with
      nodes := nodes
      packets := packets }
    (gossip.connected.step stepped)

/-- A message about blocks can be delivered: no thread panics over it. -/
theorem delivered [DecidableEq Peer] (gossip : BlockGossip crypto graph network)
    {packet : Packet Peer} (underWay : packet ∈ network.packets)
    (about : packet.message.AboutBlocks) (assumed : network.Assumed crypto (.deliver packet)) :
    (network.step crypto graph (.deliver packet)).isSome := by
  have completed :
      (workerLoop crypto (network.nodes packet.dest) packet.message).panic = none := by
    obtain ⟨source, dest, message⟩ := packet
    cases message with
    | newProposerBlockHashes hashVec => rw [workerLoop_announced]
    | getProposerBlocks hashVec => rw [workerLoop_asked]
    | proposerBlocks batch => exact (gossip.advance_of_given underWay assumed).1
    | newAddr _ | ico _ _ | newTransactionHashes _ | getTransactions _ | transactions _
    | newTransactionBlockHashes _ | getTransactionBlocks _ | transactionBlocks _ => cases about
  simp [Network.step, Network.perform, underWay, completed]

/-- When no message about blocks is under way, a neighbour has every block: one
that waits there has a parent that the neighbour has, but is waiting for. -/
theorem agree (gossip : BlockGossip crypto graph network)
    (quiet : ∀ packet ∈ network.packets, ¬ packet.message.AboutBlocks) {first second : Peer}
    (joined : second ∈ graph.peers first) {hash : H256}
    (member : hash ∈ (network.nodes first).blockchain.blocks) :
    hash ∈ (network.nodes second).blockchain.blocks := by
  obtain ⟨rank, ordered⟩ := gossip.ranked
  induction height : rank hash using Nat.strong_induction_on generalizing hash with
  | _ height ih =>
  subst height
  rcases gossip.edge first second joined hash member with there | progress
  · exact there
  cases progress with
  | announced message underWay within =>
      rw [(Message.nothing_of_other (quiet _ underWay)).1] at within
      cases within
  | asked message underWay within =>
      rw [(Message.nothing_of_other (quiet _ underWay)).2.1] at within
      cases within
  | given message underWay block within _ =>
      rw [(Message.nothing_of_other (quiet _ underWay)).2.2] at within
      cases within
  | waiting block waits same =>
      obtain ⟨bucket, found, inBucket⟩ := waits
      obtain ⟨⟨neighbour, -, stores⟩, -⟩ := gossip.buffered second _ bucket found block inBucket
      obtain ⟨own, stored⟩ := HashMap.lookup_of_mem member
      have sameBlock : own = block := gossip.coherent _ _ _ _ _ stored (same ▸ stores.1)
      subst sameBlock
      subst same
      have parent : own.header.proposerParent ∈ (network.nodes first).blockchain.blocks := by
        rcases (gossip.formed first).chain.parents _ own stored with rfl | inTree
        · exact absurd rfl stores.2
        · exact inTree
      have arrived := ih _ (ordered first own ⟨stored, stores.2⟩) parent rfl
      exact absurd arrived (gossip.notMem_of_waits (Finmap.mem_of_lookup_eq_some found))

theorem nothing_waits (gossip : BlockGossip crypto graph network)
    (quiet : ∀ packet ∈ network.packets, ¬ packet.message.AboutBlocks) (peer : Peer) :
    (network.nodes peer).orphanHandler = ∅ := by
  apply Finmap.ext_lookup
  intro parent
  rw [Finmap.lookup_empty, Finmap.lookup_eq_none]
  intro waiting
  obtain ⟨neighbour, joined, known⟩ := gossip.parent_of_waiting waiting
  exact gossip.notMem_of_waits waiting (gossip.agree quiet joined known)

end BlockGossip

/-! ## Runs -/

/-- All nodes have just made or taken over the same offering, nothing waits, and
no message about blocks is under way. -/
structure Network.AfterIco {Peer : Type*} (crypto : Crypto) (graph : Graph Peer)
    (initialLedger : Ledger) (network : Network Peer) : Prop where
  connected : network.Connected graph
  nodes : ∀ peer, ∃ state, SimplifiedPrism.AfterIco crypto initialLedger state ∧
    state.node = network.nodes peer
  orphanHandler : ∀ peer, (network.nodes peer).orphanHandler = ∅
  quiet : ∀ packet ∈ network.packets, ¬ packet.message.AboutBlocks

section Runs

variable {Peer : Type*} {graph : Graph Peer} {initialLedger : Ledger}

theorem Network.AfterIco.blockGossip {network : Network Peer}
    (start : network.AfterIco crypto graph initialLedger) : BlockGossip crypto graph network := by
  have chain (peer : Peer) : (network.nodes peer).blockchain = Blockchain.new crypto := by
    obtain ⟨state, afterIco, same⟩ := start.nodes peer
    rw [← same]
    exact afterIco.chain
  have onlyGenesis : ∀ peer hash block,
      (network.nodes peer).blockchain.blocks.lookup hash = some block →
      hash = genesisHash crypto ∧ block = genesisBlock crypto := by
    intro peer hash block found
    rw [chain, Blockchain.new, HashMap.lookup_insert_ite] at found
    split at found
    · next same =>
        cases found
        exact ⟨same, rfl⟩
    · simp at found
  have noStores : ∀ peer block, ¬ network.Stores crypto peer block :=
    fun peer block stores => stores.2 (onlyGenesis peer _ block stores.1).1
  have formed (peer : Peer) : (network.nodes peer).WellFormed crypto := by
    obtain ⟨state, afterIco, same⟩ := start.nodes peer
    exact same ▸ afterIco.wellFormed.node
  refine
    { connected := start.connected
      formed := formed
      published := fun peer => ?_
      coherent := fun first second hash block other found foundOther => ?_
      work := fun peer block stores => absurd stores (noStores peer block)
      buffered := fun peer => by simp [start.orphanHandler]
      nothingLost := fun peer => ⟨by simp, by simp [start.orphanHandler],
        by simp [start.orphanHandler, Finmap.notMem_empty]⟩
      given := fun packet member block within => ?_
      asked := fun packet member hash within => ?_
      edge := fun first second _ hash member => .inl ?_
      ranked := ⟨fun _ => 0, fun peer block stores => absurd stores (noStores peer block)⟩ }
  · obtain ⟨state, afterIco, same⟩ := start.nodes peer
    exact same ▸ afterIco.published
  · rw [(onlyGenesis first hash block found).2, (onlyGenesis second hash other foundOther).2]
  · rw [(Message.nothing_of_other (start.quiet packet member)).2.2] at within
    cases within
  · rw [(Message.nothing_of_other (start.quiet packet member)).2.1] at within
    cases within
  · obtain ⟨block, found⟩ := HashMap.lookup_of_mem member
    rw [(onlyGenesis first hash block found).1]
    exact (formed second).chain.genesis

variable [DecidableEq Peer]

/-- In every state that is reached a message about proposer blocks can be
delivered, and when none is under way neighbours have the same blocks and nobody
waits for one. -/
theorem blocks_agree_of_run
    (run : Run (Network.step crypto graph) (Network.AfterIco crypto graph initialLedger))
    (assumed : run.Meets (Network.Assumed crypto)) :
    ∀ index ≤ run.length,
      (∀ packet ∈ (run.states index).packets, packet.message.AboutBlocks →
        (run.states index).Assumed crypto (.deliver packet) →
          ((run.states index).step crypto graph (.deliver packet)).isSome) ∧
      ((∀ packet ∈ (run.states index).packets, ¬ packet.message.AboutBlocks) →
        (∀ first second, second ∈ graph.peers first → ∀ hash,
          hash ∈ ((run.states index).nodes first).blockchain.blocks ↔
            hash ∈ ((run.states index).nodes second).blockchain.blocks) ∧
        ∀ peer, ((run.states index).nodes peer).orphanHandler = ∅) := by
  intro index bound
  have gossip : BlockGossip crypto graph (run.states index) :=
    run.invariant_of_meets assumed (BlockGossip crypto graph) (fun _ start => start.blockGossip)
      (fun _ _ _ gossip assumed stepped => gossip.step assumed stepped) index bound
  refine ⟨fun packet underWay about assumed => gossip.delivered underWay about assumed,
    fun quiet => ⟨fun first second joined hash => ⟨?_, ?_⟩, gossip.nothing_waits quiet⟩⟩
  · exact gossip.agree quiet joined
  · exact gossip.agree quiet (graph.symmetric first second joined)

end Runs

theorem afterIco_row : Network.AfterIco Crypto.sample Graph.row (icoState [.sample])
    ⟨fun _ => State.sample.node, []⟩ where
  connected := by simp [Network.Connected]
  nodes := fun _ => ⟨State.sample, afterIco_sample, rfl⟩
  orphanHandler := fun _ => rfl
  quiet := by simp

/-- The left node mines twice.  The middle node learns of the later block first,
which waits there until its parent has been asked for, and then tells the right. -/
def relayRun : Run (Network.step Crypto.sample Graph.row)
    (Network.AfterIco Crypto.sample Graph.row (icoState [.sample])) :=
  let announce (source dest : Place) (nonce : UInt32) : Network.Event Place :=
    .deliver ⟨source, dest, .newProposerBlockHashes [sampleHash nonce]⟩
  let ask (source dest : Place) (nonce : UInt32) : Network.Event Place :=
    .deliver ⟨source, dest, .getProposerBlocks [sampleHash nonce]⟩
  let give (source dest : Place) (block : ProposerBlock) : Network.Event Place :=
    .deliver ⟨source, dest, .proposerBlocks [block]⟩
  Run.ofActions _ afterIco_row
    [.mineAttacker .left ⟨[], [], 2, 0⟩, .mineAttacker .left ⟨[], [], 3, 0⟩,
      announce .left .middle 3, ask .middle .left 3, give .left .middle childBlock,
      ask .middle .left 2, give .left .middle parentBlock,
      announce .middle .right 2, ask .right .middle 2, give .middle .right parentBlock,
      announce .middle .right 3, ask .right .middle 3, give .middle .right childBlock,
      announce .right .middle 2, announce .right .middle 3, announce .middle .left 2,
      announce .middle .left 3, announce .left .middle 2]
    (by decide +kernel)

theorem blocks_agree_relayRun :
    ((relayRun.states 5).nodes .middle).orphanHandler.keys = {sampleHash 2} ∧
      sampleHash 3 ∈ ((relayRun.states 18).nodes .middle).blockchain.blocks ∧
      (sampleHash 3 ∈ ((relayRun.states 18).nodes .middle).blockchain.blocks ↔
        sampleHash 3 ∈ ((relayRun.states 18).nodes .right).blockchain.blocks) ∧
      ((relayRun.states 18).nodes .right).orphanHandler = ∅ := by
  have assumed : relayRun.Meets (Network.Assumed Crypto.sample) := by
    change ∀ index < 18, _
    decide +kernel
  have quiet : ∀ packet ∈ (relayRun.states 18).packets, ¬ packet.message.AboutBlocks := by
    have empty : (relayRun.states 18).packets = [] := by decide +kernel
    simp [empty]
  obtain ⟨agree, nothing⟩ := (blocks_agree_of_run relayRun assumed 18 (by decide)).2 quiet
  refine ⟨by decide +kernel, by decide +kernel, ?_, nothing .right⟩
  exact agree .middle .right (by decide) (sampleHash 3)

end SimplifiedPrism
