import SimplifiedPrism.Provenance
import SimplifiedPrism.WriteOnce

/-!
# One offering for the whole network

One node makes the initial coin offering, and the other nodes take it over from a
message.  A node that the offering has not reached holds no ledger and no block
but genesis; from then on its entries are derived from the ledger of the offering.
-/

namespace SimplifiedPrism

variable {crypto : Crypto}

/-- Different blocks have different hashes, and none has that of genesis or the
one that genesis names as its parent. -/
structure NoCollision (crypto : Crypto) (origin : Origin) : Prop where
  block : ∀ first second, origin.block first → origin.block second →
    first.hash crypto = second.hash crypto → first = second
  txBlock : ∀ first second, origin.txBlock first → origin.txBlock second →
    first.hash crypto = second.hash crypto → first = second
  genesis : ∀ block, origin.block block → block.hash crypto ≠ genesisHash crypto
  fakeParent : ∀ block, origin.Known crypto block →
    block.hash crypto ≠ (genesisBlock crypto).header.proposerParent

theorem NoCollision.of_le {origin more : Origin} (noCollision : NoCollision crypto more)
    (le : origin.Le more) : NoCollision crypto origin where
  block := fun first second chosen chosenToo =>
    noCollision.block first second (le.block first chosen) (le.block second chosenToo)
  txBlock := fun first second chosen chosenToo =>
    noCollision.txBlock first second (le.txBlock first chosen) (le.txBlock second chosenToo)
  genesis := fun block chosen => noCollision.genesis block (le.block block chosen)
  fakeParent := fun block known => noCollision.fakeParent block (le.known known)

theorem NoCollision.of_lists {origin : Origin} {blocks : List ProposerBlock}
    {txBlocks : List TXBlock} (onlyBlocks : ∀ block, origin.block block → block ∈ blocks)
    (onlyTxBlocks : ∀ txBlock, origin.txBlock txBlock → txBlock ∈ txBlocks)
    (distinct : ∀ first ∈ blocks, ∀ second ∈ blocks,
      first.hash crypto = second.hash crypto → first = second)
    (distinctTx : ∀ first ∈ txBlocks, ∀ second ∈ txBlocks,
      first.hash crypto = second.hash crypto → first = second)
    (genesis : ∀ block ∈ blocks, block.hash crypto ≠ genesisHash crypto)
    (fakeParent : ∀ block ∈ genesisBlock crypto :: blocks,
      block.hash crypto ≠ (genesisBlock crypto).header.proposerParent) :
    NoCollision crypto origin where
  block := fun first second chosen chosenToo =>
    distinct first (onlyBlocks first chosen) second (onlyBlocks second chosenToo)
  txBlock := fun first second chosen chosenToo =>
    distinctTx first (onlyTxBlocks first chosen) second (onlyTxBlocks second chosenToo)
  genesis := fun block chosen => genesis block (onlyBlocks block chosen)
  fakeParent := fun block known =>
    fakeParent block (List.mem_cons.mpr (known.imp_right (onlyBlocks block)))

theorem NoCollision.known {origin : Origin} (noCollision : NoCollision crypto origin)
    {first second : ProposerBlock} (known : origin.Known crypto first)
    (knownToo : origin.Known crypto second) (same : first.hash crypto = second.hash crypto) :
    first = second := by
  rcases known with rfl | chosen
  · rcases knownToo with rfl | chosenToo
    · rfl
    · exact absurd same.symm (noCollision.genesis second chosenToo)
  · rcases knownToo with rfl | chosenToo
    · exact absurd same (noCollision.genesis first chosen)
    · exact noCollision.block first second chosen chosenToo same

/-- The offering has not reached the node. -/
structure Node.Unoffered (crypto : Crypto) (node : Node) : Prop where
  globState : node.globState = ∅
  onlyGenesis : ∀ hash ∈ node.blockchain.blocks, hash = genesisHash crypto

/-- The node has taken over the offering. -/
structure Node.Offered (crypto : Crypto) (ledger : Ledger) (node : Node) : Prop where
  globState : node.globState.lookup (genesisHash crypto) = some ledger
  published : node.Published
  settled : Settled crypto node

/-- The entries of genesis, and either nothing more or everything derived from
the ledger of the offering. -/
structure Node.Anchored (crypto : Crypto) (offer : Option Ledger) (node : Node) : Prop where
  genesisRef : node.txBlockRef.lookup (genesisHash crypto) = some []
  genesisHeight : node.blockchain.heights.lookup (genesisHash crypto) = some 0
  offered : node.Unoffered crypto ∨ ∃ ledger ∈ offer, node.Offered crypto ledger

/-- An offering that the message or the task passes on. -/
def Message.Offers (crypto : Crypto) (offer : Option Ledger) : Message → Prop
  | .ico hash icoState => hash = genesisHash crypto ∧ offer = some icoState
  | _ => True

def Task.Offers (crypto : Crypto) (offer : Option Ledger) : Task → Prop
  | .ico hash icoState => hash = genesisHash crypto ∧ offer = some icoState
  | _ => True

section Anchored

variable {origin : Origin} {offer : Option Ledger} {ledger : Ledger} {node after : Node}
variable {task : Task} {rest todo : List Task}

theorem Node.Anchored.or (anchored : node.Anchored crypto offer) (more : Option Ledger) :
    node.Anchored crypto (offer.or more) := by
  refine ⟨anchored.genesisRef, anchored.genesisHeight, ?_⟩
  rcases anchored.offered with unoffered | ⟨ledger, given, offered⟩
  · exact .inl unoffered
  · obtain rfl : offer = some ledger := given
    exact .inr ⟨ledger, rfl, offered⟩

theorem Message.Offers.tasks {message : Message} (offers : message.Offers crypto offer)
    (node : Node) : ∀ task ∈ message.tasks node, task.Offers crypto offer := by
  intro task member
  cases message with
  | ico _ _ =>
      rw [Message.tasks, List.mem_singleton] at member
      subst member
      exact offers
  | newAddr _ | newTransactionHashes _ | getTransactions _ | transactions _
  | newTransactionBlockHashes _ | getTransactionBlocks _ | transactionBlocks _
  | newProposerBlockHashes _ | getProposerBlocks _ | proposerBlocks _ =>
      obtain ⟨each, -, rfl⟩ := List.mem_map.mp member
      trivial

theorem Node.Within.genesis_of_lookup (within : node.Within crypto origin)
    (formed : node.WellFormed crypto) (noCollision : NoCollision crypto origin)
    {block : ProposerBlock}
    (found : node.blockchain.blocks.lookup (genesisHash crypto) = some block) :
    block = genesisBlock crypto := by
  rcases within.blocks _ block found with genesis | chosen
  · exact genesis
  · exact absurd (formed.chain.stored _ block found) (noCollision.genesis block chosen)

/-- Entries that are written once keep the node anchored. -/
theorem Node.Anchored.once (anchored : node.Anchored crypto offer)
    (formed : node.WellFormed crypto) (given : ledger ∈ offer)
    (offered : node.Offered crypto ledger) (published : after.Published)
    (kept : WriteOnce node after ∧ Settled crypto after) : after.Anchored crypto offer := by
  obtain ⟨once, settled⟩ := kept
  have genesis := once _ formed.chain.genesis
  refine ⟨?_, ?_, .inr ⟨ledger, given, ?_, published, settled⟩⟩
  · rw [genesis.txBlockRef]
    exact anchored.genesisRef
  · rw [genesis.heights]
    exact anchored.genesisHeight
  · rw [genesis.globState]
    exact offered.globState

/-- So does leaving the entries alone and adding new transaction blocks. -/
theorem Node.Anchored.same (anchored : node.Anchored crypto offer)
    (formed : node.WellFormed crypto) (blockchain : after.blockchain = node.blockchain)
    (globState : after.globState = node.globState) (txBlockRef : after.txBlockRef = node.txBlockRef)
    (pool : ∀ ref ∈ node.txBlockPool, after.txBlockPool.lookup ref = node.txBlockPool.lookup ref) :
    after.Anchored crypto offer := by
  rcases anchored.offered with unoffered | ⟨ledger, given, offered⟩
  · refine ⟨txBlockRef ▸ anchored.genesisRef, blockchain ▸ anchored.genesisHeight, .inl ⟨?_, ?_⟩⟩
    · exact globState.trans unoffered.globState
    · rw [blockchain]
      exact unoffered.onlyGenesis
  · apply anchored.once formed given offered
    · rw [Node.Published, blockchain, globState, txBlockRef]
      exact offered.published
    · exact settled_of_same formed offered.settled blockchain globState txBlockRef pool

/-- Accepting a block keeps the node anchored: the block is new, or the one that is there. -/
theorem Node.Anchored.accepts {block : ProposerBlock} {parentLedger newLedger : Ledger}
    {txs : List SignedTransaction} (anchored : node.Anchored crypto offer)
    (formed : node.WellFormed crypto) (within : node.Within crypto origin)
    (noCollision : NoCollision crypto origin) (known : origin.Known crypto block)
    (notGenesis : block ≠ genesisBlock crypto)
    (accepts : Accepts crypto node block parentLedger txs newLedger after) :
    after.Anchored crypto offer := by
  rcases anchored.offered with unoffered | ⟨ledger, given, offered⟩
  · have parentState := accepts.parentState
    rw [unoffered.globState, Finmap.lookup_empty] at parentState
    cases parentState
  apply anchored.once formed given offered (offered.published.mono accepts.publishes)
  by_cases inTree : block.hash crypto ∈ node.blockchain.blocks
  · obtain ⟨stored, found⟩ := HashMap.lookup_of_mem inTree
    have same : stored = block := noCollision.known (within.blocks _ stored found) known
      (formed.chain.stored _ stored found)
    exact settled_of_again offered.settled accepts notGenesis (same ▸ found)
  · exact settled_of_new formed offered.settled accepts inTree

/-- Taking over the offering anchors a node that has none. -/
theorem Node.Anchored.takeOver {icoState : Ledger} (anchored : node.Anchored crypto offer)
    (formed : node.WellFormed crypto) (within : node.Within crypto origin)
    (noCollision : NoCollision crypto origin) (unoffered : node.Unoffered crypto) :
    Node.Anchored crypto (some icoState)
      { node with globState := node.globState.insert (genesisHash crypto) icoState } := by
  refine ⟨anchored.genesisRef, anchored.genesisHeight, .inr ⟨icoState, rfl, ?_, ?_, ?_⟩⟩
  · exact Finmap.lookup_insert _
  · intro hash member
    rw [unoffered.onlyGenesis hash member]
    exact ⟨Finmap.mem_insert.mpr (.inl rfl), Finmap.mem_of_lookup_eq_some anchored.genesisRef⟩
  · intro hash block found
    have same := unoffered.onlyGenesis hash (Finmap.mem_of_lookup_eq_some found)
    subst same
    exact .inl (within.genesis_of_lookup formed noCollision found)

theorem Node.Anchored.effect (anchored : node.Anchored crypto offer)
    (passing : Passing crypto origin node (task :: rest)) (noCollision : NoCollision crypto origin)
    (offers : task.Offers crypto offer) (effect : Effect crypto node task after todo) :
    after.Anchored crypto offer ∧ ∀ next ∈ todo, next.Offers crypto offer := by
  have formed := passing.formed
  have inside := passing.inside task List.mem_cons_self
  cases effect with
  | skip _ => exact ⟨anchored, by simp⟩
  | addr _ _ | transaction _ _ _ _ _ _ _ _ _ _ _ =>
      exact ⟨anchored.same formed rfl rfl rfl fun _ _ => rfl, by simp⟩
  | release block vec waiting =>
      refine ⟨anchored.same formed rfl rfl rfl fun _ _ => rfl, fun next member => ?_⟩
      obtain ⟨each, -, rfl⟩ := List.mem_map.mp member
      trivial
  | buffer each _ _ _ =>
      rw [bufferOrphan_eq]
      exact ⟨anchored.same formed rfl rfl rfl fun _ _ => rfl, by simp⟩
  | transactionBlock each unknown _ _ =>
      refine ⟨anchored.same formed rfl rfl rfl fun ref member => ?_, by simp⟩
      rw [HashMap.lookup_insert_ite, if_neg]
      rintro rfl
      exact unknown member
  | ico hash icoState first =>
      obtain ⟨rfl, rfl⟩ := offers
      rcases anchored.offered with unoffered | ⟨ledger, -, offered⟩
      · exact ⟨anchored.takeOver formed passing.within noCollision unoffered, by simp⟩
      · have present := offered.globState
        rw [first, Finmap.lookup_empty] at present
        cases present
  | accept _ each _ checks _ applied =>
      obtain ⟨_, _, _, accepts⟩ := accepts_of_apply applied
      have acceptable : origin.Known crypto each ∧ each ≠ genesisBlock crypto := by
        cases checks with
        | received _ unknown _ _ =>
            refine ⟨inside, ?_⟩
            rintro rfl
            exact unknown formed.chain.genesis
        | orphan _ =>
            refine ⟨.inr inside, ?_⟩
            rintro rfl
            exact noCollision.genesis _ inside rfl
      refine ⟨anchored.accepts formed passing.within noCollision acceptable.1 acceptable.2 accepts,
        fun next member => ?_⟩
      rw [List.mem_singleton] at member
      subst member
      trivial

theorem Message.Offers.or {message : Message} (offers : message.Offers crypto offer)
    (more : Option Ledger) : message.Offers crypto (offer.or more) := by
  cases message with
  | ico hash icoState =>
      obtain ⟨genesis, rfl⟩ := offers
      exact ⟨genesis, rfl⟩
  | newAddr _ | newTransactionHashes _ | getTransactions _ | transactions _
  | newTransactionBlockHashes _ | getTransactionBlocks _ | transactionBlocks _
  | newProposerBlockHashes _ | getProposerBlocks _ | proposerBlocks _ => trivial

theorem MinerSends.offers {sent : List Outgoing} (sends : MinerSends crypto node after sent) :
    ∀ outgoing ∈ sent, outgoing.message.Offers crypto offer := by
  intro outgoing member
  cases sends with
  | nothing _ => cases member
  | proposer _ _ | transaction _ _ =>
      rw [List.mem_singleton] at member
      subst member
      trivial

theorem Sends.offers {outgoing : Outgoing} (offers : task.Offers crypto offer)
    (sends : Sends crypto node after task outgoing) : outgoing.message.Offers crypto offer := by
  cases sends with
  | ico _ _ => exact offers
  | addr _ _ | getTransaction _ _ | giveTransaction _ _ _ | relayTransaction _ _ _
  | getTransactionBlock _ _ | giveTransactionBlock _ _ _ | relayTransactionBlock _ _
  | getProposerBlock _ _ | giveProposerBlock _ _ _ | getParent _ _
  | relayProposerBlock _ _ _ _ => trivial

/-- Between the tasks for a message the node is anchored. -/
structure Anchoring (crypto : Crypto) (origin : Origin) (offer : Option Ledger) (node : Node)
    (todo : List Task) : Prop extends Passing crypto origin node todo where
  anchored : node.Anchored crypto offer
  offers : ∀ task ∈ todo, task.Offers crypto offer

theorem Anchoring.step (anchoring : Anchoring crypto origin offer node (task :: rest))
    (noCollision : NoCollision crypto origin) (effect : Effect crypto node task after todo) :
    Anchoring crypto origin offer after (todo ++ rest) := by
  obtain ⟨anchored, offers⟩ := anchoring.anchored.effect anchoring.toPassing noCollision
    (anchoring.offers task List.mem_cons_self) effect
  refine ⟨anchoring.toPassing.step effect, anchored, fun next member => ?_⟩
  rcases List.mem_append.mp member with new | old
  · exact offers next new
  · exact anchoring.offers next (List.mem_cons_of_mem _ old)

theorem Anchoring.runTasks (anchoring : Anchoring crypto origin offer node todo)
    (noCollision : NoCollision crypto origin)
    (completed : (runTasks crypto node todo).panic = none) :
    Anchoring crypto origin offer (SimplifiedPrism.runTasks crypto node todo).node [] ∧
      ∀ outgoing ∈ (SimplifiedPrism.runTasks crypto node todo).sent,
        outgoing.message.Offers crypto offer := by
  apply runTasks_keeps (Anchoring crypto origin offer)
    (fun outgoing => outgoing.message.Offers crypto offer) ?_ node todo anchoring completed
  intro node task rest progress anchoring ran
  exact ⟨anchoring.step noCollision (effect_of_run ran), fun outgoing sent =>
    (sends_of_run ran sent).offers (anchoring.offers task List.mem_cons_self)⟩

end Anchored

/-! ## What is made -/

section Made

variable {node after : Node} {hashed : Option Header}

theorem Node.Anchored.mined {origin : Origin} {offer : Option Ledger}
    (anchored : node.Anchored crypto offer) (formed : node.WellFormed crypto)
    (within : node.Within crypto origin) (withinAfter : after.Within crypto origin)
    (noCollision : NoCollision crypto origin) (mined : Mined crypto node hashed after) :
    after.Anchored crypto offer := by
  cases mined with
  | nothing => exact anchored
  | transaction header content _ _ _ _ _ _ _ _ =>
      refine anchored.same formed rfl rfl rfl fun ref member => ?_
      rw [HashMap.lookup_insert_ite]
      split
      · next same =>
          -- the hash was in the pool already, with the same transaction block
          subst same
          obtain ⟨stored, found⟩ := HashMap.lookup_of_mem member
          rw [found, Option.some.injEq]
          apply noCollision.txBlock
          · exact withinAfter.txBlockPool _ _ (Finmap.lookup_insert _)
          · exact within.txBlockPool _ stored found
          · exact (formed.pooled _ stored found).symm
      · rfl
  | proposer header _ propsBlockContent _ _ _ _ _ minedHeader _ accepts =>
      have found : after.blockchain.blocks.lookup (header.hash crypto) =
          some ⟨header, ⟨propsBlockContent⟩⟩ := by
        rw [accepts.blocks]
        exact Finmap.lookup_insert _
      apply anchored.accepts formed within noCollision (withinAfter.blocks _ _ found) ?_ accepts
      intro genesis
      obtain ⟨tipBlock, tipFound⟩ := HashMap.lookup_of_mem formed.chain.tip
      apply noCollision.fakeParent tipBlock (within.blocks _ tipBlock tipFound)
      rw [formed.chain.stored _ tipBlock tipFound, ← genesis]
      exact minedHeader.parent.symm

end Made

/-! ## The network -/

namespace Network

variable {Peer : Type*}

/-- Every node is anchored, and every offering under way is the one that was made. -/
structure Anchored (crypto : Crypto) (offer : Option Ledger) (network : Network Peer) : Prop where
  nodes : ∀ peer, (network.nodes peer).Anchored crypto offer
  packets : ∀ packet ∈ network.packets, packet.message.Offers crypto offer

/-- The ledger that an event offers. -/
def offered (network : Network Peer) : Event Peer → Option Ledger
  | .ico peer => some (icoState (network.nodes peer).allAddr)
  | .deliver _ | .mine _ _ | .mineAttacker _ _ | .generateAddress _ _ | .generate _ _ => none

theorem Initial.anchored {network : Network Peer} (start : network.Initial crypto) :
    network.Anchored crypto none := by
  obtain ⟨nodes, packets⟩ := start
  refine ⟨fun peer => ?_, by simp [packets]⟩
  rw [nodes]
  refine ⟨?_, ?_, .inl ⟨rfl, fun hash member => ?_⟩⟩
  · exact Finmap.lookup_insert _
  · exact Finmap.lookup_insert _
  · simpa [Node.initial, Blockchain.new, Finmap.notMem_empty] using member

section Step

variable {graph : Graph Peer} {origin : Origin} {offer : Option Ledger}
variable {before after : Network Peer} {event : Event Peer} {outcome : Outcome}

/-- The offering is made when there is none yet. -/
theorem Anchored.ico {peer : Peer} (anchored : before.Anchored crypto none)
    (within : before.Within crypto origin) (noCollision : NoCollision crypto origin) :
    (handleIcoSignal (before.nodes peer)).node.Anchored crypto
        (some (icoState (before.nodes peer).allAddr)) ∧
      ∀ outgoing ∈ (handleIcoSignal (before.nodes peer)).sent,
        outgoing.message.Offers crypto (some (icoState (before.nodes peer).allAddr)) := by
  have formed := within.formed peer
  rcases (anchored.nodes peer).offered with unoffered | ⟨_, impossible, -⟩
  · have tip : (before.nodes peer).blockchain.tip = genesisHash crypto :=
      unoffered.onlyGenesis _ formed.chain.tip
    rw [handleIcoSignal, tip]
    refine ⟨(anchored.nodes peer).takeOver formed (within.nodes peer) noCollision unoffered,
      fun outgoing sent => ?_⟩
    rw [List.mem_singleton] at sent
    subst sent
    exact ⟨rfl, rfl⟩
  · cases impossible

theorem Anchored.performed (anchored : before.Anchored crypto offer)
    (within : before.Within crypto origin) (withinAfter : outcome.node.Within crypto origin)
    (noCollision : NoCollision crypto origin)
    (single : before.offered event ≠ none → offer = none)
    (performed : Performed crypto before event outcome) (completed : outcome.panic = none) :
    outcome.node.Anchored crypto (offer.or (before.offered event)) ∧
      ∀ outgoing ∈ outcome.sent,
        outgoing.message.Offers crypto (offer.or (before.offered event)) := by
  have formed := within.formed event.actor
  have here := anchored.nodes event.actor
  cases performed with
  | deliver packet underWay _ served =>
      subst served
      rw [offered, Option.or_none]
      obtain ⟨anchoring, sent⟩ := Anchoring.runTasks
        ⟨Passing.receive (within.nodes _) formed (within.packets packet underWay), here,
          (anchored.packets packet underWay).tasks _⟩ noCollision completed
      exact ⟨anchoring.anchored, sent⟩
  | mine peer choice progress possible ran =>
      rw [offered, Option.or_none]
      refine ⟨here.mined formed (within.nodes _) withinAfter noCollision
        (mined_of_minerLoop possible ran), fun outgoing sent => ?_⟩
      exact (sends_of_minerLoop ran).offers outgoing sent
  | mineAttacker peer choice progress ran =>
      rw [offered, Option.or_none]
      refine ⟨here.mined formed (within.nodes _) withinAfter noCollision
        (mined_of_minerLoopAttacker ran), fun outgoing sent => ?_⟩
      exact (sends_of_minerLoopAttacker ran).offers outgoing sent
  | generateAddress peer key =>
      rw [offered, Option.or_none]
      refine ⟨here.same formed rfl rfl rfl fun _ _ => rfl, fun outgoing sent => ?_⟩
      rw [generateAddress, List.mem_singleton] at sent
      subst sent
      trivial
  | generate peer draws =>
      rw [offered, Option.or_none]
      refine ⟨?_, fun outgoing sent => ?_⟩
      · rcases @generated_of_round crypto (before.nodes peer) draws with
          unchanged | ⟨_, -, generated⟩
        · rw [unchanged]
          exact here
        · rw [generated.onlyPool]
          exact here.same formed rfl rfl rfl fun _ _ => rfl
      · obtain ⟨hash, rfl⟩ := sends_of_generatorLoop sent
        trivial
  | ico peer =>
      have none := single (by simp [offered])
      subst none
      rw [Option.none_or]
      exact anchored.ico within noCollision

/-- An event keeps every node anchored, in what was offered before or is now. -/
theorem Anchored.step [DecidableEq Peer] (anchored : before.Anchored crypto offer)
    (within : before.Within crypto origin) (withinAfter : after.Within crypto origin)
    (noCollision : NoCollision crypto origin)
    (single : before.offered event ≠ none → offer = none)
    (stepped : before.step crypto graph event = some after) :
    after.Anchored crypto (offer.or (before.offered event)) := by
  obtain ⟨outcome, performs, completed, -, nodes, packets⟩ := step_cases stepped
  have actor : after.nodes event.actor = outcome.node := by rw [nodes, Function.update_self]
  obtain ⟨here, sent⟩ := anchored.performed within (actor ▸ withinAfter.nodes event.actor)
    noCollision single (performed_of_perform performs completed) completed
  refine ⟨fun peer => ?_, fun packet member => ?_⟩
  · by_cases own : peer = event.actor
    · rwa [own, actor]
    · rw [nodes, Function.update_of_ne own]
      exact (anchored.nodes peer).or _
  · rw [packets] at member
    rcases List.mem_append.mp member with old | new
    · exact (anchored.packets packet (mem_of_mem_remaining old)).or _
    · obtain ⟨outgoing, isSent, routed⟩ := List.mem_flatMap.mp new
      obtain ⟨-, ⟨rfl, -⟩ | ⟨rfl, -⟩⟩ := mem_route.mp routed
      · exact sent _ isSent
      · exact sent _ isSent

end Step

end Network

/-! ## Runs -/

section Runs

variable {Peer : Type*} [DecidableEq Peer] {graph : Graph Peer}

/-- The ledger that has been offered in the first steps of a run. -/
def offerBefore {start : Network Peer → Prop} (run : Run (Network.step crypto graph) start) :
    Nat → Option Ledger
  | 0 => none
  | index + 1 => (offerBefore run index).or ((run.states index).offered (run.actions index))

/-- The offering is made at most once. -/
def OneOffering {start : Network Peer → Prop} (run : Run (Network.step crypto graph) start) :
    Prop :=
  ∀ index < run.length, (run.states index).offered (run.actions index) ≠ none →
    offerBefore run index = none

/-- In every run with one offering every node is anchored in it. -/
theorem anchored_of_run (run : Run (Network.step crypto graph) (Network.Initial crypto))
    (single : OneOffering run) (noCollision : NoCollision crypto (madeBefore run run.length)) :
    ∀ index ≤ run.length, (run.states index).Anchored crypto (offerBefore run index) := by
  intro index bound
  induction index with
  | zero => exact run.starts.anchored
  | succ index ih =>
      have within := within_of_run run index (by omega)
      have withinAfter := within_of_run run (index + 1) bound
      have le := madeBefore_le run (Nat.le_succ index)
      exact (ih (by omega)).step (within.mono le) withinAfter
        (noCollision.of_le (madeBefore_le run bound)) (single index (by omega))
        (run.steps index (by omega))

end Runs

end SimplifiedPrism
