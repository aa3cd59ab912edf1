import SimplifiedPrism.Dissemination
import SimplifiedPrism.Draining
import SimplifiedPrism.Sortition

/-!
# Spreading through the network

Every event of a run carries what spreads one stage further, and no received block is
lost: it is in the tree or waits for a parent that somebody has.  This holds of an honest
network as long as the miners make no block twice and hit no threshold.
-/

namespace SimplifiedPrism

variable {crypto : Crypto}

/-! ## One node -/

/-- What a node does with a message, or on its own, as far as the gossip is concerned. -/
structure Gossips (crypto : Crypto) (before : Node) (received : Option Message) (after : Node)
    (sent : List Outgoing) : Prop extends Shares before after sent where
  announced : ∀ message ∈ received, ∀ item, message.Announces item → after.Holds item ∨
    ∃ reply, .write reply ∈ sent ∧ reply.AsksFor item
  asked : ∀ message ∈ received, ∀ item, message.AsksFor item → before.Holds item →
    ∃ reply, .write reply ∈ sent ∧ reply.Gives crypto item
  given : ∀ message ∈ received, ∀ item, message.Gives crypto item →
    after.Holds item ∨ after.Defers crypto item
  waits : ∀ item, before.Defers crypto item → after.Holds item ∨ after.Defers crypto item

section Node

variable {origin : Origin} {node after : Node} {sent : List Outgoing} {message : Message}

theorem Shares.gossips (shares : Shares node after sent)
    (orphanHandler : after.orphanHandler = node.orphanHandler) :
    Gossips crypto node none after sent where
  toShares := shares
  announced := by simp
  asked := by simp
  given := by simp
  waits := by
    intro item deferred
    cases item with
    | proposerBlock hash =>
        obtain ⟨block, waits, same⟩ := deferred
        refine .inr ⟨block, ?_, same⟩
        rwa [Node.Waits, orphanHandler]
    | address _ | offering | txBlock _ => cases deferred

theorem gossips_of_workerLoop (within : node.Within crypto origin)
    (formed : node.WellFormed crypto) (inside : message.Within crypto origin)
    (passes : origin.Passes crypto) (nothingLost : NothingLost crypto [] node [])
    (completed : (workerLoop crypto node message).panic = none) :
    Gossips crypto node (some message) (workerLoop crypto node message).node
      (workerLoop crypto node message).sent := by
  have located := (located_of_workerLoop within formed inside passes nothingLost completed).2
  have deferred {block : ProposerBlock}
      (received : block ∈ message.givenBlocks ∨ node.Waits block) :
      (workerLoop crypto node message).node.Holds (.proposerBlock (block.hash crypto)) ∨
        (workerLoop crypto node message).node.Defers crypto
          (.proposerBlock (block.hash crypto)) :=
    (located block received).imp_right fun waits => ⟨block, waits, rfl⟩
  refine
    { toShares := shares_of_runTasks node (message.tasks node) completed
      announced := ?_
      asked := ?_
      given := ?_
      waits := ?_ }
  · rintro _ ⟨⟩ item announces
    exact announced_of_workerLoop announces completed
  · rintro _ ⟨⟩ item asks held
    exact asked_of_workerLoop formed asks held
  · rintro _ ⟨⟩ item gives
    cases gives with
    | txBlock txBlockVec txBlock listed =>
        exact .inl (pooled_of_workerLoop listed (inside txBlock listed) passes completed)
    | proposerBlock proposerBlockVec block listed => exact deferred (.inl listed)
  · intro item waiting
    cases item with
    | proposerBlock hash =>
        obtain ⟨block, waits, rfl⟩ := waiting
        exact deferred (.inr waits)
    | address _ | offering | txBlock _ => cases waiting

end Node

/-! ## The network -/

/-- The second peer is connected to the first. -/
def Graph.Joined {Peer : Type*} (graph : Graph Peer) (first second : Peer) : Prop :=
  second ∈ graph.peers first

namespace Network

variable {Peer : Type*}

/-- The message that an event delivers. -/
def Event.received : Event Peer → Option Message
  | .deliver packet => some packet.message
  | _ => none

/-- Where the items are in a network. -/
def gossip (crypto : Crypto) (network : Network Peer) : Gossip Peer Item where
  holds peer item := (network.nodes peer).Holds item
  announced first second item :=
    ∃ message, ⟨first, second, message⟩ ∈ network.packets ∧ message.Announces item
  asked first second item :=
    ∃ message, ⟨second, first, message⟩ ∈ network.packets ∧ message.AsksFor item
  given first second item :=
    ∃ message, ⟨first, second, message⟩ ∈ network.packets ∧ message.Gives crypto item
  waits peer item := (network.nodes peer).Defers crypto item

section Step

variable {graph : Graph Peer} {origin more : Origin} {before after : Network Peer}
variable {event : Event Peer} {outcome : Outcome}

theorem orphanHandler_of_own (performed : Performed crypto before event outcome)
    (own : event.Own) :
    outcome.node.orphanHandler = (before.nodes event.actor).orphanHandler := by
  cases performed with
  | deliver _ _ _ _ => exact own.elim
  | mine _ _ _ possible ran => exact (mined_of_minerLoop possible ran).orphanHandler
  | mineAttacker _ _ _ ran => exact (mined_of_minerLoopAttacker ran).orphanHandler
  | generateAddress _ _ | ico _ => rfl
  | generate peer draws =>
      rcases @generated_of_round crypto (before.nodes peer) draws with
        same | ⟨_, -, generated⟩
      · exact congrArg Node.orphanHandler same
      · rw [generated.onlyPool]
        rfl

/-- The acting peer loses nothing and announces whatever it comes to hold. -/
theorem shares_of_performed (performed : Performed crypto before event outcome)
    (completed : outcome.panic = none) :
    Shares (before.nodes event.actor) outcome.node outcome.sent := by
  cases performed with
  | deliver packet _ _ served =>
      subst served
      exact shares_of_runTasks _ _ completed
  | mine _ _ _ possible ran =>
      exact (mined_of_minerLoop possible ran).shares (sends_of_minerLoop ran)
        (announced_of_minerLoop ran)
  | mineAttacker _ _ _ ran =>
      exact (mined_of_minerLoopAttacker ran).shares (sends_of_minerLoopAttacker ran)
        (announced_of_minerLoopAttacker ran)
  | generateAddress _ _ => exact .of_address
  | ico _ => exact .of_offering
  | generate peer draws =>
      have same : ∀ item, (generatorLoop crypto (before.nodes peer) draws).node.Holds item ↔
          (before.nodes peer).Holds item := by
        rcases @generated_of_round crypto (before.nodes peer) draws with
          same | ⟨_, -, generated⟩
        · exact fun item => by rw [same]
        · rw [generated.onlyPool]
          exact fun item => by cases item <;> rfl
      exact ⟨fun item held => (same item).mpr held, fun item held => .inl ((same item).mp held)⟩

variable [DecidableEq Peer]

theorem holds_of_step (stepped : before.step crypto graph event = some after) {peer : Peer}
    {item : Item} (held : (before.nodes peer).Holds item) : (after.nodes peer).Holds item := by
  obtain ⟨outcome, performs, completed, -, nodes, -⟩ := step_cases stepped
  rw [nodes]
  by_cases own : peer = event.actor
  · subst own
    rw [Function.update_self]
    exact (shares_of_performed (performed_of_perform performs completed) completed).kept item held
  · rwa [Function.update_of_ne own]

/-- An event carries every item further, when the acting peer does. -/
theorem forwards_of_gossips {sent : List Outgoing} {node : Node}
    (gossips : Gossips crypto (before.nodes event.actor) event.received node sent)
    (nodes : after.nodes = Function.update before.nodes event.actor node)
    (packets : after.packets = before.remaining event ++ sent.flatMap (route graph event)) :
    Gossip.Forwards graph.Joined (before.gossip crypto) (after.gossip crypto) := by
  have actor : after.nodes event.actor = node := by rw [nodes, Function.update_self]
  have other {peer : Peer} (distinct : peer ≠ event.actor) :
      after.nodes peer = before.nodes peer := by
    rw [nodes, Function.update_of_ne distinct]
  have stays {packet : Packet Peer} (underWay : packet ∈ before.packets) :
      packet ∈ after.packets ∨ event = .deliver packet := by
    rw [packets]
    exact (mem_remaining event underWay).imp_left (List.mem_append_left _)
  have routed {packet : Packet Peer} {outgoing : Outgoing} (isSent : outgoing ∈ sent)
      (routes : packet ∈ route graph event outgoing) : packet ∈ after.packets := by
    rw [packets]
    exact List.mem_append_right _ (List.mem_flatMap.mpr ⟨outgoing, isSent, routes⟩)
  have answered {packet : Packet Peer} {reply : Message} (delivery : event = .deliver packet)
      (isSent : .write reply ∈ sent) : ⟨packet.dest, packet.source, reply⟩ ∈ after.packets := by
    subst delivery
    exact routed isSent (mem_route.mpr ⟨rfl, .inr ⟨rfl, rfl⟩⟩)
  have atActor {item : Item} : (after.nodes event.actor).Holds item ↔ node.Holds item := by
    rw [actor]
  have deferredThere {item : Item} : (after.nodes event.actor).Defers crypto item ↔
      node.Defers crypto item := by
    rw [actor]
  constructor
  · intro peer item held
    by_cases own : peer = event.actor
    · subst own
      exact atActor.mpr (gossips.kept item held)
    · change (after.nodes peer).Holds item
      rw [other own]
      exact held
  · intro peer item held
    by_cases own : peer = event.actor
    · subst own
      rcases gossips.told item (atActor.mp held) with earlier | ⟨message, isSent, announces⟩
      · exact .inl earlier
      · exact .inr fun dest joined => ⟨message,
          routed isSent (mem_route.mpr ⟨rfl, .inl ⟨rfl, joined⟩⟩), announces⟩
    · change (after.nodes peer).Holds item at held
      rw [other own] at held
      exact .inl held
  · rintro first second item ⟨message, underWay, announces⟩
    rcases stays underWay with still | rfl
    · exact .inl ⟨message, still, announces⟩
    · right
      rcases gossips.announced message rfl item announces with held | ⟨reply, isSent, asks⟩
      · exact .inl (atActor.mpr held)
      · exact .inr ⟨reply, answered rfl isSent, asks⟩
  · rintro first second item held ⟨message, underWay, asks⟩
    rcases stays underWay with still | rfl
    · exact .inl ⟨message, still, asks⟩
    · right
      obtain ⟨reply, isSent, gives⟩ := gossips.asked message rfl item asks held
      exact ⟨reply, answered rfl isSent, gives⟩
  · rintro first second item ⟨message, underWay, gives⟩
    rcases stays underWay with still | rfl
    · exact .inl ⟨message, still, gives⟩
    · right
      exact (gossips.given message rfl item gives).imp atActor.mpr deferredThere.mpr
  · intro peer item deferred
    by_cases own : peer = event.actor
    · subst own
      exact (gossips.waits item deferred).imp atActor.mpr deferredThere.mpr
    · right
      change (after.nodes peer).Defers crypto item
      rw [other own]
      exact deferred

/-- Everything has been chosen, what has been chosen is held by somebody, no received block
is lost, and every item is held by neighbours or on its way to them. -/
structure Gossiping (crypto : Crypto) (graph : Graph Peer) (origin : Origin)
    (network : Network Peer) : Prop where
  within : network.Within crypto origin
  block : ∀ block, origin.block block →
    ∃ peer, (network.nodes peer).Holds (.proposerBlock (block.hash crypto))
  txBlock : ∀ txBlock, origin.txBlock txBlock →
    ∃ peer, (network.nodes peer).Holds (.txBlock (txBlock.hash crypto))
  reference : ∀ block, origin.block block → ∀ ref ∈ block.content.proposerContent,
    ∃ peer, (network.nodes peer).Holds (.txBlock ref)
  nothingLost : ∀ peer, NothingLost crypto [] (network.nodes peer) []
  spread : (network.gossip crypto).Spread graph.Joined

omit [DecidableEq Peer] in
theorem Within.parent_mem (within : before.Within crypto origin)
    (noCollision : NoCollision crypto origin) {peer : Peer} {block : ProposerBlock}
    (chosen : origin.block block)
    (inTree : block.hash crypto ∈ (before.nodes peer).blockchain.blocks) :
    block.header.proposerParent ∈ (before.nodes peer).blockchain.blocks := by
  have formed := within.formed peer
  obtain ⟨stored, found⟩ := HashMap.lookup_of_mem inTree
  have same : stored = block :=
    noCollision.known ((within.nodes peer).blocks _ stored found) (.inr chosen)
      (formed.chain.stored _ stored found)
  subst same
  have notGenesis : stored ≠ genesisBlock crypto := by
    rintro rfl
    exact noCollision.genesis _ chosen rfl
  exact (formed.chain.parents _ stored found).resolve_left notGenesis

omit [DecidableEq Peer] in
theorem Gossiping.nothingLost_of_own (gossiping : before.Gossiping crypto graph origin)
    (noCollision : NoCollision crypto origin) {node : Node}
    (orphanHandler : node.orphanHandler = (before.nodes event.actor).orphanHandler)
    (new : ∀ hash ∈ node.blockchain.blocks,
      hash ∈ (before.nodes event.actor).blockchain.blocks ∨
        ∀ peer, hash ∉ (before.nodes peer).blockchain.blocks) :
    NothingLost crypto [] node [] := by
  have nothingLost := gossiping.nothingLost event.actor
  refine ⟨by simp, orphanHandler ▸ nothingLost.nonempty, fun parent waiting inTree => ?_⟩
  rw [orphanHandler] at waiting
  rcases new parent inTree with known | fresh
  · exact nothingLost.awaited parent waiting known
  · obtain ⟨bucket, found⟩ := HashMap.lookup_of_mem waiting
    cases bucket with
    | nil => exact absurd found (nothingLost.nonempty parent)
    | cons block rest =>
        have chosen := (gossiping.within.nodes event.actor).waiting parent _ found block
          List.mem_cons_self
        have awaited := (gossiping.within.formed event.actor).waiting parent _ found block
          List.mem_cons_self
        obtain ⟨peer, inTree⟩ := gossiping.block block chosen
        have known := gossiping.within.parent_mem noCollision chosen inTree
        exact absurd (awaited ▸ known) (fresh peer)

/-- One event, which makes no block that a tree has, keeps the network gossiping. -/
theorem Gossiping.step (gossiping : before.Gossiping crypto graph origin) (le : origin.Le more)
    (made : (before.made event after).Le more)
    (onlyBlock : ∀ block, more.block block →
      origin.block block ∨ (before.made event after).block block)
    (onlyTxBlock : ∀ txBlock, more.txBlock txBlock →
      origin.txBlock txBlock ∨ (before.made event after).txBlock txBlock)
    (noCollision : NoCollision crypto origin) (passes : origin.Passes crypto)
    (fresh : ∀ block, (before.made event after).block block →
      ∀ peer, block.hash crypto ∉ (before.nodes peer).blockchain.blocks)
    (stepped : before.step crypto graph event = some after) :
    after.Gossiping crypto graph more := by
  have within := (gossiping.within.mono le).step made stepped
  have makes := gossiping.within.makes stepped
  obtain ⟨outcome, performs, completed, -, nodes, packets⟩ := step_cases stepped
  have performed := performed_of_perform performs completed
  have actor : after.nodes event.actor = outcome.node := by rw [nodes, Function.update_self]
  have formed := within.formed event.actor
  -- what the acting peer does
  have acts : Gossips crypto (before.nodes event.actor) event.received outcome.node outcome.sent ∧
      NothingLost crypto [] outcome.node [] := by
    by_cases own : event.Own
    · have orphanHandler := orphanHandler_of_own performed own
      have gossips : Gossips crypto (before.nodes event.actor) none outcome.node outcome.sent :=
        (shares_of_performed performed completed).gossips orphanHandler
      have received : event.received = none := by
        cases event with
        | deliver _ => exact own.elim
        | mine _ _ | mineAttacker _ _ | generateAddress _ _ | generate _ _ | ico _ => rfl
      refine ⟨received ▸ gossips, gossiping.nothingLost_of_own noCollision orphanHandler ?_⟩
      intro hash inTree
      by_cases known : hash ∈ (before.nodes event.actor).blockchain.blocks
      · exact .inl known
      · right
        obtain ⟨block, found⟩ := HashMap.lookup_of_mem inTree
        rw [actor] at formed
        rw [← formed.chain.stored hash block found]
        refine fresh block ⟨own, hash, actor ▸ found, fun old => ?_⟩
        exact known (Finmap.mem_of_lookup_eq_some old)
    · cases performed with
      | deliver packet underWay _ served =>
          subst served
          have inside := gossiping.within.packets packet underWay
          exact ⟨gossips_of_workerLoop (gossiping.within.nodes _) (gossiping.within.formed _) inside
            passes (gossiping.nothingLost _) completed, (located_of_workerLoop
            (gossiping.within.nodes _) (gossiping.within.formed _) inside passes
            (gossiping.nothingLost _) completed).1⟩
      | mine _ _ _ _ _ | mineAttacker _ _ _ _ | generateAddress _ _ | generate _ _ | ico _ =>
          exact absurd trivial own
  obtain ⟨gossips, nothingLost⟩ := acts
  have forwards := forwards_of_gossips gossips nodes packets
  have kept {item : Item} : (∃ peer, (before.nodes peer).Holds item) →
      ∃ peer, (after.nodes peer).Holds item :=
    fun ⟨peer, held⟩ => ⟨peer, forwards.kept peer item held⟩
  refine
    { within := within
      block := fun block chosen => ?_
      txBlock := fun txBlock chosen => ?_
      reference := fun block chosen ref member => ?_
      nothingLost := fun peer => ?_
      spread := gossiping.spread.carry forwards }
  · rcases onlyBlock block chosen with old | new
    · exact kept (gossiping.block block old)
    · obtain ⟨-, hash, found, -⟩ := new
      rw [formed.chain.stored hash block found]
      exact ⟨event.actor, Finmap.mem_of_lookup_eq_some found⟩
  · rcases onlyTxBlock txBlock chosen with old | new
    · exact kept (gossiping.txBlock txBlock old)
    · obtain ⟨-, hash, found, -⟩ := new
      rw [formed.pooled hash txBlock found]
      exact ⟨event.actor, Finmap.mem_of_lookup_eq_some found⟩
  · rcases onlyBlock block chosen with old | new
    · exact kept (gossiping.reference block old ref member)
    · exact kept ⟨event.actor, (makes.block block new).selected.pooled ref member⟩
  · by_cases own : peer = event.actor
    · rwa [own, actor]
    · rw [nodes, Function.update_of_ne own]
      exact gossiping.nothingLost peer

end Step

end Network

/-! ## Messages that are always served -/

/-- The task cannot panic. -/
def Task.Harmless : Task → Prop
  | .transaction _ _ | .proposerBlock _ | .newParent _ | .orphan _ => False
  | _ => True

theorem completed_of_harmless (node : Node) (todo : List Task)
    (harmless : ∀ task ∈ todo, task.Harmless) : (runTasks crypto node todo).panic = none := by
  fun_induction runTasks crypto node todo with
  | case1 node => rfl
  | case2 node task rest panicked ran =>
      have own := harmless task List.mem_cons_self
      cases failure_of_run ran with
      | transaction _ _ _ _ => exact own.elim
      | signature _ _ _ checks _ | apply _ _ _ checks _ _ => cases checks <;> exact own.elim
  | case3 node task rest progress ran outcome ih =>
      have own := harmless task List.mem_cons_self
      have nothing : progress.todo = [] := by
        have effect := effect_of_run ran
        generalize progress.node = after, progress.todo = todo at effect ⊢
        cases effect with
        | skip _ | addr _ _ | ico _ _ _ | transaction _ _ _ _ _ _ _ _ _ _ _
        | transactionBlock _ _ _ _ | buffer _ _ _ _ => rfl
        | accept _ _ _ checks _ _ => cases checks <;> exact own.elim
        | release _ _ _ => exact own.elim
      apply ih
      rw [nothing]
      exact fun next member => harmless next (List.mem_cons_of_mem _ member)

/-- A message that announces or asks for something, or gives a transaction block, is served. -/
theorem completed_of_about (node : Node) {message : Message} {item : Item}
    (about : message.Announces item ∨ message.AsksFor item ∨
      message.Gives crypto item ∧ ∀ hash, item ≠ .proposerBlock hash) :
    (workerLoop crypto node message).panic = none := by
  apply completed_of_harmless
  intro task member
  cases message with
  | transactions _ => rcases about with about | about | ⟨about, -⟩ <;> cases about
  | proposerBlocks _ =>
      rcases about with about | about | ⟨about, other⟩
      · cases about
      · cases about
      · cases about
        exact absurd rfl (other _)
  | ico _ _ =>
      rw [Message.tasks, List.mem_singleton] at member
      subst member
      trivial
  | newAddr _ | newTransactionHashes _ | getTransactions _ | newTransactionBlockHashes _
  | getTransactionBlocks _ | transactionBlocks _ | newProposerBlockHashes _
  | getProposerBlocks _ =>
      obtain ⟨each, -, rfl⟩ := List.mem_map.mp member
      trivial

/-- A node that has the offering and all transaction blocks that chosen proposer blocks
refer to serves every message. -/
theorem completed_of_supplied {origin : Origin} {offer : Option Ledger} {node : Node}
    {message : Message} (within : node.Within crypto origin) (formed : node.WellFormed crypto)
    (anchored : node.Anchored crypto offer) (noCollision : NoCollision crypto origin)
    (shaped : origin.Shaped) (inside : message.Within crypto origin)
    (offers : message.Offers crypto offer) (offered : node.Holds .offering)
    (supplied : ∀ block, origin.block block → ∀ ref ∈ block.content.proposerContent,
      ref ∈ node.txBlockPool) :
    (workerLoop crypto node message).panic = none := by
  rw [Option.eq_none_iff_forall_ne_some]
  intro panic panics
  cases stops_of_workerLoop within formed anchored noCollision shaped inside offers panics with
  | unoffered missing =>
      obtain ⟨hash, member⟩ := offered
      rw [missing] at member
      exact Finmap.notMem_empty member
  | unpooled _ _ _ _ _ =>
      -- no lookup of a transaction block fails, for whichever block is checked
      let serving (next : Node) (todo : List Task) : Prop :=
        Anchoring crypto origin offer next todo ∧ ∀ ref ∈ node.txBlockPool, ref ∈ next.txBlockPool
      refine runTasks_stops serving (· ≠ Panic.txBlockPool) ?_ ?_ node (message.tasks node)
        ⟨⟨Passing.receive within formed inside, anchored, offers.tasks node⟩,
          fun _ pooled => pooled⟩ panics rfl
      · rintro next task rest progress ⟨anchoring, pooled⟩ ran
        exact ⟨anchoring.step noCollision (effect_of_run ran), fun ref member =>
          (effect_of_run ran).mem_txBlockPool ref (pooled ref member)⟩
      · rintro next task rest panicked ⟨anchoring, pooled⟩ failed
        cases failure_of_run failed with
        | transaction _ _ _ cause =>
            rcases cause with rfl | ⟨rfl, -⟩
            · simp
            · simp
        | signature _ each panic checks signing =>
            have chosen : origin.block each := by
              have given := anchoring.inside task List.mem_cons_self
              cases checks with
              | received _ unknown _ _ =>
                  apply given.resolve_left
                  rintro rfl
                  exact unknown anchoring.formed.chain.genesis
              | orphan _ => exact given
            obtain ⟨valid, checked⟩ := signedCorrectly_isOk.mpr (readPooled_of_mem
              fun ref member => pooled ref (supplied each chosen ref member))
            rw [signing] at checked
            cases checked
        | apply _ each _ checks signed applying =>
            have cause := (anchoring.anchored.apply anchoring.formed anchoring.within shaped
              (checks.parent_mem (anchoring.grounded task List.mem_cons_self)) signed applying).1
            simp [cause]

/-! ## Runs -/

section Runs

variable {Peer : Type*} [DecidableEq Peer] {graph : Graph Peer}

/-- No proposer block is made that somebody has already, and no transaction block on the
threshold where the miner and the workers disagree. -/
structure MadeSoundly (run : Run (Network.step crypto graph) (Network.Initial crypto)) : Prop where
  fresh : ∀ index < run.length, ∀ block,
    ((run.states index).made (run.actions index) (run.states (index + 1))).block block →
      ∀ peer, block.hash crypto ∉ ((run.states index).nodes peer).blockchain.blocks
  offThreshold : ∀ txBlock, (madeBefore run run.length).txBlock txBlock →
    ¬ txBlock.header.OnThreshold crypto

instance (event : Network.Event Peer) : Decidable event.Own :=
  match event with
  | .deliver _ => isFalse id
  | .mine _ _ | .mineAttacker _ _ | .generateAddress _ _ | .generate _ _ | .ico _ => isTrue trivial

variable {run : Run (Network.step crypto graph) (Network.Initial crypto)}

/-- A run is sound when what is new after each own step is new to all, and no transaction
block of a list with all that were made is on the threshold. -/
theorem MadeSoundly.of_entries {txBlocks : List TXBlock}
    (onlyTxBlocks : ∀ txBlock, (madeBefore run run.length).txBlock txBlock → txBlock ∈ txBlocks)
    (newBlocks : ∀ index < run.length, (run.actions index).Own → ∀ entry ∈
      ((run.states (index + 1)).nodes (run.actions index).actor).blockchain.blocks.entries,
        ((run.states index).nodes (run.actions index).actor).blockchain.blocks.lookup entry.1 =
          some entry.2 ∨
        ∀ peer, entry.2.hash crypto ∉ ((run.states index).nodes peer).blockchain.blocks)
    (offThreshold : ∀ txBlock ∈ txBlocks, ¬ txBlock.header.OnThreshold crypto) :
    MadeSoundly run where
  fresh := by
    rintro index bound block ⟨own, hash, found, new⟩
    exact (newBlocks index bound own ⟨hash, block⟩
      ((HashMap.mem_entries_iff _ hash block).mpr found)).resolve_left new
  offThreshold := fun txBlock made => offThreshold txBlock (onlyTxBlocks txBlock made)

theorem passes_madeBefore
    (correct : ∀ key message,
      crypto.ed25519Verify (crypto.publicKey key) message (crypto.ed25519Sign key message) = true)
    (sound : MadeSoundly run) {index : Nat} (bound : index ≤ run.length) :
    (madeBefore run index).Passes crypto where
  block := by
    rintro block ⟨earlier, before, made⟩
    exact H256.not_lt_of_lt ((makes_of_run run earlier (by omega)).block block made).won
  work := by
    rintro txBlock ⟨earlier, before, made⟩
    exact H256.not_lt_of_lt ((makes_of_run run earlier (by omega)).txBlock txBlock made).won
  notProposer := by
    rintro txBlock chosen below
    obtain ⟨earlier, before, made⟩ := chosen
    have makes := (makes_of_run run earlier (by omega)).txBlock txBlock made
    have lost := makes.lost
    have won := makes.won
    rw [H256.lt_iff_toNat] at lost won
    rw [H256.le_iff_toNat] at below
    exact sound.offThreshold txBlock ⟨earlier, by omega, made⟩
      ⟨Nat.le_antisymm below (Nat.le_of_not_lt lost), won⟩
  signed := by
    intro txBlock chosen tx member
    obtain ⟨earlier, before, made⟩ := transaction_of_txBlock bound chosen tx member
    obtain ⟨ledger, -, allAddr, key, draw, coin, -, nonzero, built⟩ :=
      (makes_of_run run earlier (by omega)).transaction tx made
    exact (sound_of_build correct nonzero built).1

omit [DecidableEq Peer] in
theorem Network.Initial.gossiping {network : Network Peer} (start : network.Initial crypto)
    {origin : Origin} (noBlock : ∀ block, ¬ origin.block block)
    (noTxBlock : ∀ txBlock, ¬ origin.txBlock txBlock) :
    network.Gossiping crypto graph origin where
  within := start.within origin
  block := fun block chosen => absurd chosen (noBlock block)
  txBlock := fun txBlock chosen => absurd chosen (noTxBlock txBlock)
  reference := fun block chosen => absurd chosen (noBlock block)
  nothingLost := by
    intro peer
    rw [start.1]
    exact ⟨by simp, by simp [Node.initial], by simp [Node.initial, Finmap.notMem_empty]⟩
  spread := by
    intro first second joined item held
    left
    change (network.nodes second).Holds item
    change (network.nodes first).Holds item at held
    rw [start.1] at held ⊢
    exact held

theorem gossiping_of_run
    (correct : ∀ key message,
      crypto.ed25519Verify (crypto.publicKey key) message (crypto.ed25519Sign key message) = true)
    (noCollision : NoCollision crypto (madeBefore run run.length)) (sound : MadeSoundly run) :
    ∀ index ≤ run.length,
      (run.states index).Gossiping crypto graph (madeBefore run index) := by
  intro index bound
  induction index with
  | zero =>
      apply run.starts.gossiping
      · rintro block ⟨_, impossible, -⟩
        exact Nat.not_lt_zero _ impossible
      · rintro txBlock ⟨_, impossible, -⟩
        exact Nat.not_lt_zero _ impossible
  | succ index ih =>
      have latest {earlier : Nat} (before : earlier < index + 1) :
          earlier < index ∨ earlier = index := by omega
      refine (ih (by omega)).step (madeBefore_le run (Nat.le_succ index)) ?_ ?_ ?_
        (noCollision.of_le (madeBefore_le run (by omega)))
        (passes_madeBefore correct sound (by omega))
        (sound.fresh index (by omega)) (run.steps index (by omega))
      · exact ⟨fun _ made => ⟨index, by omega, made⟩, fun _ made => ⟨index, by omega, made⟩,
          fun _ made => ⟨index, by omega, made⟩⟩
      · rintro block ⟨earlier, before, made⟩
        rcases latest before with older | rfl
        · exact .inl ⟨earlier, older, made⟩
        · exact .inr made
      · rintro txBlock ⟨earlier, before, made⟩
        rcases latest before with older | rfl
        · exact .inl ⟨earlier, older, made⟩
        · exact .inr made

/-! ## The greatest height -/

/-- A block that enters the tree of an honest node changes no height. -/
theorem Node.Honest.longest {offer : Option Ledger} {node after : Node} {block : ProposerBlock}
    (noCollision : NoCollision crypto (madeBefore run run.length))
    (honest : node.Honest crypto (madeBefore run run.length) offer)
    (honestAfter : after.Honest crypto (madeBefore run run.length) offer)
    (longest : node.blockchain.Longest)
    (inserted : node.blockchain.insert crypto block = .ok after.blockchain) :
    after.blockchain.Longest := by
  apply longest.insert inserted
  intro hash member
  have inTree := (honest.formed.chain.heights hash).mp member
  obtain ⟨_, -, blocks, -⟩ := Blockchain.insert_ok inserted
  have kept : hash ∈ after.blockchain.blocks := by
    rw [blocks]
    exact Finmap.mem_insert.mpr (.inr inTree)
  exact (agreeOn_of_honest noCollision honest honestAfter inTree kept).heights

theorem longest_of_workerLoop {offer : Option Ledger} {node : Node} {message : Message}
    (noCollision : NoCollision crypto (madeBefore run run.length))
    (honest : node.Honest crypto (madeBefore run run.length) offer)
    (inside : message.Within crypto (madeBefore run run.length))
    (offers : message.Offers crypto offer) (longest : node.blockchain.Longest)
    (completed : (workerLoop crypto node message).panic = none) :
    (workerLoop crypto node message).node.blockchain.Longest := by
  let serving (next : Node) (todo : List Task) : Prop :=
    Anchoring crypto (madeBefore run run.length) offer next todo ∧ next.blockchain.Longest
  have served := runTasks_keeps serving (fun _ => True) ?_ node (message.tasks node)
    ⟨⟨Passing.receive honest.within honest.formed inside, honest.anchored, offers.tasks node⟩,
      longest⟩ completed
  · exact served.1.2
  rintro next task rest progress ⟨anchoring, longest⟩ ran
  have effect := effect_of_run ran
  have later := anchoring.step noCollision effect
  refine ⟨⟨later, ?_⟩, fun _ _ => trivial⟩
  generalize progress.node = after, progress.todo = todo at effect later ⊢
  cases effect with
  | skip _ | addr _ _ | ico _ _ _ | transaction _ _ _ _ _ _ _ _ _ _ _
  | transactionBlock _ _ _ _ | release _ _ _ => exact longest
  | buffer each _ _ _ =>
      rw [bufferOrphan_eq]
      exact longest
  | accept _ each _ _ _ applied =>
      obtain ⟨_, _, _, accepts⟩ := accepts_of_apply applied
      exact Node.Honest.longest noCollision
        ⟨anchoring.formed, anchoring.within, anchoring.anchored⟩
        ⟨later.formed, later.within, later.anchored⟩ longest accepts.inserted

theorem longest_of_step {offer : Option Ledger} {before after : Network Peer}
    {event : Network.Event Peer} (noCollision : NoCollision crypto (madeBefore run run.length))
    (within : before.Within crypto (madeBefore run run.length))
    (anchored : before.Anchored crypto offer)
    (honest : ∀ peer, (after.nodes peer).Honest crypto (madeBefore run run.length) offer)
    (longest : ∀ peer, (before.nodes peer).blockchain.Longest)
    (stepped : before.step crypto graph event = some after) :
    ∀ peer, (after.nodes peer).blockchain.Longest := by
  obtain ⟨outcome, performs, completed, -, nodes, -⟩ := Network.step_cases stepped
  have performed := performed_of_perform performs completed
  have honestBefore : (before.nodes event.actor).Honest crypto (madeBefore run run.length) offer :=
    ⟨within.formed _, within.nodes _, anchored.nodes _⟩
  have honestAfter := honest event.actor
  rw [nodes, Function.update_self] at honestAfter
  have ofMined {hashed : Option Header} (mined : Mined crypto (before.nodes event.actor) hashed
      outcome.node) : outcome.node.blockchain.Longest := by
    generalize outcome.node = node at mined honestAfter ⊢
    cases mined with
    | nothing | transaction _ _ _ _ _ _ _ _ _ _ => exact longest event.actor
    | proposer _ _ _ _ _ _ _ _ _ _ accepts =>
        exact honestBefore.longest noCollision honestAfter (longest _) accepts.inserted
  have atActor : outcome.node.blockchain.Longest := by
    cases performed with
    | deliver packet underWay _ served =>
        subst served
        exact longest_of_workerLoop noCollision honestBefore (within.packets packet underWay)
          (anchored.packets packet underWay) (longest _) completed
    | mine _ _ _ possible ran => exact ofMined (mined_of_minerLoop possible ran)
    | mineAttacker _ _ _ ran => exact ofMined (mined_of_minerLoopAttacker ran)
    | generateAddress peer _ | ico peer => exact longest peer
    | generate peer draws =>
        rcases @generated_of_round crypto (before.nodes peer) draws with
          same | ⟨_, -, generated⟩
        · rw [same]
          exact longest peer
        · rw [generated.onlyPool]
          exact longest peer
  intro peer
  rw [nodes]
  by_cases own : peer = event.actor
  · rwa [own, Function.update_self]
  · rw [Function.update_of_ne own]
    exact longest peer

theorem Network.Anchored.later {network : Network Peer} {index later : Nat}
    (anchored : network.Anchored crypto (offerBefore run index)) (bound : index ≤ later) :
    network.Anchored crypto (offerBefore run later) where
  nodes := fun peer => (anchored.nodes peer).later bound
  packets := by
    intro packet member
    have offers := anchored.packets packet member
    generalize packet.message = message at offers ⊢
    cases message with
    | ico hash icoState => exact ⟨offers.1, offerBefore_mono bound offers.2⟩
    | newAddr _ | newTransactionHashes _ | getTransactions _ | transactions _
    | newTransactionBlockHashes _ | getTransactionBlocks _ | transactionBlocks _
    | newProposerBlockHashes _ | getProposerBlocks _ | proposerBlocks _ => trivial

theorem longest_of_run (single : OneOffering run)
    (noCollision : NoCollision crypto (madeBefore run run.length)) :
    ∀ index ≤ run.length, ∀ peer, ((run.states index).nodes peer).blockchain.Longest := by
  intro index bound
  induction index with
  | zero =>
      intro peer
      rw [run.starts.1]
      exact Blockchain.Longest.new
  | succ index ih =>
      have earlier : index ≤ run.length := by omega
      have within := (within_of_run run index earlier).mono (madeBefore_le run earlier)
      have anchored := (anchored_of_run run single noCollision index earlier).later earlier
      exact longest_of_step noCollision within anchored
        (fun peer => honest_of_run single noCollision bound peer) (ih earlier)
        (run.steps index (by omega))

end Runs

end SimplifiedPrism
