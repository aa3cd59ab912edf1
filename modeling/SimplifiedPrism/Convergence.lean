import SimplifiedPrism.Spreading

/-!
# Convergence

An honest network converges.  Once no message can be delivered any more, all nodes have
the offering and the same transaction blocks; then no message that is still under way
could make its receiver panic, so none is under way, and all nodes have the same proposer
blocks, with the same heights, references and ledgers.
-/

namespace SimplifiedPrism

variable {crypto : Crypto}

/-- What two nodes have in common once everything has spread: all but their mempools and
the choice among longest chains. -/
structure Node.Matches (first second : Node) : Prop where
  allAddr : ∀ addr, addr ∈ first.allAddr ↔ addr ∈ second.allAddr
  txBlockPool : first.txBlockPool = second.txBlockPool
  blocks : first.blockchain.blocks = second.blockchain.blocks
  heights : first.blockchain.heights = second.blockchain.heights
  longest : first.blockchain.longest = second.blockchain.longest
  txBlockRef : ∀ hash ∈ first.blockchain.blocks,
    first.txBlockRef.lookup hash = second.txBlockRef.lookup hash
  globState : ∀ hash ∈ first.blockchain.blocks,
    first.globState.lookup hash = second.globState.lookup hash ∧ hash ∈ first.globState

/-- Nothing is under way, no block waits, every node has all that was made, and all nodes
match. -/
structure Network.Converged {Peer : Type*} (crypto : Crypto) (origin : Origin)
    (network : Network Peer) : Prop where
  packets : network.packets = []
  orphanHandler : ∀ peer, (network.nodes peer).orphanHandler = ∅
  blocks : ∀ peer block, origin.block block →
    (network.nodes peer).blockchain.blocks.lookup (block.hash crypto) = some block
  txBlocks : ∀ peer txBlock, origin.txBlock txBlock →
    (network.nodes peer).txBlockPool.lookup (txBlock.hash crypto) = some txBlock
  same : ∀ first second, (network.nodes first).Matches (network.nodes second)

/-! ## A network at rest -/

section Rest

variable {Peer : Type*} [DecidableEq Peer] {graph : Graph Peer} {origin : Origin}
variable {offer : Option Ledger} {final : Network Peer} {first second : Peer}

theorem notMem_of_served (stuck : ∀ packet, final.step crypto graph (.deliver packet) = none)
    {packet : Packet Peer}
    (completed : (workerLoop crypto (final.nodes packet.dest) packet.message).panic = none) :
    packet ∉ final.packets := by
  intro underWay
  obtain ⟨panic, panics⟩ := panic_of_stuck underWay (stuck packet)
  rw [completed] at panics
  cases panics

theorem quiet_of_stuck (stuck : ∀ packet, final.step crypto graph (.deliver packet) = none)
    {item : Item} (other : ∀ hash, item ≠ .proposerBlock hash) :
    (final.gossip crypto).Quiet item := by
  refine fun first second => ⟨?_, ?_, ?_⟩
  · rintro ⟨message, underWay, announces⟩
    exact notMem_of_served stuck (completed_of_about _ (.inl announces)) underWay
  · rintro ⟨message, underWay, asks⟩
    exact notMem_of_served stuck (completed_of_about _ (.inr (.inl asks))) underWay
  · rintro ⟨message, underWay, gives⟩
    exact notMem_of_served stuck (completed_of_about _ (.inr (.inr ⟨gives, other⟩))) underWay

namespace Network.Gossiping

/-- All nodes of a network at rest have the same addresses and transaction blocks, and
the offering if one has it. -/
theorem everywhere (gossiping : final.Gossiping crypto graph origin)
    (connected : ∀ first second, Relation.ReflTransGen graph.Joined first second)
    (stuck : ∀ packet, final.step crypto graph (.deliver packet) = none) {item : Item}
    (other : ∀ hash, item ≠ .proposerBlock hash) (held : (final.nodes first).Holds item) :
    (final.nodes second).Holds item := by
  have quiet (item : Item) (other : ∀ hash, item ≠ .proposerBlock hash) :
      (final.gossip crypto).Quiet item := quiet_of_stuck stuck other
  apply gossiping.spread.holds_of_path quiet (fun _ => 0) ?_ (connected first second) other held
  intro peer item other deferred
  cases item with
  | proposerBlock hash => exact absurd rfl (other hash)
  | address _ | offering | txBlock _ => cases deferred

theorem packets_eq_nil (gossiping : final.Gossiping crypto graph origin)
    (connected : ∀ first second, Relation.ReflTransGen graph.Joined first second)
    (anchored : final.Anchored crypto offer) (noCollision : NoCollision crypto origin)
    (shaped : origin.Shaped) (offered : (final.nodes first).Holds .offering)
    (stuck : ∀ packet, final.step crypto graph (.deliver packet) = none) :
    final.packets = [] := by
  rw [List.eq_nil_iff_forall_not_mem]
  intro packet underWay
  have within := gossiping.within
  refine notMem_of_served stuck ?_ underWay
  apply completed_of_supplied (within.nodes _) (within.formed _) (anchored.nodes _) noCollision
    shaped (within.packets packet underWay) (anchored.packets packet underWay)
  · exact gossiping.everywhere connected stuck (by simp) offered
  · intro block chosen ref member
    obtain ⟨peer, held⟩ := gossiping.reference block chosen ref member
    have here : (final.nodes packet.dest).Holds (.txBlock ref) :=
      gossiping.everywhere connected stuck (by simp) held
    exact here

omit [DecidableEq Peer] in
/-- With nothing under way, all nodes have the same proposer blocks as well: a block waits
only for an earlier one. -/
theorem everywhere_of_quiet (gossiping : final.Gossiping crypto graph origin)
    (connected : ∀ first second, Relation.ReflTransGen graph.Joined first second)
    (noCollision : NoCollision crypto origin) {scope : Scope} (covers : scope.Covers crypto origin)
    (quiet : final.packets = []) {item : Item} (held : (final.nodes first).Holds item) :
    (final.nodes second).Holds item := by
  have nothing (item : Item) (_ : True) : (final.gossip crypto).Quiet item := by
    refine fun first second => ⟨?_, ?_, ?_⟩
    all_goals
      rintro ⟨message, underWay, -⟩
      rw [quiet] at underWay
      cases underWay
  apply gossiping.spread.holds_of_path nothing (Item.rank scope.depth) ?_
    (connected first second) trivial held
  intro peer item _ deferred
  cases item with
  | address _ | offering | txBlock _ => cases deferred
  | proposerBlock hash =>
      obtain ⟨block, ⟨bucket, found, inBucket⟩, rfl⟩ := deferred
      have chosen := (gossiping.within.nodes peer).waiting _ bucket found block inBucket
      refine ⟨.proposerBlock block.header.proposerParent, trivial, fun other held => ?_, ?_⟩
      · exact ⟨gossiping.within.parent_mem noCollision chosen held, covers.parent block chosen⟩
      · intro known
        obtain ⟨_, impossible, -⟩ := (gossiping.nothingLost peer).awaited _
          (Finmap.mem_of_lookup_eq_some found) known
        cases impossible

omit [DecidableEq Peer] in
theorem nothing_waits (gossiping : final.Gossiping crypto graph origin)
    (noCollision : NoCollision crypto origin)
    (spread : ∀ first second item, (final.nodes first).Holds item → (final.nodes second).Holds item)
    (peer : Peer) : (final.nodes peer).orphanHandler = ∅ := by
  apply Finmap.ext_lookup
  intro parent
  rw [Finmap.lookup_empty, Finmap.lookup_eq_none]
  intro waiting
  have nothingLost := gossiping.nothingLost peer
  obtain ⟨bucket, found⟩ := HashMap.lookup_of_mem waiting
  cases bucket with
  | nil => exact nothingLost.nonempty parent found
  | cons block rest =>
      have chosen := (gossiping.within.nodes peer).waiting parent _ found block List.mem_cons_self
      obtain ⟨holder, held⟩ := gossiping.block block chosen
      have here : (final.nodes peer).Holds (.proposerBlock (block.hash crypto)) :=
        spread holder peer _ held
      have known := gossiping.within.parent_mem noCollision chosen here
      rw [(gossiping.within.formed peer).waiting parent _ found block List.mem_cons_self] at known
      obtain ⟨_, impossible, -⟩ := nothingLost.awaited parent waiting known
      cases impossible

end Network.Gossiping

end Rest

/-! ## Runs -/

section Runs

variable {Peer : Type*} [DecidableEq Peer] {graph : Graph Peer}
variable {run : Run (Network.step crypto graph) (Network.Initial crypto)}

/-- Honest nodes that hold the same items match. -/
theorem Node.Honest.matches {offer : Option Ledger} {first second : Node}
    (noCollision : NoCollision crypto (madeBefore run run.length))
    (honest : first.Honest crypto (madeBefore run run.length) offer)
    (other : second.Honest crypto (madeBefore run run.length) offer)
    (longest : first.blockchain.Longest) (longestToo : second.blockchain.Longest)
    (same : ∀ item, first.Holds item ↔ second.Holds item) (offered : first.Holds .offering) :
    first.Matches second := by
  have sameTree (hash : H256) :
      hash ∈ first.blockchain.blocks ↔ hash ∈ second.blockchain.blocks :=
    same (.proposerBlock hash)
  have agree {hash : H256} (inTree : hash ∈ first.blockchain.blocks) : AgreeOn first second hash :=
    agreeOn_of_honest noCollision honest other inTree ((sameTree hash).mp inTree)
  have published {node : Node} (honest : node.Honest crypto (madeBefore run run.length) offer)
      (offered : node.Holds .offering) : node.Published := by
    rcases honest.anchored.offered with unoffered | ⟨_, -, offered⟩
    · obtain ⟨hash, member⟩ := offered
      rw [unoffered.globState] at member
      exact absurd member Finmap.notMem_empty
    · exact offered.published
  have heights : first.blockchain.heights = second.blockchain.heights := by
    apply HashMap.ext_of_mem
    · intro hash
      rw [honest.formed.chain.heights, other.formed.chain.heights, sameTree]
    · intro hash member
      exact (agree ((honest.formed.chain.heights hash).mp member)).heights.symm
  refine
    { allAddr := fun addr => same (.address addr)
      txBlockPool := HashMap.ext_of_mem (fun hash => same (.txBlock hash)) fun hash pooled => ?_
      blocks := HashMap.ext_of_mem sameTree fun hash inTree => (agree inTree).blocks.symm
      heights := heights
      longest := longest.eq_of_heights longestToo heights
      txBlockRef := fun hash inTree => (agree inTree).txBlockRef.symm
      globState := fun hash inTree => ?_ }
  · obtain ⟨txBlock, found⟩ := HashMap.lookup_of_mem pooled
    obtain ⟨otherBlock, foundToo⟩ := HashMap.lookup_of_mem ((same (.txBlock hash)).mp pooled)
    rw [found, foundToo, Option.some.injEq]
    apply noCollision.txBlock
    · exact honest.within.txBlockPool hash txBlock found
    · exact other.within.txBlockPool hash otherBlock foundToo
    · rw [honest.formed.pooled hash txBlock found, other.formed.pooled hash otherBlock foundToo]
  · have present := (published honest offered hash inTree).1
    have presentToo :=
      (published other ((same .offering).mp offered) hash ((sameTree hash).mp inTree)).1
    obtain ⟨ledger, found⟩ := HashMap.lookup_of_mem present
    obtain ⟨otherLedger, foundToo⟩ := HashMap.lookup_of_mem presentToo
    refine ⟨?_, present⟩
    rw [found, foundToo, (agree inTree).globState ledger found otherLedger foundToo]

/-- What a run has reached, and any deliveries keep. -/
structure Underway (run : Run (Network.step crypto graph) (Network.Initial crypto))
    (index : Nat) (network : Network Peer) : Prop where
  gossiping : network.Gossiping crypto graph (madeBefore run index)
  anchored : network.Anchored crypto (offerBefore run index)
  longest : ∀ peer, (network.nodes peer).blockchain.Longest
  offered : ∃ peer, (network.nodes peer).Holds .offering

theorem Underway.honest {network : Network Peer} {index : Nat}
    (underway : Underway run index network) (bound : index ≤ run.length) (peer : Peer) :
    (network.nodes peer).Honest crypto (madeBefore run run.length) (offerBefore run run.length) :=
  ⟨underway.gossiping.within.formed peer,
    (underway.gossiping.within.nodes peer).mono (madeBefore_le run bound),
    (underway.anchored.later bound).nodes peer⟩

theorem Underway.deliver
    (correct : ∀ key message,
      crypto.ed25519Verify (crypto.publicKey key) message (crypto.ed25519Sign key message) = true)
    (noCollision : NoCollision crypto (madeBefore run run.length)) (sound : MadeSoundly run)
    {index : Nat} (bound : index ≤ run.length) {before after : Network Peer}
    {packet : Packet Peer} (underway : Underway run index before)
    (stepped : before.step crypto graph (.deliver packet) = some after) :
    Underway run index after := by
  have le := madeBefore_le run bound
  have within := underway.gossiping.within
  have gossiping : after.Gossiping crypto graph (madeBefore run index) := by
    refine underway.gossiping.step (.refl _) ?_ (fun _ => .inl) (fun _ => .inl)
      (noCollision.of_le le) (passes_madeBefore correct sound bound) ?_ stepped
    · exact ⟨fun _ made => made.1.elim, fun _ made => made.1.elim, fun _ made => made.1.elim⟩
    · exact fun _ made => made.1.elim
  have anchored := underway.anchored.step within gossiping.within (noCollision.of_le le)
    (by simp [Network.offered]) stepped
  rw [Network.offered, Option.or_none] at anchored
  have honest (peer : Peer) : (after.nodes peer).Honest crypto (madeBefore run run.length)
      (offerBefore run run.length) :=
    ⟨gossiping.within.formed peer, (gossiping.within.nodes peer).mono le,
      (anchored.later bound).nodes peer⟩
  refine ⟨gossiping, anchored, ?_, ?_⟩
  · exact longest_of_step noCollision (within.mono le) (underway.anchored.later bound) honest
      underway.longest stepped
  · obtain ⟨peer, held⟩ := underway.offered
    exact ⟨peer, Network.holds_of_step stepped held⟩

theorem Underway.converged
    (noCollision : NoCollision crypto (madeBefore run run.length))
    (connected : ∀ first second, Relation.ReflTransGen graph.Joined first second)
    {index : Nat} (bound : index ≤ run.length) {final : Network Peer}
    (underway : Underway run index final)
    (stuck : ∀ packet, final.step crypto graph (.deliver packet) = none) :
    final.Converged crypto (madeBefore run index) := by
  have le := madeBefore_le run bound
  have gossiping := underway.gossiping
  obtain ⟨holder, offered⟩ := underway.offered
  have quiet : final.packets = [] := gossiping.packets_eq_nil connected underway.anchored
    (noCollision.of_le le) (shaped_madeBefore bound) offered stuck
  have spread (first second : Peer) (item : Item) (held : (final.nodes first).Holds item) :
      (final.nodes second).Holds item :=
    gossiping.everywhere_of_quiet connected (noCollision.of_le le)
      ((covers_of_run noCollision ∅).of_le le) quiet held
  refine
    { packets := quiet
      orphanHandler := gossiping.nothing_waits (noCollision.of_le le) spread
      blocks := fun peer block chosen => ?_
      txBlocks := fun peer txBlock chosen => ?_
      same := fun first second => ?_ }
  · obtain ⟨maker, held⟩ := gossiping.block block chosen
    obtain ⟨stored, found⟩ := HashMap.lookup_of_mem (spread maker peer _ held)
    rw [found, Option.some.injEq]
    exact noCollision.known ((underway.honest bound peer).within.blocks _ stored found)
      (.inr (le.block block chosen)) ((gossiping.within.formed peer).chain.stored _ stored found)
  · obtain ⟨maker, held⟩ := gossiping.txBlock txBlock chosen
    obtain ⟨stored, found⟩ := HashMap.lookup_of_mem (spread maker peer _ held)
    rw [found, Option.some.injEq]
    exact noCollision.txBlock stored txBlock
      ((underway.honest bound peer).within.txBlockPool _ stored found) (le.txBlock txBlock chosen)
      ((gossiping.within.formed peer).pooled _ stored found)
  · exact (underway.honest bound first).matches noCollision (underway.honest bound second)
      (underway.longest first) (underway.longest second)
      (fun item => ⟨spread first second item, spread second first item⟩)
      (spread holder first .offering offered)

/-- From any state of a run in which the offering has been made, messages can be delivered
only boundedly often without new work, and when none can be delivered any more, in
whatever order it was done, the network has converged. -/
theorem converges_of_run [Fintype Peer]
    (correct : ∀ key message,
      crypto.ed25519Verify (crypto.publicKey key) message (crypto.ed25519Sign key message) = true)
    (connected : ∀ first second, Relation.ReflTransGen graph.Joined first second)
    (run : Run (Network.step crypto graph) (Network.Initial crypto)) (single : OneOffering run)
    (noCollision : NoCollision crypto (madeBefore run run.length)) (sound : MadeSoundly run) :
    ∀ index ≤ run.length, (∃ peer, ((run.states index).nodes peer).globState ≠ ∅) →
      ∃ bound, ∀ (packets : List (Packet Peer)) (final : Network Peer),
        runActions (Network.step crypto graph) (run.states index) (packets.map .deliver) =
            some final →
          packets.length ≤ bound ∧
            ((∀ packet, final.step crypto graph (.deliver packet) = none) →
              final.Converged crypto (madeBefore run index)) := by
  rintro index bound ⟨peer, taken⟩
  have start : Underway run index (run.states index) :=
    ⟨gossiping_of_run correct noCollision sound index bound,
      anchored_of_run run single noCollision index bound,
      longest_of_run single noCollision index bound, peer, HashMap.mem_of_ne_empty taken⟩
  obtain ⟨most, within⟩ := exists_bound_of_scope graph noCollision
    (covers_of_run noCollision (run.states index).addrs) (inScope_of_run bound) start.anchored
  refine ⟨most, fun packets final completed => ⟨(within packets final completed).1, ?_⟩⟩
  have reached : Underway run index final := by
    let delivery (event : Network.Event Peer) : Prop := ∃ packet, event = .deliver packet
    have deliveries : ∀ event ∈ packets.map Network.Event.deliver, delivery event := by
      intro event member
      obtain ⟨packet, -, rfl⟩ := List.mem_map.mp member
      exact ⟨packet, rfl⟩
    apply runActions_preserves ?_ start deliveries completed
    rintro before event after underway ⟨packet, rfl⟩ stepped
    exact underway.deliver correct noCollision sound bound stepped
  exact reached.converged noCollision connected bound

end Runs

theorem madeSoundly_tradeRun : MadeSoundly tradeRun := by
  have made : (∀ block, (madeBefore tradeRun tradeRun.length).block block →
      block ∈ [paymentProposal]) ∧
      ∀ txBlock, (madeBefore tradeRun tradeRun.length).txBlock txBlock →
        txBlock ∈ [splitBlock] := by
    apply madeBefore_of_entries tradeRun
    · change ∀ index < 15, _
      decide +kernel
    · change ∀ index < 15, _
      decide +kernel
  apply MadeSoundly.of_entries made.2
  · change ∀ index < 15, _
    decide +kernel
  · decide +kernel

theorem joined_pair : ∀ first second, Relation.ReflTransGen Graph.pair.Joined first second := by
  have other : ∀ place : Bool, Graph.pair.Joined place (!place) := by
    intro place
    exact List.mem_singleton.mpr rfl
  intro first second
  by_cases same : first = second
  · exact same ▸ .refl
  · have opposite : second = !first := by
      cases first <;> cases second <;> simp_all
    exact opposite ▸ .single (other first)

/-- What is still to be delivered after the first nine steps of `tradeRun`, in turn: the
second node asks for the two blocks, and the rest is known already. -/
def closingPackets : List (Packet Bool) :=
  let tell (source : Bool) (message : Message) : Packet Bool := ⟨source, !source, message⟩
  let paid := splitPayment.hash Crypto.sample
  let offer := icoState [pairAddress false, pairAddress true]
  [tell true (.newAddr [pairAddress true, pairAddress false]),
    tell false (.newAddr [pairAddress false, pairAddress true]),
    tell true (.ico (genesisHash Crypto.sample) offer), tell false (.newTransactionHashes [paid]),
    tell false (.newTransactionBlockHashes [sampleHash 0x2001]),
    tell false (.newProposerBlockHashes [sampleHash 2]), tell true (.getTransactions [paid]),
    tell true (.getTransactionBlocks [sampleHash 0x2001]),
    tell true (.getProposerBlocks [sampleHash 2]), tell false (.transactionBlocks [splitBlock]),
    tell false (.proposerBlocks [paymentProposal]),
    tell true (.newTransactionBlockHashes [sampleHash 0x2001]),
    tell true (.newProposerBlockHashes [sampleHash 2])]

theorem converges_tradeRun :
    ∃ final, runActions (Network.step Crypto.sample Graph.pair) (tradeRun.states 9)
        (closingPackets.map .deliver) = some final ∧
      final.Converged Crypto.sample (madeBefore tradeRun 9) := by
  have correct : ∀ key message, Crypto.sample.ed25519Verify (Crypto.sample.publicKey key) message
      (Crypto.sample.ed25519Sign key message) = true := by
    simp [Crypto.sample]
  have rests : (runActions (Network.step Crypto.sample Graph.pair) (tradeRun.states 9)
      (closingPackets.map .deliver)).map Network.packets = some [] := by
    decide +kernel
  obtain ⟨final, completed, quiet⟩ := Option.map_eq_some_iff.mp rests
  obtain ⟨bound, converges⟩ := converges_of_run correct joined_pair tradeRun oneOffering_tradeRun
    noCollision_tradeRun madeSoundly_tradeRun 9 (by decide) ⟨true, by decide +kernel⟩
  refine ⟨final, completed, (converges closingPackets final completed).2 fun packet => ?_⟩
  simp [Network.step, Network.perform, quiet]

end SimplifiedPrism
