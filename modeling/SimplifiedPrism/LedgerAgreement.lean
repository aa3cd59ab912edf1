import SimplifiedPrism.DeliveryOrder
import SimplifiedPrism.MinedContent
import SimplifiedPrism.Offering
import SimplifiedPrism.ReferenceLists

/-!
# Agreement on ledgers

Nodes compute heights, references and ledgers on their own, each from the entries
that it has for the parent.  In a network with one offering they come to the same
entries for a block, wherever and whenever they have it, and the ledger of a
block is what its list of references makes of the offering.
-/

namespace SimplifiedPrism

variable {crypto : Crypto}

/-- A node of a network: what it keeps was made by somebody, and its entries go
back to the offering. -/
structure Node.Honest (crypto : Crypto) (origin : Origin) (offer : Option Ledger) (node : Node) :
    Prop where
  formed : node.WellFormed crypto
  within : node.Within crypto origin
  anchored : node.Anchored crypto offer

section Honest

variable {origin : Origin} {offer : Option Ledger} {node first second : Node}
variable {block : ProposerBlock} {hash : H256}

/-- A block but genesis in the tree of an honest node has derived entries. -/
theorem Node.Honest.derived (honest : node.Honest crypto origin offer)
    (noCollision : NoCollision crypto origin) (chosen : origin.block block)
    (inTree : block.hash crypto ∈ node.blockchain.blocks) :
    node.blockchain.blocks.lookup (block.hash crypto) = some block ∧
      block.header.proposerParent ∈ node.blockchain.blocks ∧
      (∃ ledger ∈ offer, node.Offered crypto ledger) ∧ Derived crypto node block := by
  have notGenesis : block ≠ genesisBlock crypto := by
    rintro rfl
    exact noCollision.genesis _ chosen rfl
  obtain ⟨stored, found⟩ := HashMap.lookup_of_mem inTree
  have same : stored = block := noCollision.known (honest.within.blocks _ stored found)
    (.inr chosen) (honest.formed.chain.stored _ stored found)
  subst same
  have parent := (honest.formed.chain.parents _ stored found).resolve_left notGenesis
  rcases honest.anchored.offered with unoffered | ⟨ledger, given, offered⟩
  · exact absurd (unoffered.onlyGenesis _ inTree) (noCollision.genesis stored chosen)
  · exact ⟨found, parent, ⟨ledger, given, offered⟩,
      (offered.settled _ stored found).resolve_left notGenesis⟩

theorem Node.Honest.cases (honest : node.Honest crypto origin offer)
    (member : hash ∈ node.blockchain.blocks) :
    hash = genesisHash crypto ∨ ∃ block, origin.block block ∧ block.hash crypto = hash := by
  obtain ⟨block, found⟩ := HashMap.lookup_of_mem member
  have stored := honest.formed.chain.stored hash block found
  rcases honest.within.blocks hash block found with rfl | chosen
  · exact .inl stored.symm
  · exact .inr ⟨block, chosen, stored⟩

/-- Honest nodes that both have the references of a block have the same
transaction blocks for them. -/
theorem Node.Honest.referenced_eq (honest : first.Honest crypto origin offer)
    (other : second.Honest crypto origin offer) (noCollision : NoCollision crypto origin)
    {refs : List H256} {txs otherTxs : List SignedTransaction}
    (collected : referenced first.txBlockPool refs = some txs)
    (collectedToo : referenced second.txBlockPool refs = some otherTxs) :
    referenced second.txBlockPool refs = referenced first.txBlockPool refs := by
  apply referenced_congr
  intro ref member
  obtain ⟨txBlock, found⟩ := HashMap.lookup_of_mem (mem_pool_of_referenced collected ref member)
  obtain ⟨otherBlock, foundOther⟩ :=
    HashMap.lookup_of_mem (mem_pool_of_referenced collectedToo ref member)
  rw [found, foundOther, Option.some.injEq]
  apply noCollision.txBlock
  · exact other.within.txBlockPool ref otherBlock foundOther
  · exact honest.within.txBlockPool ref txBlock found
  · rw [other.formed.pooled ref otherBlock foundOther, honest.formed.pooled ref txBlock found]

/-- Honest nodes that have taken over the offering have the same entries of genesis. -/
theorem Node.Honest.sameGenesis (honest : first.Honest crypto origin offer)
    (other : second.Honest crypto origin offer) (noCollision : NoCollision crypto origin)
    (offered : ∃ ledger ∈ offer, first.Offered crypto ledger)
    (offeredToo : ∃ ledger ∈ offer, second.Offered crypto ledger) :
    SameEntries first second (genesisHash crypto) := by
  obtain ⟨ledger, given, offered⟩ := offered
  obtain ⟨otherLedger, givenToo, offeredToo⟩ := offeredToo
  obtain ⟨block, found⟩ := HashMap.lookup_of_mem honest.formed.chain.genesis
  obtain ⟨otherBlock, foundToo⟩ := HashMap.lookup_of_mem other.formed.chain.genesis
  constructor
  · rw [found, foundToo, honest.within.genesis_of_lookup honest.formed noCollision found,
      other.within.genesis_of_lookup other.formed noCollision foundToo]
  · rw [honest.anchored.genesisHeight, other.anchored.genesisHeight]
  · rw [offered.globState, offeredToo.globState]
    exact givenToo.symm.trans given
  · rw [honest.anchored.genesisRef, other.anchored.genesisRef]

end Honest

section Runs

variable {Peer : Type*} [DecidableEq Peer] {graph : Graph Peer}
variable {run : Run (Network.step crypto graph) (Network.Initial crypto)}

theorem offerBefore_mono {index later : Nat} (bound : index ≤ later) {ledger : Ledger}
    (given : offerBefore run index = some ledger) : offerBefore run later = some ledger := by
  induction bound with
  | refl => exact given
  | step _ ih =>
      rw [offerBefore, ih]
      rfl

theorem Node.Anchored.later {node : Node} {index later : Nat} (bound : index ≤ later)
    (anchored : node.Anchored crypto (offerBefore run index)) :
    node.Anchored crypto (offerBefore run later) := by
  refine ⟨anchored.genesisRef, anchored.genesisHeight, ?_⟩
  rcases anchored.offered with unoffered | ⟨ledger, given, offered⟩
  · exact .inl unoffered
  · exact .inr ⟨ledger, offerBefore_mono bound given, offered⟩

theorem honest_of_run (single : OneOffering run)
    (noCollision : NoCollision crypto (madeBefore run run.length)) {index : Nat}
    (bound : index ≤ run.length) (peer : Peer) :
    ((run.states index).nodes peer).Honest crypto (madeBefore run run.length)
      (offerBefore run run.length) where
  formed := (within_of_run run index bound).formed peer
  within := ((within_of_run run index bound).nodes peer).mono (madeBefore_le run bound)
  anchored := ((anchored_of_run run single noCollision index bound).nodes peer).later bound

/-- What is shown of a block from what holds of all blocks made before it holds of
every block. -/
theorem made_induction {motive : ProposerBlock → Prop}
    (step : ∀ index < run.length, ∀ block,
      ((run.states index).made (run.actions index) (run.states (index + 1))).block block →
        (∀ earlier, (madeBefore run index).block earlier → motive earlier) → motive block) :
    ∀ block, (madeBefore run run.length).block block → motive block := by
  have upTo (index : Nat) : ∀ block, index ≤ run.length →
      (madeBefore run index).block block → motive block := by
    induction index with
    | zero =>
        rintro block - ⟨earlier, impossible, -⟩
        exact absurd impossible (Nat.not_lt_zero _)
    | succ index ih =>
        rintro block bound ⟨earlier, before, made⟩
        exact step earlier (by omega) block made fun other otherMade =>
          ih other (by omega) ((madeBefore_le run (by omega)).block other otherMade)
  exact fun block => upTo run.length block (le_refl _)

theorem parent_of_made {index : Nat} (bound : index < run.length) {block : ProposerBlock}
    (made : ((run.states index).made (run.actions index) (run.states (index + 1))).block block) :
    block.header.proposerParent = genesisHash crypto ∨
      ∃ parent, (madeBefore run index).block parent ∧
        parent.hash crypto = block.header.proposerParent := by
  have within := within_of_run run index (Nat.le_of_lt bound)
  have formed := within.formed (run.actions index).actor
  have makes := (makes_of_run run index bound).block block made
  obtain ⟨parent, found⟩ := HashMap.lookup_of_mem formed.chain.tip
  have stored := formed.chain.stored _ parent found
  rw [makes.parent]
  rcases (within.nodes _).blocks _ parent found with rfl | earlier
  · exact .inl stored.symm
  · exact .inr ⟨parent, earlier, stored⟩

theorem sameEntries_of_made (noCollision : NoCollision crypto (madeBefore run run.length))
    {offer : Option Ledger} {first second : Node}
    (honest : first.Honest crypto (madeBefore run run.length) offer)
    (other : second.Honest crypto (madeBefore run run.length) offer) :
    ∀ block, (madeBefore run run.length).block block →
      block.hash crypto ∈ first.blockchain.blocks → block.hash crypto ∈ second.blockchain.blocks →
        SameEntries first second (block.hash crypto) := by
  apply made_induction
  intro index bound block made ih inFirst inSecond
  have chosen : (madeBefore run run.length).block block := ⟨index, bound, made⟩
  obtain ⟨found, parent, offered, derived⟩ := honest.derived noCollision chosen inFirst
  obtain ⟨foundToo, parentToo, offeredToo, derivedToo⟩ := other.derived noCollision chosen inSecond
  have sameParent : SameEntries first second block.header.proposerParent := by
    rcases parent_of_made bound made with genesis | ⟨earlier, earlierMade, same⟩
    · rw [genesis]
      exact honest.sameGenesis other noCollision offered offeredToo
    · rw [← same] at parent parentToo ⊢
      exact ih earlier earlierMade parent parentToo
  obtain ⟨txs, _, _, collected, -⟩ := derived.ledger
  obtain ⟨otherTxs, _, _, collectedToo, -⟩ := derivedToo.ledger
  exact sameEntries_of_derived derived derivedToo sameParent
    (honest.referenced_eq other noCollision collected collectedToo) (foundToo.trans found.symm)

/-- Two nodes agree on everything that both have for a hash. -/
structure AgreeOn (first second : Node) (hash : H256) : Prop where
  blocks : second.blockchain.blocks.lookup hash = first.blockchain.blocks.lookup hash
  heights : second.blockchain.heights.lookup hash = first.blockchain.heights.lookup hash
  txBlockRef : second.txBlockRef.lookup hash = first.txBlockRef.lookup hash
  globState : ∀ ledger ∈ first.globState.lookup hash, ∀ other ∈ second.globState.lookup hash,
    ledger = other

theorem SameEntries.agreeOn {first second : Node} {hash : H256}
    (same : SameEntries first second hash) : AgreeOn first second hash := by
  refine ⟨same.blocks, same.heights, same.txBlockRef, fun ledger found other foundToo => ?_⟩
  rw [same.globState] at foundToo
  exact Option.some.inj (found.symm.trans foundToo)

theorem Node.Honest.agreeOn_genesis {origin : Origin} {offer : Option Ledger} {first second : Node}
    (honest : first.Honest crypto origin offer) (other : second.Honest crypto origin offer)
    (noCollision : NoCollision crypto origin) : AgreeOn first second (genesisHash crypto) := by
  obtain ⟨block, found⟩ := HashMap.lookup_of_mem honest.formed.chain.genesis
  obtain ⟨otherBlock, foundToo⟩ := HashMap.lookup_of_mem other.formed.chain.genesis
  refine ⟨?_, ?_, ?_, fun ledger present otherLedger presentToo => ?_⟩
  · rw [found, foundToo, honest.within.genesis_of_lookup honest.formed noCollision found,
      other.within.genesis_of_lookup other.formed noCollision foundToo]
  · rw [honest.anchored.genesisHeight, other.anchored.genesisHeight]
  · rw [honest.anchored.genesisRef, other.anchored.genesisRef]
  · rcases honest.anchored.offered with unoffered | offered
    · simp [unoffered.globState] at present
    rcases other.anchored.offered with unoffered | offeredToo
    · simp [unoffered.globState] at presentToo
    exact (honest.sameGenesis other noCollision offered offeredToo).agreeOn.globState ledger present
      otherLedger presentToo

/-- Agreement at any hash, between nodes of a run at any times. -/
theorem agreeOn_of_honest (noCollision : NoCollision crypto (madeBefore run run.length))
    {offer : Option Ledger} {first second : Node}
    (honest : first.Honest crypto (madeBefore run run.length) offer)
    (other : second.Honest crypto (madeBefore run run.length) offer) {hash : H256}
    (inFirst : hash ∈ first.blockchain.blocks) (inSecond : hash ∈ second.blockchain.blocks) :
    AgreeOn first second hash := by
  rcases honest.cases inFirst with rfl | ⟨block, chosen, rfl⟩
  · exact honest.agreeOn_genesis other noCollision
  · exact (sameEntries_of_made noCollision honest other block chosen inFirst inSecond).agreeOn

/-- Whenever a node has a block and any node has it at any other time, they agree
on the block, its height, its references and its ledger; and every block but
genesis has a ledger wherever it is. -/
theorem ledgers_agree_of_run (run : Run (Network.step crypto graph) (Network.Initial crypto))
    (single : OneOffering run) (noCollision : NoCollision crypto (madeBefore run run.length)) :
    ∀ index ≤ run.length, ∀ peer, ∀ hash ∈ ((run.states index).nodes peer).blockchain.blocks,
      (hash ≠ genesisHash crypto → hash ∈ ((run.states index).nodes peer).globState) ∧
      ∀ later ≤ run.length, ∀ other, hash ∈ ((run.states later).nodes other).blockchain.blocks →
        AgreeOn ((run.states index).nodes peer) ((run.states later).nodes other) hash := by
  intro index bound peer hash inTree
  have honest := honest_of_run single noCollision bound peer
  refine ⟨fun notGenesis => ?_, fun later laterBound other inTreeToo => ?_⟩
  · obtain ⟨block, chosen, rfl⟩ := (honest.cases inTree).resolve_left notGenesis
    obtain ⟨-, -, ⟨_, -, offered⟩, -⟩ := honest.derived noCollision chosen inTree
    exact (offered.published _ inTree).1
  · exact agreeOn_of_honest noCollision honest (honest_of_run single noCollision laterBound other)
      inTree inTreeToo

end Runs

/-! ## Two nodes that trade -/

/-- Two connected nodes. -/
def Graph.pair : Graph Bool where
  peers place := [!place]
  symmetric := by decide

def pairAddress (place : Bool) : H160 :=
  addressOf Crypto.sample [if place then 66 else 65]

/-- The first node pays 300 of its 1000 to the second. -/
def splitPayment : SignedTransaction :=
  let transaction : Transaction :=
    { inputPrevious := [H256.zero, H256.zero]
      inputIndex := [0, 0]
      outputValue := [300, 700]
      outputAddress := [pairAddress true, pairAddress false] }
  ⟨transaction, ⟨sign Crypto.sample transaction ⟨[65]⟩, [65]⟩⟩

def splitBlock : TXBlock where
  header :=
    { Header.sample 0x2001 (genesisHash Crypto.sample) with
      merkleTransaction := splitPayment.hash Crypto.sample }
  content := ⟨[splitPayment]⟩

/-- Two nodes tell each other their addresses, the first makes the offering, pays,
and mines the payment, and the second takes the blocks over. -/
def tradeRun : Run (Network.step Crypto.sample Graph.pair) (Network.Initial Crypto.sample) :=
  let tell (source : Bool) (message : Message) : Network.Event Bool :=
    .deliver ⟨source, !source, message⟩
  let addrs := [pairAddress false, pairAddress true]
  Run.ofActions ⟨fun _ => Node.initial Crypto.sample [] ∅, []⟩ ⟨fun _ => rfl, rfl⟩
    [.generateAddress false ⟨[65]⟩, .generateAddress true ⟨[66]⟩,
      tell false (.newAddr [pairAddress false]), tell true (.newAddr [pairAddress true]),
      .ico false, tell false (.ico (genesisHash Crypto.sample) (icoState addrs)),
      .generate false [⟨(H256.zero, 0), 1, 299⟩, ⟨(H256.zero, 1), 0, 0⟩],
      .mine false ⟨[splitPayment.hash Crypto.sample], [], 0x2001, 0⟩,
      .mine false ⟨[], [sampleHash 0x2001], 2, 0⟩,
      tell false (.newTransactionBlockHashes [sampleHash 0x2001]),
      tell true (.getTransactionBlocks [sampleHash 0x2001]),
      tell false (.transactionBlocks [splitBlock]),
      tell false (.newProposerBlockHashes [sampleHash 2]),
      tell true (.getProposerBlocks [sampleHash 2]),
      tell false (.proposerBlocks [paymentProposal])]
    (by decide +kernel)

theorem oneOffering_tradeRun : OneOffering tradeRun := by
  change ∀ index < 15, _
  decide +kernel

theorem noCollision_tradeRun :
    NoCollision Crypto.sample (madeBefore tradeRun tradeRun.length) := by
  have made : (∀ block, (madeBefore tradeRun tradeRun.length).block block →
      block ∈ [paymentProposal]) ∧
      ∀ txBlock, (madeBefore tradeRun tradeRun.length).txBlock txBlock →
        txBlock ∈ [splitBlock] := by
    apply madeBefore_of_entries tradeRun
    · change ∀ index < 15, _
      decide +kernel
    · change ∀ index < 15, _
      decide +kernel
  exact .of_lists made.1 made.2 (by decide +kernel) (by decide +kernel) (by decide +kernel)
    (by decide +kernel)

theorem ledgers_agree_tradeRun :
    sampleHash 2 ∈ ((tradeRun.states 15).nodes false).globState ∧
      AgreeOn ((tradeRun.states 9).nodes false) ((tradeRun.states 15).nodes true)
        (sampleHash 2) := by
  have agree := ledgers_agree_of_run tradeRun oneOffering_tradeRun noCollision_tradeRun
  constructor
  · exact (agree 15 (by decide) false (sampleHash 2) (by decide +kernel)).1 (by decide +kernel)
  · exact (agree 9 (by decide) false (sampleHash 2) (by decide +kernel)).2 15 (by decide) true
      (by decide +kernel)

/-! ## Ledgers and lists of references -/

section Replay

variable {Peer : Type*} [DecidableEq Peer] {graph : Graph Peer}
variable {run : Run (Network.step crypto graph) (Network.Initial crypto)}

theorem transaction_of_txBlock {index : Nat} (bound : index ≤ run.length) {txBlock : TXBlock}
    (made : (madeBefore run index).txBlock txBlock) :
    ∀ tx ∈ txBlock.content.transactionContent, (madeBefore run index).transaction tx := by
  intro tx member
  obtain ⟨earlier, before, made⟩ := made
  have makes := (makes_of_run run earlier (by omega)).txBlock txBlock made
  obtain ⟨hash, pooled⟩ := makes.selected.pooled tx member
  have within := (within_of_run run earlier (by omega)).nodes (run.actions earlier).actor
  exact (madeBefore_le run (Nat.le_of_lt before)).transaction tx (within.txPool hash tx pooled)

theorem describes_of_made (single : OneOffering run)
    (noCollision : NoCollision crypto (madeBefore run run.length)) {offered : Ledger}
    {node : Node} (honest : node.Honest crypto (madeBefore run run.length)
      (offerBefore run run.length)) (given : offerBefore run run.length = some offered) :
    ∀ block, (madeBefore run run.length).block block →
      block.hash crypto ∈ node.blockchain.blocks →
        ∃ refs txs ledger, Describes crypto offered node (block.hash crypto) refs txs ledger := by
  apply made_induction
  intro index bound block made ih inTree
  have chosen : (madeBefore run run.length).block block := ⟨index, bound, made⟩
  obtain ⟨-, parent, ⟨ledger, givenToo, atGenesis⟩, derived⟩ :=
    honest.derived noCollision chosen inTree
  have sameOffer : ledger = offered := Option.some.inj (givenToo.symm.trans given)
  subst sameOffer
  have parentDescribes : ∃ refs txs parentLedger,
      Describes crypto ledger node block.header.proposerParent refs txs parentLedger := by
    rcases parent_of_made bound made with genesis | ⟨earlier, earlierMade, same⟩
    · rw [genesis]
      exact ⟨[], [], ledger, honest.anchored.genesisRef, List.nodup_nil, rfl,
        applyTransactions_nil _, atGenesis.globState⟩
    · rw [← same] at parent ⊢
      exact ih earlier earlierMade parent
  obtain ⟨refs, txs, parentLedger, describes⟩ := parentDescribes
  obtain ⟨parentRef, foundRef, ownRef⟩ := derived.references
  obtain ⟨newTxs, foundLedger, newLedger, collected, parentFound, applied, ownLedger⟩ :=
    derived.ledger
  rw [describes.txBlockRef, Option.some.injEq] at foundRef
  rw [describes.globState, Option.some.injEq] at parentFound
  subst foundRef parentFound
  -- the miner selected the references against the same list of the parent
  have makes := (makes_of_run run index bound).block block made
  have maker := honest_of_run single noCollision (Nat.le_of_lt bound) (run.actions index).actor
  have tipInTree := maker.formed.chain.tip
  rw [← makes.parent] at tipInTree
  have pointed := (agreeOn_of_honest noCollision honest maker parent tipInTree).txBlockRef
  rw [describes.txBlockRef, makes.parent] at pointed
  have unseen := makes.selected.fresh refs pointed
  obtain ⟨merged, collectedAll, appliedAll⟩ := applied_mergeRef describes.references
    describes.applied (repeatsInert_of_nodup makes.selected.nodup unseen _) collected applied
  exact ⟨_, merged, newLedger, ownRef, mergeRef_nodup describes.nodup, collectedAll, appliedAll,
    ownLedger⟩

/-- The ledger that a node of a run has for a block is what references make of the offering. -/
theorem describes_of_lookup (single : OneOffering run)
    (noCollision : NoCollision crypto (madeBefore run run.length)) {index : Nat}
    (bound : index ≤ run.length) {peer : Peer} {hash : H256} {ledger : Ledger}
    (inTree : hash ∈ ((run.states index).nodes peer).blockchain.blocks)
    (found : ((run.states index).nodes peer).globState.lookup hash = some ledger) :
    ∃ offered refs txs, offerBefore run index = some offered ∧
      Describes crypto offered ((run.states index).nodes peer) hash refs txs ledger := by
  have honest := honest_of_run single noCollision bound peer
  rcases ((anchored_of_run run single noCollision index bound).nodes peer).offered with
    unoffered | ⟨offered, given, atGenesis⟩
  · simp [unoffered.globState] at found
  have givenAtEnd : offerBefore run run.length = some offered := offerBefore_mono bound given
  have described : ∃ refs txs own,
      Describes crypto offered ((run.states index).nodes peer) hash refs txs own := by
    rcases honest.cases inTree with rfl | ⟨block, chosen, rfl⟩
    · exact ⟨[], [], offered, honest.anchored.genesisRef, List.nodup_nil, rfl,
        applyTransactions_nil _, atGenesis.globState⟩
    · exact describes_of_made single noCollision honest givenAtEnd block chosen inTree
  obtain ⟨refs, txs, own, describes⟩ := described
  have same : own = ledger := Option.some.inj (describes.globState.symm.trans found)
  exact ⟨offered, refs, txs, given, same ▸ describes⟩

theorem transaction_of_describes {index : Nat} (bound : index ≤ run.length) {peer : Peer}
    {hash : H256} {offered ledger : Ledger} {refs : List H256} {txs : List SignedTransaction}
    (describes : Describes crypto offered ((run.states index).nodes peer) hash refs txs ledger) :
    ∀ tx ∈ txs, (madeBefore run index).transaction tx := by
  intro tx member
  obtain ⟨ref, -, txBlock, pooled, inside⟩ := (mem_referenced describes.references).mp member
  have within := (within_of_run run index bound).nodes peer
  exact transaction_of_txBlock bound (within.txBlockPool ref txBlock pooled) tx inside

/-- Every ledger of a block in a tree is what the list of references of the block
makes of the offering, each transaction block applied once and in order. -/
theorem ledgers_replay_of_run (run : Run (Network.step crypto graph) (Network.Initial crypto))
    (single : OneOffering run) (noCollision : NoCollision crypto (madeBefore run run.length)) :
    ∀ index ≤ run.length, ∀ peer, ∀ hash ∈ ((run.states index).nodes peer).blockchain.blocks,
      ∀ ledger ∈ ((run.states index).nodes peer).globState.lookup hash,
        ∃ offered refs txs, offerBefore run index = some offered ∧
          Describes crypto offered ((run.states index).nodes peer) hash refs txs ledger ∧
          ∀ tx ∈ txs, (madeBefore run index).transaction tx := by
  intro index bound peer hash inTree ledger found
  obtain ⟨offered, refs, txs, given, describes⟩ :=
    describes_of_lookup single noCollision bound inTree found
  exact ⟨offered, refs, txs, given, describes, transaction_of_describes bound describes⟩

end Replay

theorem ledgers_replay_tradeRun :
    ∃ ledger offered refs txs, offerBefore tradeRun 15 = some offered ∧
      Describes Crypto.sample offered ((tradeRun.states 15).nodes true) (sampleHash 2) refs txs
        ledger ∧
      ∀ tx ∈ txs, (madeBefore tradeRun 15).transaction tx := by
  obtain ⟨ledger, found⟩ : ∃ ledger,
      ((tradeRun.states 15).nodes true).globState.lookup (sampleHash 2) = some ledger :=
    HashMap.lookup_of_mem (by decide +kernel)
  exact ⟨ledger, ledgers_replay_of_run tradeRun oneOffering_tradeRun noCollision_tradeRun 15
    (by decide) true (sampleHash 2) (by decide +kernel) ledger found⟩

end SimplifiedPrism
