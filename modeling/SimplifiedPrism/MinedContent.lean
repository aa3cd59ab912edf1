import SimplifiedPrism.EntryPaths
import SimplifiedPrism.Provenance

/-!
# What miners put into their blocks

A miner selects at most ten references, none of them twice and none that an
ancestor has, and at most ten transactions, each of them once and with inputs
that the ledger of the tip has.  Everything that is made in a network is of this
kind, and commits to its content.
-/

namespace SimplifiedPrism

variable {crypto : Crypto}

/-- References that a miner of the node can select. -/
structure Node.SelectsRefs (node : Node) (refs : List H256) : Prop where
  nodup : refs.Nodup
  fresh : ∀ pointedTxBlocks ∈ node.txBlockRef.lookup node.blockchain.tip, ∀ ref ∈ refs,
    ref ∉ pointedTxBlocks
  pooled : ∀ ref ∈ refs, ref ∈ node.txBlockPool
  bounded : refs.length ≤ 10

/-- Transactions that a miner of the node can select. -/
structure Node.SelectsTransactions (node : Node) (txs : List SignedTransaction) : Prop where
  nodup : txs.Nodup
  pooled : ∀ tx ∈ txs, ∃ hash, node.txPool.lookup hash = some tx
  unspent : ∀ currState ∈ node.globState.lookup node.blockchain.tip, ∀ tx ∈ txs,
    inputsUnspent currState tx.transaction = some true
  bounded : txs.length ≤ 10

theorem Node.SelectsRefs.nil (node : Node) : node.SelectsRefs [] :=
  ⟨List.nodup_nil, by simp, by simp, by simp⟩

theorem Node.SelectsTransactions.nil (node : Node) : node.SelectsTransactions [] :=
  ⟨List.nodup_nil, by simp, by simp, by simp⟩

section Selection

variable {node : Node} {choice : MinerChoice}

theorem length_selectRefs (pointedTxBlocks order : List H256) (countRef : Nat) :
    (selectRefs pointedTxBlocks order countRef).length ≤ 10 - countRef := by
  induction order generalizing countRef with
  | nil => simp [selectRefs]
  | cons each order ih =>
      unfold selectRefs
      split
      · simp
      split
      · exact ih countRef
      · have rest := ih (countRef + 1)
        rw [List.length_cons]
        omega

/-- The selected transactions are found under some of the hashes that are tried. -/
theorem selectTransactions_spec {txPool : HashMap H256 SignedTransaction} {currState : Ledger}
    (keyed : ∀ hash tx, txPool.lookup hash = some tx → tx.hash crypto = hash)
    {order : List H256} {countTx : Nat} {txs : List SignedTransaction}
    (selected : selectTransactions txPool currState order countTx = some txs) :
    (txs.map (SignedTransaction.hash crypto)).Sublist order ∧
      (∀ tx ∈ txs, inputsUnspent currState tx.transaction = some true) ∧
      txs.length ≤ 10 - countTx := by
  induction order generalizing countTx txs with
  | nil =>
      simp only [selectTransactions, Option.some.injEq] at selected
      simp [← selected]
  | cons each order ih =>
      unfold selectTransactions at selected
      split at selected
      · simp only [Option.some.injEq] at selected
        simp [← selected]
      simp only [Option.bind_eq_bind, Option.bind_eq_some_iff] at selected
      obtain ⟨tx, found, valid, tested, selected⟩ := selected
      split at selected
      · next isValid =>
          simp only [Option.bind_eq_some_iff, Option.pure_def, Option.some.injEq] at selected
          obtain ⟨rest, selectedRest, rfl⟩ := selected
          obtain ⟨sublist, unspent, bounded⟩ := ih selectedRest
          refine ⟨?_, fun other member => ?_, ?_⟩
          · rw [List.map_cons, keyed each tx found]
            exact sublist.cons_cons each
          · rcases List.mem_cons.mp member with rfl | later
            · rw [tested, isValid]
            · exact unspent other later
          · rw [List.length_cons]
            omega
      · obtain ⟨sublist, unspent, bounded⟩ := ih selected
        exact ⟨sublist.cons each, unspent, bounded⟩

theorem Node.selectsRefs (possible : choice.Possible node) {pointedTxBlocks : List H256}
    (tipRef : node.txBlockRef.lookup node.blockchain.tip = some pointedTxBlocks) :
    node.SelectsRefs (selectRefs pointedTxBlocks choice.txBlockOrder 0) where
  nodup := (selectRefs_sublist _ _ _).nodup possible.2.nodup
  fresh := by
    intro other found ref member
    rw [tipRef, Option.mem_some_iff] at found
    subst found
    exact not_pointed_of_selectRefs member
  pooled := by
    intro ref member
    have tried : ref ∈ (choice.txBlockOrder : Multiset H256) :=
      (selectRefs_sublist _ _ _).subset member
    rw [possible.2] at tried
    exact Finmap.mem_keys.mp tried
  bounded := length_selectRefs pointedTxBlocks choice.txBlockOrder 0

theorem Node.selectsTransactions (possible : choice.Possible node)
    (keyed : ∀ hash tx, node.txPool.lookup hash = some tx → tx.hash crypto = hash)
    {currState : Ledger} (tipState : node.globState.lookup node.blockchain.tip = some currState)
    {txs : List SignedTransaction}
    (selected : selectTransactions node.txPool currState choice.txOrder 0 = some txs) :
    node.SelectsTransactions txs := by
  obtain ⟨sublist, unspent, bounded⟩ := selectTransactions_spec keyed selected
  refine ⟨List.Nodup.of_map _ (sublist.nodup possible.1.nodup),
    pooled_of_selectTransactions selected, ?_, bounded⟩
  intro other found
  rw [tipState, Option.mem_some_iff] at found
  exact found ▸ unspent

end Selection

/-! ## The loops of the miner -/

/-- A proposer block that is made: it extends the tip, commits to selected
references, and is accepted by the node that made it. -/
structure Node.MakesBlock (crypto : Crypto) (node : Node) (block : ProposerBlock) (after : Node) :
    Prop where
  parent : block.header.proposerParent = node.blockchain.tip
  won : block.hash crypto < block.header.proposerDifficulty
  commits : block.Commits crypto
  selected : node.SelectsRefs block.content.proposerContent
  accepts : ∃ parentLedger txs ledger, Accepts crypto node block parentLedger txs ledger after

/-- A transaction block that is made: it commits to selected transactions. -/
structure Node.MakesTXBlock (crypto : Crypto) (node : Node) (txBlock : TXBlock) : Prop where
  lost : ¬ txBlock.hash crypto < txBlock.header.proposerDifficulty
  won : txBlock.hash crypto < txBlock.header.transactionDifficulty
  commits : txBlock.Commits crypto
  selected : node.SelectsTransactions txBlock.content.transactionContent

section Loops

variable {node : Node} {choice : MinerChoice} {progress : Progress}

theorem Node.not_gained_of_same {after : Node} {block : ProposerBlock}
    (blockchain : after.blockchain = node.blockchain) : ¬ (node.gained after).block block := by
  rintro ⟨hash, found, new⟩
  exact new (blockchain ▸ found)

theorem Node.not_gained_of_samePool {after : Node} {txBlock : TXBlock}
    (txBlockPool : after.txBlockPool = node.txBlockPool) :
    ¬ (node.gained after).txBlock txBlock := by
  rintro ⟨hash, found, new⟩
  exact new (txBlockPool ▸ found)

theorem makes_of_minerLoop (possible : choice.Possible node)
    (keyed : ∀ hash tx, node.txPool.lookup hash = some tx → tx.hash crypto = hash)
    (ran : minerLoop crypto node choice = .ok progress) :
    (∀ block, (node.gained progress.node).block block →
        node.MakesBlock crypto block progress.node) ∧
      ∀ txBlock, (node.gained progress.node).txBlock txBlock →
        node.MakesTXBlock crypto txBlock := by
  simp only [minerLoop, bind_eq_ok, Node.attempt_eq_ok, index_eq_ok] at ran
  obtain ⟨currState, tipState, transBlockContent, selected, pointedTxBlocks, tipRef, header,
    built, ran⟩ := ran
  have mined := minedHeader_of_newHeader built
  have refs := Node.selectsRefs possible tipRef
  split at ran
  · next won =>
      split at ran
      · cases ran
        exact ⟨fun block gained => absurd gained (Node.not_gained_of_same rfl),
          fun txBlock gained => absurd gained (Node.not_gained_of_samePool rfl)⟩
      simp only [bind_eq_ok] at ran
      obtain ⟨after, published, ran⟩ := ran
      cases ran
      rw [← mined.parent] at tipState tipRef
      obtain ⟨txs, ledger, accepts⟩ := accepts_of_publish tipState tipRef refs.nodup
        (fun ref member => not_pointed_of_selectRefs member) published
      constructor
      · rintro block ⟨hash, found, new⟩
        rw [accepts.blocks, HashMap.lookup_insert_ite] at found
        split at found
        · cases found
          exact ⟨mined.parent, won, mined.merkleProposer, refs, currState, txs, ledger, accepts⟩
        · exact absurd found new
      · intro txBlock gained
        exact absurd gained (Node.not_gained_of_samePool accepts.txBlockPool)
  · next lost =>
      split at ran
      · next won =>
          split at ran
          · cases ran
            exact ⟨fun block gained => absurd gained (Node.not_gained_of_same rfl),
              fun txBlock gained => absurd gained (Node.not_gained_of_samePool rfl)⟩
          cases ran
          refine ⟨fun block gained => absurd gained (Node.not_gained_of_same rfl), ?_⟩
          rintro txBlock ⟨hash, found, new⟩
          rw [HashMap.lookup_insert_ite] at found
          split at found
          · cases found
            exact ⟨lost, won, mined.merkleTransaction,
              Node.selectsTransactions possible keyed tipState selected⟩
          · exact absurd found new
      · cases ran
        exact ⟨fun block gained => absurd gained (Node.not_gained_of_same rfl),
          fun txBlock gained => absurd gained (Node.not_gained_of_samePool rfl)⟩

theorem makes_of_minerLoopAttacker (ran : minerLoopAttacker crypto node choice = .ok progress) :
    (∀ block, (node.gained progress.node).block block →
        node.MakesBlock crypto block progress.node) ∧
      ∀ txBlock, (node.gained progress.node).txBlock txBlock →
        node.MakesTXBlock crypto txBlock := by
  simp only [minerLoopAttacker, bind_eq_ok, Node.attempt_eq_ok, index_eq_ok] at ran
  obtain ⟨currState, tipState, pointedTxBlocks, tipRef, header, built, ran⟩ := ran
  have mined := minedHeader_of_newHeader built
  split at ran
  · next won =>
      simp only [bind_eq_ok] at ran
      obtain ⟨after, inserted, ran⟩ := ran
      cases ran
      rw [← mined.parent] at tipState tipRef
      have accepts := (accepts_of_copy rfl tipState tipRef inserted).1
      constructor
      · rintro block ⟨hash, found, new⟩
        rw [accepts.blocks, HashMap.lookup_insert_ite] at found
        split at found
        · cases found
          exact ⟨mined.parent, won, mined.merkleProposer, .nil node, currState, [], currState,
            accepts⟩
        · exact absurd found new
      · intro txBlock gained
        exact absurd gained (Node.not_gained_of_samePool accepts.txBlockPool)
  · next lost =>
      split at ran
      · next won =>
          cases ran
          refine ⟨fun block gained => absurd gained (Node.not_gained_of_same rfl), ?_⟩
          rintro txBlock ⟨hash, found, new⟩
          rw [HashMap.lookup_insert_ite] at found
          split at found
          · cases found
            exact ⟨lost, won, mined.merkleTransaction, .nil node⟩
          · exact absurd found new
      · cases ran
        exact ⟨fun block gained => absurd gained (Node.not_gained_of_same rfl),
          fun txBlock gained => absurd gained (Node.not_gained_of_samePool rfl)⟩

end Loops

/-! ## Making in a network -/

namespace Network

variable {Peer : Type*} [DecidableEq Peer] {graph : Graph Peer} {origin : Origin}
variable {before after : Network Peer} {event : Event Peer}

/-- What an event makes, and from what. -/
structure Makes (crypto : Crypto) (before : Network Peer) (event : Event Peer)
    (after : Network Peer) : Prop where
  transaction : ∀ tx, (before.made event after).transaction tx →
    ∃ ledger, (before.nodes event.actor).globState.lookup
        (before.nodes event.actor).blockchain.tip = some ledger ∧
      GeneratorMade crypto ledger tx
  txBlock : ∀ txBlock, (before.made event after).txBlock txBlock →
    (before.nodes event.actor).MakesTXBlock crypto txBlock
  block : ∀ block, (before.made event after).block block →
    (before.nodes event.actor).MakesBlock crypto block (after.nodes event.actor)

omit [DecidableEq Peer] in
theorem Makes.of_same
    (txPool : (after.nodes event.actor).txPool = (before.nodes event.actor).txPool)
    (txBlockPool : (after.nodes event.actor).txBlockPool = (before.nodes event.actor).txBlockPool)
    (blockchain : (after.nodes event.actor).blockchain = (before.nodes event.actor).blockchain) :
    before.Makes crypto event after := by
  constructor
  · rintro tx ⟨-, hash, found, new⟩
    exact absurd (txPool ▸ found) new
  · rintro txBlock ⟨-, gained⟩
    exact absurd gained (Node.not_gained_of_samePool txBlockPool)
  · rintro block ⟨-, gained⟩
    exact absurd gained (Node.not_gained_of_same blockchain)

theorem Within.makes (within : before.Within crypto origin)
    (stepped : before.step crypto graph event = some after) : before.Makes crypto event after := by
  obtain ⟨outcome, performs, completed, -, nodes, -⟩ := step_cases stepped
  have actor : after.nodes event.actor = outcome.node := by rw [nodes, Function.update_self]
  have keyed := (within.nodes event.actor).keyed
  cases performed_of_perform performs completed with
  | deliver _ _ _ _ =>
      exact ⟨fun _ made => made.1.elim, fun _ made => made.1.elim, fun _ made => made.1.elim⟩
  | mine peer choice progress possible ran =>
      obtain ⟨block, txBlock⟩ := makes_of_minerLoop possible keyed ran
      constructor
      all_goals
        rintro each ⟨-, gained⟩
        rw [actor] at gained
      · obtain ⟨hash, found, new⟩ := gained
        exact absurd ((mined_of_minerLoop possible ran).txPool found) new
      · exact txBlock each gained
      · exact actor ▸ block each gained
  | mineAttacker peer choice progress ran =>
      obtain ⟨block, txBlock⟩ := makes_of_minerLoopAttacker ran
      constructor
      all_goals
        rintro each ⟨-, gained⟩
        rw [actor] at gained
      · obtain ⟨hash, found, new⟩ := gained
        exact absurd ((mined_of_minerLoopAttacker ran).txPool found) new
      · exact txBlock each gained
      · exact actor ▸ block each gained
  | generateAddress peer key =>
      apply Makes.of_same
      all_goals
        rw [actor]
        rfl
  | generate peer draws =>
      rcases @generated_of_round crypto (before.nodes peer) draws with
        same | ⟨ledger, tipState, generated⟩
      · apply Makes.of_same
        all_goals
          rw [actor, same]
          rfl
      · have pool : after.nodes peer =
            { before.nodes peer with txPool := (after.nodes peer).txPool } := by
          rw [show after.nodes peer = _ from actor]
          exact generated.onlyPool
        constructor
        · rintro tx ⟨-, gained⟩
          rw [actor] at gained
          obtain ⟨hash, found, new⟩ := gained
          exact ⟨ledger, tipState, (generated.made hash tx found).resolve_left new⟩
        · rintro txBlock ⟨-, gained⟩
          have same := congrArg Node.txBlockPool pool
          exact absurd gained (Node.not_gained_of_samePool same)
        · rintro block ⟨-, gained⟩
          have same := congrArg Node.blockchain pool
          exact absurd gained (Node.not_gained_of_same same)
  | ico peer =>
      apply Makes.of_same
      all_goals
        rw [actor]
        rfl

end Network

theorem makes_of_run {Peer : Type*} [DecidableEq Peer] {graph : Graph Peer}
    (run : Run (Network.step crypto graph) (Network.Initial crypto)) :
    ∀ index < run.length, (run.states index).Makes crypto (run.actions index)
      (run.states (index + 1)) :=
  fun index bound => (within_of_run run index (Nat.le_of_lt bound)).makes (run.steps index bound)

end SimplifiedPrism
