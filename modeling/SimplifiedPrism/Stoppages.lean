import SimplifiedPrism.GeneratorAcceptance
import SimplifiedPrism.LedgerAgreement
import SimplifiedPrism.Lookups
import SimplifiedPrism.MerkleLayout
import SimplifiedPrism.VectorBounds

/-!
# What can stop an honest network

Every index into a map or a vector and every arithmetic operation of the worker, the
miner and the generator can panic.  Among nodes that only pass on what generators and
miners have made, two lookups are left: that of the ledger of genesis, as long as the
offering has not arrived, and that of a transaction block to which a proposer block in
hand refers.
-/

namespace SimplifiedPrism

variable {crypto : Crypto}

/-- The vectors of chosen transactions have matching lengths, and chosen transaction
blocks hold chosen transactions. -/
structure Origin.Shaped (origin : Origin) : Prop where
  transaction : ∀ tx, origin.transaction tx → tx.transaction.WellShaped
  txBlock : ∀ txBlock, origin.txBlock txBlock →
    ∀ tx ∈ txBlock.content.transactionContent, origin.transaction tx

/-- What stops a node of an honest network that has some proposer blocks in hand. -/
inductive Node.Stops (node : Node) (blocks : List ProposerBlock) : Panic → Prop
  | unoffered (missing : node.globState = ∅) : node.Stops blocks .globState
  | unpooled (block : ProposerBlock) (inHand : block ∈ blocks ∨ node.Waits block) (ref : H256)
      (member : ref ∈ block.content.proposerContent) (absent : ref ∉ node.txBlockPool) :
      node.Stops blocks .txBlockPool

/-! ## Single operations -/

section Operations

variable {origin : Origin} {offer : Option Ledger} {node : Node} {tip : H256}
variable {each : SignedTransaction} {block : ProposerBlock}

theorem handleTransaction_isOk (shape : each.transaction.WellShaped) {currState : Ledger}
    (tipState : node.globState.lookup tip = some currState) :
    ∃ progress, handleTransaction crypto node tip each = .ok progress := by
  by_cases pooled : each.hash crypto ∈ node.txPool
  · exact ⟨_, if_pos pooled⟩
  cases verified : each.verified crypto with
  | false =>
      rw [handleTransaction, if_neg pooled, if_pos verified]
      exact ⟨_, rfl⟩
  | true =>
      by_cases owns : each.OwnsInputs crypto currState
      · obtain ⟨progress, ran, -⟩ := admitted_of_owned pooled verified tipState owns shape.values
        exact ⟨progress, ran⟩
      · cases checked : inputsUnspent currState each.transaction with
        | none => exact absurd shape.indexed (inputsUnspent_eq_none checked).1
        | some unspent =>
            simp only [handleTransaction, if_neg pooled, verified, tipState, checked, index_some,
              Node.attempt_ok, ok_bind]
            cases unspent with
            | false => exact ⟨_, rfl⟩
            | true =>
                simp only [inputsOwned_of_foreign checked owns, index_some, Node.attempt_ok,
                  ok_bind]
                exact ⟨_, rfl⟩

theorem panic_of_handleTransaction {panicked : Panicked}
    (missing : node.globState.lookup tip = none)
    (failed : handleTransaction crypto node tip each = .error panicked) :
    panicked.panic = .globState := by
  unfold handleTransaction at failed
  split at failed
  · cases failed
  split at failed
  · cases failed
  rw [missing, index_none, Node.attempt_error, error_bind] at failed
  cases failed
  rfl

theorem panic_of_apply {panicked : Panicked} {parentRef : List H256}
    (foundRef : node.txBlockRef.lookup block.header.proposerParent = some parentRef)
    (missing : node.globState.lookup block.header.proposerParent = none)
    (failed : applyProposerBlock crypto node block = .error panicked) :
    panicked.panic = .globState := by
  simp only [applyProposerBlock, foundRef, missing, index_some, index_none, Node.attempt_ok,
    Node.attempt_error, ok_bind, error_bind, Except.error.injEq] at failed
  rw [← failed]

/-- The transactions to which references in the pool lead have matching vectors. -/
theorem Node.Within.shaped (within : node.Within crypto origin) (shaped : origin.Shaped)
    {refs : List H256} {txs : List SignedTransaction}
    (collected : referenced node.txBlockPool refs = some txs) :
    ∀ tx ∈ txs, tx.transaction.WellShaped := by
  intro tx member
  obtain ⟨ref, -, txBlock, found, inside⟩ := (mem_referenced collected).mp member
  exact shaped.transaction tx
    (shaped.txBlock txBlock (within.txBlockPool ref txBlock found) tx inside)

/-- A block of the tree of a node that the offering has not reached is genesis. -/
theorem Node.Anchored.missing (anchored : node.Anchored crypto offer) {hash : H256}
    (inTree : hash ∈ node.blockchain.blocks) (absent : hash ∉ node.globState) :
    node.globState = ∅ ∧ hash = genesisHash crypto := by
  rcases anchored.offered with unoffered | ⟨ledger, -, offered⟩
  · exact ⟨unoffered.globState, unoffered.onlyGenesis hash inTree⟩
  · exact absurd (offered.published hash inTree).1 absent

/-- A signed block whose parent is in the tree is applied, unless the offering has not
arrived. -/
theorem Node.Anchored.apply (anchored : node.Anchored crypto offer)
    (formed : node.WellFormed crypto) (within : node.Within crypto origin)
    (shaped : origin.Shaped) (parentKnown : block.header.proposerParent ∈ node.blockchain.blocks)
    (signed : signedCorrectly crypto node.txBlockPool block.content.proposerContent = .ok true)
    {panicked : Panicked} (failed : applyProposerBlock crypto node block = .error panicked) :
    panicked.panic = .globState ∧ node.globState = ∅ := by
  obtain ⟨txs, collected, -⟩ := signedCorrectly_eq_true.mp signed
  rcases anchored.offered with unoffered | ⟨ledger, -, offered⟩
  · have genesis := unoffered.onlyGenesis _ parentKnown
    have foundRef : node.txBlockRef.lookup block.header.proposerParent = some [] := by
      rw [genesis]
      exact anchored.genesisRef
    have missing : node.globState.lookup block.header.proposerParent = none := by
      simp [unoffered.globState]
    exact ⟨panic_of_apply foundRef missing failed, unoffered.globState⟩
  · have ready := offered.published.parentReady formed parentKnown
    obtain ⟨after, applied⟩ : ∃ after, applyProposerBlock crypto node block = .ok after := by
      apply apply_isOk ready formed.indexed collected
      intro parentLedger _
      exact applyTransactions_isSome (within.shaped shaped collected) parentLedger
    rw [applied] at failed
    cases failed

end Operations

/-! ## A worker -/

/-- Between the tasks for a message the maps have only grown, and every block that waits
or is in hand was so when the message came. -/
structure InService (crypto : Crypto) (origin : Origin) (offer : Option Ledger) (start : Node)
    (blocks : List ProposerBlock) (node : Node) (todo : List Task) : Prop
    extends Anchoring crypto origin offer node todo where
  globState : ∀ hash ∈ start.globState, hash ∈ node.globState
  txBlockPool : ∀ ref ∈ start.txBlockPool, ref ∈ node.txBlockPool
  inHand : ∀ block, node.Waits block ∨ .orphan block ∈ todo ∨ .proposerBlock block ∈ todo →
    block ∈ blocks ∨ start.Waits block

section Worker

variable {origin : Origin} {offer : Option Ledger} {start node after : Node}
variable {blocks : List ProposerBlock} {task : Task} {rest todo : List Task}

theorem Effect.mem_txBlockPool (effect : Effect crypto node task after todo) :
    ∀ ref ∈ node.txBlockPool, ref ∈ after.txBlockPool := by
  cases effect with
  | transactionBlock each _ _ _ => exact fun ref member => Finmap.mem_insert.mpr (.inr member)
  | buffer each _ _ _ =>
      rw [bufferOrphan_eq]
      exact fun ref member => member
  | accept _ _ _ _ _ applied =>
      obtain ⟨_, _, _, accepts⟩ := accepts_of_apply applied
      rw [accepts.txBlockPool]
      exact fun ref member => member
  | skip _ | addr _ _ | ico _ _ _ | transaction _ _ _ _ _ _ _ _ _ _ _ | release _ _ _ =>
      exact fun ref member => member

/-- A block that waits or is in hand after a task did so before. -/
theorem Effect.inHand (effect : Effect crypto node task after todo)
    (formed : node.WellFormed crypto) {block : ProposerBlock}
    (holds : after.Waits block ∨ .orphan block ∈ todo ∨ .proposerBlock block ∈ todo) :
    node.Waits block ∨ task = .proposerBlock block := by
  cases effect with
  | skip _ | addr _ _ | ico _ _ _ | transaction _ _ _ _ _ _ _ _ _ _ _
  | transactionBlock _ _ _ _ =>
      rcases holds with waits | inTodo | inTodo
      · exact .inl waits
      · cases inTodo
      · cases inTodo
  | buffer each _ _ _ =>
      rcases holds with ⟨bucket, found, member⟩ | inTodo | inTodo
      · rcases mem_bufferOrphan found member with ⟨earlier, stored, inside⟩ | ⟨-, rfl⟩
        · exact .inl ⟨earlier, stored, inside⟩
        · exact .inr rfl
      · cases inTodo
      · cases inTodo
  | accept _ each _ _ _ applied =>
      obtain ⟨_, _, _, accepts⟩ := accepts_of_apply applied
      rcases holds with waits | inTodo | inTodo
      · rw [Node.Waits, accepts.orphanHandler] at waits
        exact .inl waits
      · simp at inTodo
      · simp at inTodo
  | release parent vec waiting =>
      rcases holds with ⟨bucket, found, member⟩ | inTodo | inTodo
      · rw [HashMap.lookup_erase_ite] at found
        split at found
        · cases found
        · exact .inl ⟨bucket, found, member⟩
      · obtain ⟨each, inside, same⟩ := List.mem_map.mp inTodo
        cases same
        refine .inl ⟨vec, ?_, inside⟩
        rw [formed.waiting _ vec waiting block inside]
        exact waiting
      · simp at inTodo

theorem InService.step {progress : Progress}
    (inService : InService crypto origin offer start blocks node (task :: rest))
    (noCollision : NoCollision crypto origin) (ran : runTask crypto node task = .ok progress) :
    InService crypto origin offer start blocks progress.node (progress.todo ++ rest) where
  toAnchoring := inService.toAnchoring.step noCollision (effect_of_run ran)
  globState := fun hash member =>
    (effect_of_run ran).publishes.globState hash (inService.globState hash member)
  txBlockPool := fun ref member =>
    (effect_of_run ran).mem_txBlockPool ref (inService.txBlockPool ref member)
  inHand := by
    intro block holds
    have before : (progress.node.Waits block ∨ .orphan block ∈ progress.todo ∨
        .proposerBlock block ∈ progress.todo) ∨ .orphan block ∈ rest ∨
          .proposerBlock block ∈ rest := by
      simp only [List.mem_append] at holds
      tauto
    apply inService.inHand block
    rcases before with new | old
    · rcases (effect_of_run ran).inHand inService.formed new with waits | rfl
      · exact .inl waits
      · exact .inr (.inr List.mem_cons_self)
    · exact .inr (old.imp (List.mem_cons_of_mem _) (List.mem_cons_of_mem _))

/-- A task panics for one of the two reasons, which held when the message came. -/
theorem InService.stops {panicked : Panicked}
    (inService : InService crypto origin offer start blocks node (task :: rest))
    (shaped : origin.Shaped) (failed : runTask crypto node task = .error panicked) :
    start.Stops blocks panicked.panic := by
  have unoffered (missing : node.globState = ∅) : start.globState = ∅ := by
    apply Finmap.ext_lookup
    intro hash
    rw [Finmap.lookup_empty, Finmap.lookup_eq_none]
    intro member
    have kept := inService.globState hash member
    rw [missing] at kept
    exact Finmap.notMem_empty kept
  have grounded := inService.grounded task List.mem_cons_self
  have inside := inService.inside task List.mem_cons_self
  cases failure_of_run failed with
  | transaction tip each panic _ =>
      cases tipState : node.globState.lookup tip with
      | some currState =>
          obtain ⟨progress, ran⟩ :
              ∃ progress, handleTransaction crypto node tip each = .ok progress :=
            handleTransaction_isOk (shaped.transaction each inside) tipState
          rw [runTask, ran] at failed
          cases failed
      | none =>
          obtain ⟨missing, -⟩ :=
            inService.anchored.missing grounded (Finmap.lookup_eq_none.mp tipState)
          rw [panic_of_handleTransaction tipState failed]
          exact .unoffered (unoffered missing)
  | signature _ each panic checks signing =>
      have cause := panic_of_signedCorrectly signing
      subst cause
      have unread : ∃ ref ∈ each.content.proposerContent, ref ∉ node.txBlockPool := by
        by_contra none
        have present : ∀ ref ∈ each.content.proposerContent, ref ∈ node.txBlockPool :=
          fun ref member => by_contra fun absent => none ⟨ref, member, absent⟩
        obtain ⟨valid, completed⟩ := signedCorrectly_isOk.mpr (readPooled_of_mem present)
        rw [signing] at completed
        cases completed
      obtain ⟨ref, member, absent⟩ := unread
      refine .unpooled each (inService.inHand each ?_) ref member fun known =>
        absent (inService.txBlockPool ref known)
      cases checks with
      | received _ _ _ _ => exact .inr (.inr List.mem_cons_self)
      | orphan _ => exact .inr (.inl List.mem_cons_self)
  | apply _ each _ checks signed applying =>
      obtain ⟨cause, missing⟩ := inService.anchored.apply inService.formed inService.within shaped
        (checks.parent_mem grounded) signed applying
      rw [cause]
      exact .unoffered (unoffered missing)

/-- What is shown of the panic of a task, while something holds between the tasks, holds
of the panic of all tasks. -/
theorem runTasks_stops (holds : Node → List Task → Prop) (stops : Panic → Prop)
    (step : ∀ node task rest progress, holds node (task :: rest) →
      runTask crypto node task = .ok progress → holds progress.node (progress.todo ++ rest))
    (stop : ∀ node task rest panicked, holds node (task :: rest) →
      runTask crypto node task = .error panicked → stops panicked.panic)
    (node : Node) (todo : List Task) (start : holds node todo) {panic : Panic}
    (panics : (runTasks crypto node todo).panic = some panic) : stops panic := by
  fun_induction runTasks crypto node todo with
  | case1 node => cases panics
  | case2 node task rest panicked ran =>
      cases panics
      exact stop node task rest panicked start ran
  | case3 node task rest progress ran outcome ih =>
      exact ih (step node task rest progress start ran) panics

theorem stops_of_workerLoop {message : Message} {panic : Panic}
    (within : node.Within crypto origin) (formed : node.WellFormed crypto)
    (anchored : node.Anchored crypto offer) (noCollision : NoCollision crypto origin)
    (shaped : origin.Shaped) (inside : message.Within crypto origin)
    (offers : message.Offers crypto offer)
    (panics : (workerLoop crypto node message).panic = some panic) :
    node.Stops message.givenBlocks panic := by
  have inService : InService crypto origin offer node message.givenBlocks node
      (message.tasks node) := by
    refine ⟨⟨Passing.receive within formed inside, anchored, offers.tasks node⟩,
      fun _ member => member, fun _ member => member, fun block holds => ?_⟩
    rcases holds with waits | inTodo | inTodo
    · exact .inr waits
    · cases message <;> simp [Message.tasks] at inTodo
    · cases message with
      | proposerBlocks vec =>
          obtain ⟨each, member, same⟩ := List.mem_map.mp inTodo
          cases same
          exact .inl member
      | newAddr _ | ico _ _ | newTransactionHashes _ | getTransactions _ | transactions _
      | newTransactionBlockHashes _ | getTransactionBlocks _ | transactionBlocks _
      | newProposerBlockHashes _ | getProposerBlocks _ => simp [Message.tasks] at inTodo
  exact runTasks_stops (InService crypto origin offer node message.givenBlocks)
    (node.Stops message.givenBlocks) (fun _ _ _ _ inService ran => inService.step noCollision ran)
    (fun _ _ _ _ inService failed => inService.stops shaped failed) node _ inService panics

end Worker

/-! ## The miner and the generator -/

section Own

variable {origin : Origin} {offer : Option Ledger} {ledger : Ledger} {node : Node}
variable {choice : MinerChoice}

theorem selectTransactions_isSome {txPool : HashMap H256 SignedTransaction}
    (indexed : PoolIndexed txPool) (currState : Ledger) {order : List H256} (countTx : Nat)
    (pooled : ∀ hash ∈ order, hash ∈ txPool) :
    ∃ txs, selectTransactions txPool currState order countTx = some txs := by
  induction order generalizing countTx with
  | nil => exact ⟨[], rfl⟩
  | cons each order ih =>
      unfold selectTransactions
      split
      · exact ⟨[], rfl⟩
      obtain ⟨tx, found⟩ := HashMap.lookup_of_mem (pooled each List.mem_cons_self)
      have later : ∀ hash ∈ order, hash ∈ txPool :=
        fun hash member => pooled hash (List.mem_cons_of_mem _ member)
      cases checked : inputsUnspent currState tx.transaction with
      | none => exact absurd (indexed each tx found) (inputsUnspent_eq_none checked).1
      | some valid =>
          simp only [found, checked, Option.bind_eq_bind, Option.bind_some]
          cases valid with
          | false => exact ih countTx later
          | true =>
              obtain ⟨txs, selected⟩ := ih (countTx + 1) later
              exact ⟨tx :: txs, by simp [selected]⟩

variable (crypto) in
theorem MerkleTree.new_isSome {α : Type*} (hash : α → H256) {data : List α}
    (few : data.length ≤ 10) : ∃ tree, MerkleTree.new crypto hash data = some tree := by
  by_cases empty : data = []
  · subst empty
    exact ⟨_, rfl⟩
  · have small : MerkleTree.height data < 32 :=
      Nat.lt_of_le_of_lt (Nat.clog_mono_right 2 few) (by decide)
    exact ⟨_, MerkleTree.new_eq empty small⟩

variable (choice) in
theorem newHeader_isOk (formed : node.WellFormed crypto)
    {transBlockContent : List SignedTransaction} {propsBlockContent : List H256}
    (few : transBlockContent.length ≤ 10) (fewRefs : propsBlockContent.length ≤ 10) :
    ∃ header, newHeader crypto node choice transBlockContent propsBlockContent = .ok header := by
  obtain ⟨tipBlock, found⟩ := HashMap.lookup_of_mem formed.chain.tip
  obtain ⟨transactionTree, builtFirst⟩ :=
    MerkleTree.new_isSome crypto (SignedTransaction.hash crypto) few
  obtain ⟨proposerTree, built⟩ := MerkleTree.new_isSome crypto (H256.hash crypto) fewRefs
  simp only [newHeader, found, builtFirst, built, index_some, ok_bind]
  exact ⟨_, rfl⟩

theorem publish_isOk (formed : node.WellFormed crypto) (within : node.Within crypto origin)
    (shaped : origin.Shaped) {newBlock : ProposerBlock} (pointedTxBlocks : List H256)
    (currState : Ledger)
    (parentKnown : newBlock.header.proposerParent ∈ node.blockchain.blocks)
    (pooled : ∀ ref ∈ newBlock.content.proposerContent, ref ∈ node.txBlockPool) :
    ∃ after, publishProposerBlock crypto node newBlock pointedTxBlocks currState = .ok after := by
  obtain ⟨txs, collected⟩ := referenced_isSome pooled
  obtain ⟨after, applied⟩ : ∃ after, applyTransactions crypto currState txs = some after :=
    applyTransactions_isSome (within.shaped shaped collected) currState
  obtain ⟨blockchain, chained⟩ :=
    Blockchain.insert_isOk crypto ((formed.chain.heights _).mpr parentKnown)
  simp only [publishProposerBlock, updateLedger_of_referenced collected, applied, index_some,
    Node.attempt_ok, ok_bind, pruneTxPool_of_indexed formed.indexed, Node.insertBlock, chained]
  exact ⟨_, rfl⟩

theorem Node.Offered.minerLoop_isOk (offered : node.Offered crypto ledger)
    (formed : node.WellFormed crypto) (within : node.Within crypto origin)
    (shaped : origin.Shaped) (possible : choice.Possible node) :
    ∃ progress, minerLoop crypto node choice = .ok progress := by
  obtain ⟨hasState, hasRef⟩ := offered.published _ formed.chain.tip
  obtain ⟨currState, tipState⟩ := HashMap.lookup_of_mem hasState
  obtain ⟨pointedTxBlocks, tipRef⟩ := HashMap.lookup_of_mem hasRef
  have pooled : ∀ hash ∈ choice.txOrder, hash ∈ node.txPool := by
    intro hash member
    have listed : hash ∈ (choice.txOrder : Multiset H256) := member
    rw [possible.1] at listed
    exact Finmap.mem_keys.mp listed
  obtain ⟨transBlockContent, selected⟩ :=
    selectTransactions_isSome formed.indexed currState 0 pooled
  have transactions := Node.selectsTransactions possible within.keyed tipState selected
  have refs := Node.selectsRefs possible tipRef
  obtain ⟨header, built⟩ := newHeader_isOk choice formed transactions.bounded refs.bounded
  have parentKnown : header.proposerParent ∈ node.blockchain.blocks := by
    rw [(minedHeader_of_newHeader built).parent]
    exact formed.chain.tip
  obtain ⟨after, published⟩ : ∃ after, publishProposerBlock crypto node
      ⟨header, ⟨selectRefs pointedTxBlocks choice.txBlockOrder 0⟩⟩ pointedTxBlocks currState =
        .ok after :=
    publish_isOk formed within shaped pointedTxBlocks currState parentKnown refs.pooled
  simp only [minerLoop, tipState, selected, tipRef, built, index_some, Node.attempt_ok, ok_bind]
  split
  · split
    · exact ⟨_, rfl⟩
    · rw [published]
      exact ⟨_, rfl⟩
  · split
    · split
      · exact ⟨_, rfl⟩
      · exact ⟨_, rfl⟩
    · exact ⟨_, rfl⟩

variable (choice) in
theorem Node.Offered.minerLoopAttacker_isOk (offered : node.Offered crypto ledger)
    (formed : node.WellFormed crypto) :
    ∃ progress, minerLoopAttacker crypto node choice = .ok progress := by
  obtain ⟨hasState, hasRef⟩ := offered.published _ formed.chain.tip
  obtain ⟨currState, tipState⟩ := HashMap.lookup_of_mem hasState
  obtain ⟨pointedTxBlocks, tipRef⟩ := HashMap.lookup_of_mem hasRef
  obtain ⟨header, built⟩ : ∃ header, newHeader crypto node choice [] [] = .ok header :=
    newHeader_isOk choice formed (Nat.zero_le _) (Nat.zero_le _)
  have inTree : header.proposerParent ∈ node.blockchain.heights := by
    rw [(minedHeader_of_newHeader built).parent]
    exact (formed.chain.heights _).mpr formed.chain.tip
  obtain ⟨blockchain, chained⟩ : ∃ blockchain,
      node.blockchain.insert crypto ⟨header, ⟨[]⟩⟩ = .ok blockchain :=
    Blockchain.insert_isOk crypto inTree
  simp only [minerLoopAttacker, tipState, tipRef, built, index_some, Node.attempt_ok, ok_bind,
    Node.insertBlock, chained]
  split
  · exact ⟨_, rfl⟩
  · split
    · exact ⟨_, rfl⟩
    · exact ⟨_, rfl⟩

theorem generateFrom_isOk (owns : node.OwnsAddresses crypto) {draw : Draw}
    (drawn : draw.outpoint ∈ ledger) :
    ∃ next sent, generateFrom crypto node ledger draw = .ok (next, sent) ∧
      next.OwnsAddresses crypto := by
  obtain ⟨coin, found⟩ := HashMap.lookup_of_mem drawn
  cases owned : node.myAddrKey.lookup coin.2 with
  | none =>
      simp only [generateFrom, found, index_some, ok_bind, owned]
      exact ⟨node, [], rfl, owns⟩
  | some key =>
      have known := owns.known coin.2 (Finmap.mem_of_lookup_eq_some owned)
      have position : draw.dest.toNat % node.allAddr.length < node.allAddr.length :=
        Nat.mod_lt _ (List.length_pos_of_mem known)
      obtain ⟨newTrans, built⟩ :
          ∃ newTrans, buildTransaction crypto node.allAddr key draw coin = some newTrans := by
        simp only [buildTransaction, List.getElem?_eq_getElem position, Option.bind_eq_bind,
          Option.bind_some]
        exact ⟨_, rfl⟩
      simp only [generateFrom, found, index_some, ok_bind, owned, built]
      split
      · exact ⟨node, [], rfl, owns⟩
      · exact ⟨_, _, rfl, owns.of_keeps ⟨rfl, fun _ known => known⟩⟩

theorem generateAll_completes {draws : List Draw} (owns : node.OwnsAddresses crypto)
    (drawn : ∀ draw ∈ draws, draw.outpoint ∈ ledger) :
    (generateAll crypto node ledger draws).panic = none := by
  induction draws generalizing node with
  | nil => rfl
  | cons draw draws ih =>
      obtain ⟨next, sent, passed, ownsNext⟩ :=
        generateFrom_isOk owns (drawn draw List.mem_cons_self)
      unfold generateAll
      rw [passed]
      exact ih ownsNext fun later member => drawn later (List.mem_cons_of_mem _ member)

theorem panic_of_generatorLoop {draws : List Draw} {panic : Panic}
    (owns : node.OwnsAddresses crypto) (possible : DrawsPossible node draws)
    (panics : (generatorLoop crypto node draws).panic = some panic) :
    panic = .globState ∧ node.blockchain.tip ∉ node.globState := by
  unfold generatorLoop at panics
  split at panics
  · next missing =>
      cases panics
      exact ⟨rfl, Finmap.lookup_eq_none.mp missing⟩
  · next ledger tipState =>
      have drawn : ∀ draw ∈ draws, draw.outpoint ∈ ledger := by
        intro draw member
        have listed : draw.outpoint ∈ (draws.map Draw.outpoint : Multiset Outpoint) :=
          List.mem_map_of_mem member
        rw [possible ledger tipState] at listed
        exact Finmap.mem_keys.mp listed
      rw [generateAll_completes owns drawn] at panics
      cases panics

end Own

/-! ## Runs -/

section Runs

variable {Peer : Type*} [DecidableEq Peer] {graph : Graph Peer}
variable {run : Run (Network.step crypto graph) (Network.Initial crypto)}

theorem shaped_madeBefore {index : Nat} (bound : index ≤ run.length) :
    (madeBefore run index).Shaped where
  transaction := by
    rintro tx ⟨earlier, before, made⟩
    obtain ⟨ledger, -, generated⟩ :=
      (makes_of_run run earlier (Nat.lt_of_lt_of_le before bound)).transaction tx made
    obtain ⟨_, _, _, _, _, spends, -⟩ := generated.spendsTwice
    exact spends.wellShaped
  txBlock := fun txBlock made => transaction_of_txBlock bound made

/-- Whatever is tried in an honest network, only two lookups can panic: that of the ledger
of the tip or of a parent, at a node that the offering has not reached, and that of a
transaction block, at a node that has received a proposer block which refers to it
or that has such a block in the buffer. -/
theorem panics_of_run (run : Run (Network.step crypto graph) (Network.Initial crypto))
    (single : OneOffering run) (noCollision : NoCollision crypto (madeBefore run run.length)) :
    ∀ index ≤ run.length, ∀ event outcome panic,
      (run.states index).perform crypto event = some outcome → outcome.panic = some panic →
        panic = .globState ∧ ((run.states index).nodes event.actor).globState = ∅ ∨
        panic = .txBlockPool ∧ ∃ packet, event = .deliver packet ∧ ∃ block,
          (block ∈ packet.message.givenBlocks ∨
            ((run.states index).nodes packet.dest).Waits block) ∧
          ∃ ref ∈ block.content.proposerContent,
            ref ∉ ((run.states index).nodes packet.dest).txBlockPool := by
  intro index bound event outcome panic performs panics
  have within := within_of_run run index bound
  have le := madeBefore_le run bound
  have anchored := anchored_of_run run single noCollision index bound
  have shaped := shaped_madeBefore (Nat.le_refl run.length)
  have formed := within.formed event.actor
  have kept := (within.nodes event.actor).mono le
  -- at the tip nothing is missing but the offering
  have atTip (missing : ((run.states index).nodes event.actor).blockchain.tip ∉
      ((run.states index).nodes event.actor).globState) :
      ((run.states index).nodes event.actor).globState = ∅ :=
    ((anchored.nodes event.actor).missing formed.chain.tip missing).1
  cases event with
  | deliver packet =>
      simp only [Network.perform, Option.ite_none_right_eq_some, Option.some.injEq] at performs
      obtain ⟨underWay, rfl⟩ := performs
      cases stops_of_workerLoop kept formed (anchored.nodes packet.dest) noCollision shaped
        ((within.packets packet underWay).mono le) (anchored.packets packet underWay) panics with
      | unoffered missing => exact .inl ⟨rfl, missing⟩
      | unpooled block inHand ref member absent =>
          exact .inr ⟨rfl, packet, rfl, block, inHand, ref, member, absent⟩
  | mine peer choice =>
      simp only [Network.perform, Option.ite_none_right_eq_some, Option.some.injEq] at performs
      obtain ⟨possible, rfl⟩ := performs
      left
      cases ran : minerLoop crypto ((run.states index).nodes peer) choice with
      | ok progress =>
          rw [ran] at panics
          cases panics
      | error panicked =>
          rcases (anchored.nodes peer).offered with unoffered | ⟨ledger, -, offered⟩
          · refine ⟨?_, unoffered.globState⟩
            rw [ran] at panics
            simp only [minerLoop, unoffered.globState, Finmap.lookup_empty, index_none,
              Node.attempt_error, error_bind, Except.error.injEq] at ran
            subst ran
            exact (Option.some.inj panics).symm
          · obtain ⟨progress, completed⟩ := offered.minerLoop_isOk formed kept shaped possible
            rw [completed] at ran
            cases ran
  | mineAttacker peer choice =>
      simp only [Network.perform, Option.some.injEq] at performs
      subst performs
      left
      cases ran : minerLoopAttacker crypto ((run.states index).nodes peer) choice with
      | ok progress =>
          rw [ran] at panics
          cases panics
      | error panicked =>
          rcases (anchored.nodes peer).offered with unoffered | ⟨ledger, -, offered⟩
          · refine ⟨?_, unoffered.globState⟩
            rw [ran] at panics
            simp only [minerLoopAttacker, unoffered.globState, Finmap.lookup_empty, index_none,
              Node.attempt_error, error_bind, Except.error.injEq] at ran
            subst ran
            exact (Option.some.inj panics).symm
          · obtain ⟨progress, completed⟩ := offered.minerLoopAttacker_isOk choice formed
            rw [completed] at ran
            cases ran
  | generateAddress peer key =>
      simp only [Network.perform, Network.outcomeOf, Option.some.injEq] at performs
      subst performs
      cases panics
  | generate peer draws =>
      simp only [Network.perform, Option.ite_none_right_eq_some, Option.some.injEq] at performs
      obtain ⟨possible, rfl⟩ := performs
      obtain ⟨cause, missing⟩ :=
        panic_of_generatorLoop (ownsAddresses_of_run run bound peer) possible panics
      exact .inl ⟨cause, atTip missing⟩
  | ico peer =>
      simp only [Network.perform, Network.outcomeOf, Option.some.injEq] at performs
      subst performs
      cases panics

end Runs

/-- The second node asks for the proposer block before the transaction block. -/
def hastyRun : Run (Network.step Crypto.sample Graph.pair) (Network.Initial Crypto.sample) :=
  Run.ofActions (tradeRun.states 0) tradeRun.starts
    ((List.range 9).map tradeRun.actions ++
      [.deliver ⟨false, true, .newProposerBlockHashes [sampleHash 2]⟩,
        .deliver ⟨true, false, .getProposerBlocks [sampleHash 2]⟩])
    (by decide +kernel)

theorem panics_hastyRun :
    (((hastyRun.states 11).perform Crypto.sample
      (.deliver ⟨false, true, .proposerBlocks [paymentProposal]⟩)).bind Outcome.panic =
        some .txBlockPool) ∧
      ∃ block, (block ∈ [paymentProposal] ∨ ((hastyRun.states 11).nodes true).Waits block) ∧
        ∃ ref ∈ block.content.proposerContent,
          ref ∉ ((hastyRun.states 11).nodes true).txBlockPool := by
  have single : OneOffering hastyRun := by
    change ∀ index < 11, _
    decide +kernel
  have made : (∀ block, (madeBefore hastyRun hastyRun.length).block block →
      block ∈ [paymentProposal]) ∧
      ∀ txBlock, (madeBefore hastyRun hastyRun.length).txBlock txBlock →
        txBlock ∈ [splitBlock] := by
    apply madeBefore_of_entries hastyRun
    · change ∀ index < 11, _
      decide +kernel
    · change ∀ index < 11, _
      decide +kernel
  have noCollision : NoCollision Crypto.sample (madeBefore hastyRun hastyRun.length) :=
    .of_lists made.1 made.2 (by decide +kernel) (by decide +kernel) (by decide +kernel)
      (by decide +kernel)
  have panics : ((hastyRun.states 11).perform Crypto.sample
      (.deliver ⟨false, true, .proposerBlocks [paymentProposal]⟩)).bind Outcome.panic =
        some .txBlockPool := by
    decide +kernel
  obtain ⟨outcome, performs, panic⟩ := Option.bind_eq_some_iff.mp panics
  refine ⟨panics, ?_⟩
  rcases panics_of_run hastyRun single noCollision 11 (by decide) _ outcome _ performs panic with
    ⟨impossible, -⟩ | ⟨-, packet, same, missing⟩
  · cases impossible
  · cases same
    exact missing

end SimplifiedPrism
