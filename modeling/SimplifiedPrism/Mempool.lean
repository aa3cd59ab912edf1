import SimplifiedPrism.Invariants

/-!
# What a step does to the pools

Transactions enter the mempool through a message or the generator.  They leave
it when a transaction block packs them and when a proposer block is applied
whose ledger lacks one of their inputs.  `PoolCases` lists the changes of the
two pools, of the tree and of the ledgers, with the exact mempool that pruning
leaves.
-/

namespace SimplifiedPrism

variable {crypto : Crypto}

/-- The mempool after the transactions in conflict with a ledger have gone. -/
def Prunes (ledger : Ledger) (txPool after : HashMap H256 SignedTransaction) : Prop :=
  ∀ hash tx, after.lookup hash = some tx ↔
    txPool.lookup hash = some tx ∧ tx.transaction.unspent ledger = true

theorem Accepts.ledger_eq {node after : Node} {block : ProposerBlock}
    {parentLedger ledger published : Ledger} {txs : List SignedTransaction}
    (accepts : Accepts crypto node block parentLedger txs ledger after)
    (found : after.globState.lookup (block.hash crypto) = some published) :
    ledger = published := by
  rw [accepts.globState, Finmap.lookup_insert, Option.some.injEq] at found
  exact found

theorem Accepts.tip_cases {node after : Node} {block : ProposerBlock}
    {parentLedger ledger : Ledger} {txs : List SignedTransaction}
    (accepts : Accepts crypto node block parentLedger txs ledger after) :
    after.blockchain.tip = block.hash crypto ∨
      after.blockchain.tip = node.blockchain.tip := by
  obtain ⟨_, -, -, -, -, tip⟩ := Blockchain.insert_ok accepts.inserted
  rw [Blockchain.tip, tip]
  split
  · exact .inl rfl
  · exact .inr rfl

theorem Accepts.globState_of_ne {node after : Node} {block : ProposerBlock}
    {parentLedger ledger : Ledger} {txs : List SignedTransaction}
    (accepts : Accepts crypto node block parentLedger txs ledger after) {hash : H256}
    (other : hash ≠ block.hash crypto) :
    after.globState.lookup hash = node.globState.lookup hash := by
  rw [accepts.globState, Finmap.lookup_insert_of_ne _ other]

theorem prunes_of_apply {node after : Node} {block : ProposerBlock} {parentLedger ledger : Ledger}
    {txs : List SignedTransaction}
    (accepts : Accepts crypto node block parentLedger txs ledger after)
    (applied : applyProposerBlock crypto node block = .ok after) :
    Prunes ledger node.txPool after.txPool := by
  simp only [applyProposerBlock, bind_eq_ok, Node.attempt_eq_ok, index_eq_ok] at applied
  obtain ⟨_, -, _, -, published, -, txPool, pruned, inserted⟩ := applied
  obtain ⟨blockchain, -, rfl⟩ := Node.insertBlock_ok inserted
  have same : ledger = published := accepts.ledger_eq (Finmap.lookup_insert _)
  rw [same]
  exact fun _ _ => lookup_of_pruned pruned

theorem prunes_of_publish {node after : Node} {newBlock : ProposerBlock}
    {pointedTxBlocks : List H256} {currState parentLedger ledger : Ledger}
    {txs : List SignedTransaction}
    (accepts : Accepts crypto node newBlock parentLedger txs ledger after)
    (published : publishProposerBlock crypto node newBlock pointedTxBlocks currState =
      .ok after) :
    Prunes ledger node.txPool after.txPool := by
  simp only [publishProposerBlock, bind_eq_ok, Node.attempt_eq_ok, index_eq_ok] at published
  obtain ⟨current, -, txPool, pruned, inserted⟩ := published
  obtain ⟨blockchain, -, rfl⟩ := Node.insertBlock_ok inserted
  have same : ledger = current := accepts.ledger_eq (Finmap.lookup_insert _)
  rw [same]
  exact fun _ _ => lookup_of_pruned pruned

/-- Packing keeps the transactions that have none of the hashes packed. -/
theorem lookup_removeTransactions {txPool : HashMap H256 SignedTransaction}
    {content : List SignedTransaction} {hash : H256} {tx : SignedTransaction} :
    (removeTransactions crypto txPool content).lookup hash = some tx ↔
      txPool.lookup hash = some tx ∧ ∀ packed ∈ content, packed.hash crypto ≠ hash := by
  induction content generalizing txPool with
  | nil => simp [removeTransactions]
  | cons packed content ih =>
      refine ih.trans ?_
      rw [HashMap.lookup_erase_ite]
      constructor
      · rintro ⟨kept, others⟩
        split at kept
        · cases kept
        · next other =>
            refine ⟨kept, fun each member => ?_⟩
            rcases List.mem_cons.mp member with rfl | member
            · exact fun same => other same.symm
            · exact others each member
      · rintro ⟨stored, others⟩
        rw [if_neg fun same => others packed (by simp) same.symm]
        exact ⟨stored, fun each member => others each (by simp [member])⟩

/-- A received transaction passes the checks against the ledger of the tip that
was read at the start of the message. -/
def Passes (crypto : Crypto) (node : Node) (tip : H256) (each : SignedTransaction) : Prop :=
  each.verified crypto = true ∧ ∃ currState sums, node.globState.lookup tip = some currState ∧
    inputsUnspent currState each.transaction = some true ∧
    inputsOwned crypto currState each = some true ∧
    inputOutputSums currState each.transaction = some sums ∧ ¬ sums.1 < sums.2

/-- A received transaction is new to the mempool and passes the checks. -/
structure Admits (crypto : Crypto) (node : Node) (tip : H256) (each : SignedTransaction) :
    Prop where
  fresh : each.hash crypto ∉ node.txPool
  passes : Passes crypto node tip each

theorem Admits.ran {node : Node} {tip : H256} {each : SignedTransaction}
    (admits : Admits crypto node tip each) :
    handleTransaction crypto node tip each =
      .ok { node := { node with txPool := node.txPool.insert (each.hash crypto) each }
            sent := [.broadcast (.newTransactionHashes [each.hash crypto])] } := by
  obtain ⟨fresh, verified, currState, sums, tipState, unspent, owned, summed, covered⟩ := admits
  simp [handleTransaction, fresh, verified, tipState, unspent, owned, summed, covered]
  rfl

/-- The maps that matter for pooled transactions are the same. -/
structure Node.SamePools (before after : Node) : Prop where
  txPool : after.txPool = before.txPool
  txBlockPool : after.txBlockPool = before.txBlockPool
  blockchain : after.blockchain = before.blockchain
  globState : after.globState = before.globState

theorem Node.SamePools.refl (node : Node) : node.SamePools node :=
  ⟨rfl, rfl, rfl, rfl⟩

/-- The miner builds a block on the tip, without a reference that is repeated or
that an ancestor makes. -/
structure MinesBlock (crypto : Crypto) (state : State) (action : Action)
    (block : ProposerBlock) : Prop where
  won : block.header ∈ state.proposerHeader crypto action
  parent : block.header.proposerParent = state.node.blockchain.tip
  nodup : block.content.proposerContent.Nodup
  unpointed : ∀ pointed ∈ state.node.txBlockRef.lookup state.node.blockchain.tip,
    ∀ ref ∈ block.content.proposerContent, ref ∉ pointed

/-- Everything a step can do to the pools, the tree and the ledgers. -/
inductive PoolCases (crypto : Crypto) (before : State) (action : Action) (after : Node) : Prop
  | kept (same : before.node.SamePools after)
      (txBlockRef : after.txBlockRef = before.node.txBlockRef)
  | panicked (same : before.node.SamePools after)
      (cause : (∃ task rest panic, before.todo = task :: rest ∧
          Failure crypto before.node task ⟨panic, after⟩) ∨
        ∃ header newRef, header ∈ before.proposerHeader crypto action ∧
          after.txBlockRef = before.node.txBlockRef.insert (header.hash crypto) newRef)
  | offered (genesis : H256) (icoState : Ledger)
      (offer : action = .ico ∨ before.node.globState = ∅)
      (node : after =
        { before.node with globState := before.node.globState.insert genesis icoState })
  | admitted (tip : H256) (each : SignedTransaction) (rest : List Task)
      (work : action = .work)
      (next : before.todo = .transaction tip each :: rest)
      (admits : Admits crypto before.node tip each)
      (node : after = { before.node with
        txPool := before.node.txPool.insert (each.hash crypto) each })
  | generated (draws : List Draw) (generate : action = .generate draws)
      (node : after = (generatorLoop crypto before.node draws).node)
  | packed (block : TXBlock)
      (source : (∃ rest, action = .work ∧ before.todo = .transactionBlock block :: rest ∧
          block.hash crypto ∉ before.node.txBlockPool) ∨
        block.header ∈ before.transactionHeader crypto action ∧
          ∀ tx ∈ block.content.transactionContent, ∃ hash,
            before.node.txPool.lookup hash = some tx)
      (node : after = { before.node with
        txPool := removeTransactions crypto before.node.txPool block.content.transactionContent
        txBlockPool := before.node.txBlockPool.insert (block.hash crypto) block })
  | accepted (block : ProposerBlock) (parentLedger : Ledger) (txs : List SignedTransaction)
      (ledger : Ledger)
      (source : block ∈ before.applied crypto action ∨ MinesBlock crypto before action block)
      (accepts : Accepts crypto before.node block parentLedger txs ledger after)
      (prunes : Prunes ledger before.node.txPool after.txPool)
  | copied (block : ProposerBlock) (ledger : Ledger)
      (mines : MinesBlock crypto before action block)
      (accepts : Accepts crypto before.node block ledger [] ledger after)
      (txPool : after.txPool = before.node.txPool)

section Cases

variable {before after : State} {action : Action}

private theorem poolCases_of_ran {task : Task} {rest todo : List Task} {node : Node}
    (next : before.todo = task :: rest)
    (effect : Effect crypto before.node task node todo) :
    PoolCases crypto before .work node := by
  cases effect with
  | skip | addr _ _ | release _ _ _ => exact .kept ⟨rfl, rfl, rfl, rfl⟩ rfl
  | ico genesis icoState first => exact .offered genesis icoState (.inr first) rfl
  | buffer each _ _ _ =>
      rw [bufferOrphan_eq]
      exact .kept ⟨rfl, rfl, rfl, rfl⟩ rfl
  | transaction tip each currState sums fresh verified tipState unspent owned summed covered =>
      have passes : Passes crypto before.node tip each :=
        ⟨verified, currState, sums, tipState, unspent, owned, summed, covered⟩
      exact .admitted tip each rest rfl next ⟨fresh, passes⟩ rfl
  | transactionBlock each unknown _ _ =>
      exact .packed each (.inl ⟨rest, rfl, next, unknown⟩) rfl
  | accept _ each _ checks signed applied =>
      obtain ⟨parentLedger, txs, ledger, accepts⟩ := accepts_of_apply applied
      exact .accepted each parentLedger txs ledger
        (.inl (mem_applied (mem_checked next checks) signed applied)) accepts
        (prunes_of_apply accepts applied)

private theorem poolCases_of_mine {choice : MinerChoice} {progress : Progress}
    (possible : choice.Possible before.node)
    (ran : minerLoop crypto before.node choice = .ok progress) :
    PoolCases crypto before (.mine choice) progress.node := by
  simp only [minerLoop, bind_eq_ok, Node.attempt_eq_ok, index_eq_ok] at ran
  obtain ⟨currState, tipState, transBlockContent, selected, pointedTxBlocks, tipRef, header,
    built, ran⟩ := ran
  have mined := minedHeader_of_newHeader built
  have hashed : before.minedHeader crypto (.mine choice) = some header := by
    simp [State.minedHeader, minerHeader, tipState, selected, tipRef, built, Except.toOption]
  split at ran
  · next won =>
      split at ran
      · cases ran
        exact .kept (.refl _) rfl
      simp only [bind_eq_ok] at ran
      obtain ⟨after, published, ran⟩ := ran
      cases ran
      have nodup : (selectRefs pointedTxBlocks choice.txBlockOrder 0).Nodup :=
        (selectRefs_sublist _ _ _).nodup possible.2.nodup
      have mines : MinesBlock crypto before (.mine choice)
          ⟨header, ⟨selectRefs pointedTxBlocks choice.txBlockOrder 0⟩⟩ := by
        refine ⟨mem_proposerHeader hashed won, mined.parent, nodup, ?_⟩
        intro pointed found ref member
        rw [Option.mem_def, tipRef, Option.some.injEq] at found
        exact found ▸ not_pointed_of_selectRefs member
      rw [← mined.parent] at tipState tipRef
      obtain ⟨txs, ledger, accepts⟩ := accepts_of_publish tipState tipRef nodup
        (fun ref member => not_pointed_of_selectRefs member) published
      exact .accepted _ currState txs ledger (.inr mines) accepts
        (prunes_of_publish accepts published)
  · next lost =>
      split at ran
      · next won =>
          split at ran
          · cases ran
            exact .kept (.refl _) rfl
          cases ran
          exact .packed ⟨header, ⟨transBlockContent⟩⟩
            (.inr ⟨mem_transactionHeader hashed lost won,
              pooled_of_selectTransactions selected⟩) rfl
      · cases ran
        exact .kept (.refl _) rfl

private theorem poolCases_of_mineAttacker {choice : MinerChoice} {progress : Progress}
    (ran : minerLoopAttacker crypto before.node choice = .ok progress) :
    PoolCases crypto before (.mineAttacker choice) progress.node := by
  simp only [minerLoopAttacker, bind_eq_ok, Node.attempt_eq_ok, index_eq_ok] at ran
  obtain ⟨currState, tipState, pointedTxBlocks, tipRef, header, built, ran⟩ := ran
  have mined := minedHeader_of_newHeader built
  have hashed : before.minedHeader crypto (.mineAttacker choice) = some header := by
    simp [State.minedHeader, minerHeaderAttacker, tipState, tipRef, built, Except.toOption]
  split at ran
  · next won =>
      simp only [bind_eq_ok] at ran
      obtain ⟨after, inserted, ran⟩ := ran
      cases ran
      rw [← mined.parent] at tipState tipRef
      let newBlock : ProposerBlock := ⟨header, ⟨[]⟩⟩
      have empty : newBlock.content.proposerContent = [] := rfl
      obtain ⟨accepts, txPool⟩ := accepts_of_copy empty tipState tipRef inserted
      have mines : MinesBlock crypto before (.mineAttacker choice) newBlock :=
        ⟨mem_proposerHeader hashed won, mined.parent, List.nodup_nil, by simp [newBlock]⟩
      exact .copied newBlock currState mines accepts txPool
  · next lost =>
      split at ran
      · next won =>
          cases ran
          exact .packed ⟨header, ⟨[]⟩⟩ (.inr ⟨mem_transactionHeader hashed lost won, by simp⟩) rfl
      · cases ran
        exact .kept (.refl _) rfl

private theorem poolCases_of_minerFailure {node : Node}
    (failure : MinerFailure crypto before.node (before.minedHeader crypto action) node) :
    PoolCases crypto before action node := by
  cases failure with
  | nothing => exact .kept (.refl _) rfl
  | reference header _ _ _ built _ won _ _ =>
      exact .panicked ⟨rfl, rfl, rfl, rfl⟩
        (.inr ⟨header, _, mem_proposerHeader built won, rfl⟩)

theorem poolCases_of_step (formed : before.WellFormed crypto)
    (stepped : before.step crypto action = some after) :
    PoolCases crypto before action after.node := by
  have tipHeight : before.node.blockchain.tip ∈ before.node.blockchain.heights :=
    (formed.node.chain.heights _).mpr formed.node.chain.tip
  cases action with
  | receive message =>
      simp only [State.step, Option.ite_none_right_eq_some, Option.some.injEq] at stepped
      obtain ⟨-, rfl⟩ := stepped
      exact .kept (.refl _) rfl
  | work =>
      rw [State.step] at stepped
      split at stepped
      · cases stepped
      next task rest next =>
      split at stepped
      · next progress ran =>
          cases stepped
          exact poolCases_of_ran next (effect_of_run ran)
      · next panicked ran =>
          cases stepped
          have failure := failure_of_run ran
          have written := failure.onlyRefs formed.node (formed.grounded next)
          refine .panicked ?_ (.inl ⟨task, rest, panicked.panic, next, failure⟩)
          rw [written]
          exact ⟨rfl, rfl, rfl, rfl⟩
  | mine choice =>
      simp only [State.step, Option.ite_none_right_eq_some, Option.some.injEq] at stepped
      obtain ⟨⟨-, possible⟩, rfl⟩ := stepped
      cases iterated : minerLoop crypto before.node choice with
      | ok progress => exact poolCases_of_mine possible iterated
      | error panicked =>
          exact poolCases_of_minerFailure (failure_of_minerLoop possible tipHeight iterated)
  | mineAttacker choice =>
      simp only [State.step, Option.ite_none_right_eq_some, Option.some.injEq] at stepped
      obtain ⟨-, rfl⟩ := stepped
      cases iterated : minerLoopAttacker crypto before.node choice with
      | ok progress => exact poolCases_of_mineAttacker iterated
      | error panicked =>
          exact poolCases_of_minerFailure (failure_of_minerLoopAttacker tipHeight iterated)
  | generate draws =>
      simp only [State.step, Option.ite_none_right_eq_some] at stepped
      obtain ⟨-, stepped⟩ := stepped
      split at stepped
      · cases stepped
        exact .kept (.refl _) rfl
      · cases stepped
        exact .generated draws rfl rfl
  | ico =>
      simp only [State.step, Option.ite_none_right_eq_some, Option.some.injEq] at stepped
      obtain ⟨-, rfl⟩ := stepped
      exact .offered _ _ (.inl rfl) rfl

end Cases

variable (crypto) in
/-- A state that some run from the start of the program ends in. -/
def Reached (state : State) : Prop :=
  ∃ run : Run (State.step crypto) (Initial crypto), run.states run.length = state

theorem Reached.wellFormed {state : State} (reached : Reached crypto state) :
    state.WellFormed crypto := by
  obtain ⟨run, rfl⟩ := reached
  exact wellFormed_of_run run run.length (le_refl _)

variable (crypto) in
/-- The steps of the worker and the miner, and the offering. -/
def State.stepWithoutGenerator (state : State) : Action → Option State
  | .generate _ => none
  | action => state.step crypto action

theorem step_of_stepWithoutGenerator {before after : State} {action : Action}
    (stepped : before.stepWithoutGenerator crypto action = some after) :
    before.step crypto action = some after ∧ ∀ draws, action ≠ .generate draws := by
  cases action with
  | generate _ => cases stepped
  | receive _ | work | mine _ | mineAttacker _ | ico => exact ⟨stepped, by simp⟩

variable (crypto) in
/-- Some block of the transaction-block pool contains a transaction of this hash. -/
def Node.Packed (node : Node) (hash : H256) : Prop :=
  ∃ ref txBlock, node.txBlockPool.lookup ref = some txBlock ∧
    ∃ tx ∈ txBlock.content.transactionContent, tx.hash crypto = hash

instance (node : Node) (hash : H256) : Decidable (node.Packed crypto hash) :=
  have packed : (∃ entry ∈ node.txBlockPool.entries,
      ∃ tx ∈ entry.2.content.transactionContent, tx.hash crypto = hash) ↔
        node.Packed crypto hash :=
    ⟨fun ⟨⟨ref, txBlock⟩, member, inside⟩ =>
        ⟨ref, txBlock, (HashMap.mem_entries_iff _ ref txBlock).mp member, inside⟩,
      fun ⟨ref, txBlock, found, inside⟩ =>
        ⟨⟨ref, txBlock⟩, (HashMap.mem_entries_iff _ ref txBlock).mpr found, inside⟩⟩
  @decidable_of_iff _ _ packed Multiset.decidableExistsMultiset

/-- What a node has packed stays packed when blocks enter the pool under new
hashes. -/
theorem Node.Packed.insert {node after : Node} {hash ref : H256} {txBlock : TXBlock}
    (packed : node.Packed crypto hash) (fresh : ref ∉ node.txBlockPool)
    (inserted : after.txBlockPool = node.txBlockPool.insert ref txBlock) :
    after.Packed crypto hash := by
  obtain ⟨old, oldBlock, found, inside⟩ := packed
  refine ⟨old, oldBlock, ?_, inside⟩
  rw [inserted, Finmap.lookup_insert_of_ne, found]
  rintro rfl
  exact fresh (Finmap.mem_of_lookup_eq_some found)

end SimplifiedPrism
