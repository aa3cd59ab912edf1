import Mathlib.Tactic.Ring
import SimplifiedPrism.Node

/-!
# The worker

`worker_loop` takes a message and loops over its items; accepting a proposer
block calls `new_parent`, which loops over the orphans that waited for it and
calls itself again.  A worker is modelled as a machine whose stack holds what is
left of these loops: a message is a list of tasks, and running a task changes
the shared maps, sends messages and puts further tasks in front of the rest.
-/

namespace SimplifiedPrism

/-- The messages of the network protocol. -/
inductive Message
  | newAddr (addrVec : List H160)
  | ico (genesisHash : H256) (icoState : Ledger)
  | newTransactionHashes (hashVec : List H256)
  | getTransactions (hashVec : List H256)
  | transactions (transactionVec : List SignedTransaction)
  | newTransactionBlockHashes (hashVec : List H256)
  | getTransactionBlocks (hashVec : List H256)
  | transactionBlocks (txBlockVec : List TXBlock)
  | newProposerBlockHashes (hashVec : List H256)
  | getProposerBlocks (hashVec : List H256)
  | proposerBlocks (proposerBlockVec : List ProposerBlock)
deriving DecidableEq

/-- `write` answers the peer the handled message came from, `broadcast` goes to
every connected peer. -/
inductive Outgoing
  | write (message : Message)
  | broadcast (message : Message)
deriving DecidableEq

/-- What is left to do for a worker: passes of the loops over a message, the
call of `new_parent`, and passes of the loop over the orphans inside it. -/
inductive Task
  | addr (each : H160)
  | ico (genesisHash : H256) (icoState : Ledger)
  | announcedTransaction (each : H256)
  | requestedTransaction (each : H256)
  | transaction (tip : H256) (each : SignedTransaction)
  | announcedTransactionBlock (each : H256)
  | requestedTransactionBlock (each : H256)
  | transactionBlock (each : TXBlock)
  | announcedProposerBlock (each : H256)
  | requestedProposerBlock (each : H256)
  | proposerBlock (each : ProposerBlock)
  | newParent (block : ProposerBlock)
  | orphan (each : ProposerBlock)
deriving DecidableEq

/-- The maps after a task, the tasks it leads to and the messages it sends. -/
structure Progress where
  node : Node
  todo : List Task := []
  sent : List Outgoing := []

variable (crypto : Crypto)

/-! ## Addresses and coins -/

def handleAddr (node : Node) (each : H160) : Progress :=
  if each ∈ node.allAddr then
    { node }
  else
    let allAddr := node.allAddr ++ [each]
    { node := { node with allAddr }, sent := [.broadcast (.newAddr allAddr)] }

def handleIco (node : Node) (genesisHash : H256) (icoState : Ledger) : Progress :=
  if node.globState = ∅ then
    { node := { node with globState := node.globState.insert genesisHash icoState }
      sent := [.broadcast (.ico genesisHash icoState)] }
  else
    { node }

/-! ## Transactions -/

/-- Check that the public key matches the owner's address of every input. -/
def inputsOwned (currState : Ledger) (tx : SignedTransaction) : Option Bool :=
  (List.range tx.transaction.inputPrevious.length).allM fun i => do
    let key ← tx.transaction.lookupKey i
    let coin ← currState.lookup key
    return decide (coin.2 = addressOf crypto tx.sig.key)

/-- `input_sum` and `output_sum`: the former is assigned, not added to, in every
pass, and the latter wraps around.  With overflow checks, as in a debug build, the
worker panics instead where `SumOverflows` holds. -/
def inputOutputSums (currState : Ledger) (transaction : Transaction) :
    Option (UInt32 × UInt32) :=
  (List.range transaction.inputPrevious.length).foldlM (fun sums i => do
    let key ← transaction.lookupKey i
    let coin ← currState.lookup key
    let outputValue ← transaction.outputValue[i]?
    return (coin.1, sums.2 + outputValue)) (0, 0)

def handleTransaction (node : Node) (tip : H256) (each : SignedTransaction) :
    Except Panicked Progress :=
  if each.hash crypto ∈ node.txPool then
    .ok { node }
  else if each.verified crypto = false then
    .ok { node }
  else do
    let currState ← node.attempt (index .globState (node.globState.lookup tip))
    let unspent ← node.attempt (index .vector (inputsUnspent currState each.transaction))
    if unspent = false then
      return { node }
    let owned ← node.attempt (index .vector (inputsOwned crypto currState each))
    if owned = false then
      return { node }
    let sums ← node.attempt (index .vector (inputOutputSums currState each.transaction))
    if sums.1 < sums.2 then
      return { node }
    return { node := { node with txPool := node.txPool.insert (each.hash crypto) each }
             sent := [.broadcast (.newTransactionHashes [each.hash crypto])] }

/-! ## Transaction blocks -/

/-- Remove the transactions of a block from the mempool. -/
def removeTransactions (txPool : HashMap H256 SignedTransaction)
    (transactionContent : List SignedTransaction) : HashMap H256 SignedTransaction :=
  transactionContent.foldl (fun txPool tx => txPool.erase (tx.hash crypto)) txPool

def handleTransactionBlock (node : Node) (each : TXBlock) : Progress :=
  if each.hash crypto ∈ node.txBlockPool then
    { node }
  else if each.hash crypto > each.header.transactionDifficulty then
    { node }
  else if each.hash crypto ≤ each.header.proposerDifficulty then
    { node }
  else
    { node := { node with
        txPool := removeTransactions crypto node.txPool each.content.transactionContent
        txBlockPool := node.txBlockPool.insert (each.hash crypto) each }
      sent := [.broadcast (.newTransactionBlockHashes [each.hash crypto])] }

/-! ## Proposer blocks -/

/-- Check the signatures of a block whose parent is known, apply it and look for
orphans that wait for it.  `worker_loop` and `new_parent` share this code. -/
def acceptProposerBlock (node : Node) (each : ProposerBlock) : Except Panicked Progress := do
  let valid ← node.attempt
    (signedCorrectly crypto node.txBlockPool each.content.proposerContent)
  if valid = false then
    return { node }
  let node ← applyProposerBlock crypto node each
  return { node
           todo := [.newParent each]
           sent := [.broadcast (.newProposerBlockHashes [each.hash crypto])] }

/-- Put a block whose parent is missing into the buffer. -/
def bufferOrphan (node : Node) (each : ProposerBlock) : Node :=
  let parent := each.header.proposerParent
  match node.orphanHandler.lookup parent with
  | some waiting =>
      { node with orphanHandler := node.orphanHandler.insert parent (waiting ++ [each]) }
  | none =>
      { node with orphanHandler := node.orphanHandler.insert parent [each] }

def handleProposerBlock (node : Node) (each : ProposerBlock) : Except Panicked Progress :=
  if each.hash crypto ∈ node.blockchain.blocks then
    .ok { node }
  else if each.hash crypto > each.header.proposerDifficulty then
    .ok { node }
  else if each.header.proposerParent ∉ node.blockchain.blocks then
    .ok { node := bufferOrphan node each
          sent := [.write (.getProposerBlocks [each.header.proposerParent])] }
  else
    acceptProposerBlock crypto node each

/-- `new_parent`: take the orphans that wait for a block out of the buffer. -/
def handleNewParent (node : Node) (block : ProposerBlock) : Progress :=
  match node.orphanHandler.lookup (block.hash crypto) with
  | none => { node }
  | some vec =>
      { node := { node with orphanHandler := node.orphanHandler.erase (block.hash crypto) }
        todo := vec.map .orphan }

/-- One pass of the loop of `new_parent`. -/
def handleOrphan (node : Node) (each : ProposerBlock) : Except Panicked Progress :=
  acceptProposerBlock crypto node each

/-! ## The machine -/

/-- Run one task. -/
def runTask (node : Node) : Task → Except Panicked Progress
  | .addr each => .ok (handleAddr node each)
  | .ico genesisHash icoState => .ok (handleIco node genesisHash icoState)
  | .announcedTransaction each =>
      .ok { node, sent := if each ∈ node.txPool then [] else [.write (.getTransactions [each])] }
  | .requestedTransaction each =>
      .ok { node, sent := (node.txPool.lookup each).toList.map
              fun tx => .write (.transactions [tx]) }
  | .transaction tip each => handleTransaction crypto node tip each
  | .announcedTransactionBlock each =>
      .ok { node, sent :=
              if each ∈ node.txBlockPool then [] else [.write (.getTransactionBlocks [each])] }
  | .requestedTransactionBlock each =>
      .ok { node, sent := (node.txBlockPool.lookup each).toList.map
              fun block => .write (.transactionBlocks [block]) }
  | .transactionBlock each => .ok (handleTransactionBlock crypto node each)
  | .announcedProposerBlock each =>
      .ok { node, sent :=
              if each ∈ node.blockchain.blocks then [] else [.write (.getProposerBlocks [each])] }
  | .requestedProposerBlock each =>
      .ok { node, sent := (node.blockchain.blocks.lookup each).toList.map
              fun block => .write (.proposerBlocks [block]) }
  | .proposerBlock each => handleProposerBlock crypto node each
  | .newParent block => .ok (handleNewParent crypto node block)
  | .orphan each => handleOrphan crypto node each

/-- The passes of the loop over a message. -/
def Message.tasks (node : Node) : Message → List Task
  | .newAddr addrVec => addrVec.map .addr
  | .ico genesisHash icoState => [.ico genesisHash icoState]
  | .newTransactionHashes hashVec => hashVec.map .announcedTransaction
  | .getTransactions hashVec => hashVec.map .requestedTransaction
  | .transactions transactionVec => transactionVec.map (.transaction node.blockchain.tip)
  | .newTransactionBlockHashes hashVec => hashVec.map .announcedTransactionBlock
  | .getTransactionBlocks hashVec => hashVec.map .requestedTransactionBlock
  | .transactionBlocks txBlockVec => txBlockVec.map .transactionBlock
  | .newProposerBlockHashes hashVec => hashVec.map .announcedProposerBlock
  | .getProposerBlocks hashVec => hashVec.map .requestedProposerBlock
  | .proposerBlocks proposerBlockVec => proposerBlockVec.map .proposerBlock

/-! ## What a task does -/

variable {crypto}

/-- The task reaches the signature check of a block: the block is an orphan
being released, or it was received, is new, passes the proof-of-work check and
has a known parent. -/
inductive Checks (crypto : Crypto) (node : Node) : Task → ProposerBlock → Prop
  | received (each : ProposerBlock) (unknown : each.hash crypto ∉ node.blockchain.blocks)
      (work : ¬ each.hash crypto > each.header.proposerDifficulty)
      (parentKnown : each.header.proposerParent ∈ node.blockchain.blocks) :
      Checks crypto node (.proposerBlock each) each
  | orphan (each : ProposerBlock) : Checks crypto node (.orphan each) each

variable (crypto) in
/-- The block that a task subjects to the signature check. -/
def Task.checked (node : Node) : Task → Option ProposerBlock
  | .proposerBlock each =>
      if each.hash crypto ∉ node.blockchain.blocks ∧
          ¬ each.hash crypto > each.header.proposerDifficulty ∧
          each.header.proposerParent ∈ node.blockchain.blocks then
        some each
      else
        none
  | .orphan each => some each
  | _ => none

theorem checks_iff {node : Node} {task : Task} {block : ProposerBlock} :
    Checks crypto node task block ↔ task.checked crypto node = some block := by
  constructor
  · intro checks
    cases checks with
    | received _ unknown work parentKnown => exact if_pos ⟨unknown, work, parentKnown⟩
    | orphan _ => rfl
  · intro checked
    cases task with
    | proposerBlock each =>
        simp only [Task.checked, Option.ite_none_right_eq_some, Option.some.injEq] at checked
        obtain ⟨⟨unknown, work, parentKnown⟩, rfl⟩ := checked
        exact .received each unknown work parentKnown
    | orphan each =>
        rw [Task.checked, Option.some.injEq] at checked
        subst checked
        exact .orphan each
    | addr _ | ico _ _ | announcedTransaction _ | requestedTransaction _ | transaction _ _
    | announcedTransactionBlock _ | requestedTransactionBlock _ | transactionBlock _
    | announcedProposerBlock _ | requestedProposerBlock _ | newParent _ => cases checked

/-- Everything a task can do to the maps, and the tasks it leads to. -/
inductive Effect (crypto : Crypto) (node : Node) : Task → Node → List Task → Prop
  | skip (task : Task) : Effect crypto node task node []
  | addr (each : H160) (fresh : each ∉ node.allAddr) :
      Effect crypto node (.addr each) { node with allAddr := node.allAddr ++ [each] } []
  | ico (genesisHash : H256) (icoState : Ledger) (first : node.globState = ∅) :
      Effect crypto node (.ico genesisHash icoState)
        { node with globState := node.globState.insert genesisHash icoState } []
  | transaction (tip : H256) (each : SignedTransaction) (currState : Ledger)
      (sums : UInt32 × UInt32)
      (fresh : each.hash crypto ∉ node.txPool)
      (verified : each.verified crypto = true)
      (tipState : node.globState.lookup tip = some currState)
      (unspent : inputsUnspent currState each.transaction = some true)
      (owned : inputsOwned crypto currState each = some true)
      (summed : inputOutputSums currState each.transaction = some sums)
      (covered : ¬ sums.1 < sums.2) :
      Effect crypto node (.transaction tip each)
        { node with txPool := node.txPool.insert (each.hash crypto) each } []
  | transactionBlock (each : TXBlock) (unknown : each.hash crypto ∉ node.txBlockPool)
      (work : ¬ each.hash crypto > each.header.transactionDifficulty)
      (notProposer : ¬ each.hash crypto ≤ each.header.proposerDifficulty) :
      Effect crypto node (.transactionBlock each)
        { node with
          txPool := removeTransactions crypto node.txPool each.content.transactionContent
          txBlockPool := node.txBlockPool.insert (each.hash crypto) each } []
  | buffer (each : ProposerBlock) (unknown : each.hash crypto ∉ node.blockchain.blocks)
      (work : ¬ each.hash crypto > each.header.proposerDifficulty)
      (parentMissing : each.header.proposerParent ∉ node.blockchain.blocks) :
      Effect crypto node (.proposerBlock each) (bufferOrphan node each) []
  | accept (task : Task) (each : ProposerBlock) (after : Node)
      (checks : Checks crypto node task each)
      (signed : signedCorrectly crypto node.txBlockPool each.content.proposerContent = .ok true)
      (applied : applyProposerBlock crypto node each = .ok after) :
      Effect crypto node task after [.newParent each]
  | release (block : ProposerBlock) (vec : List ProposerBlock)
      (waiting : node.orphanHandler.lookup (block.hash crypto) = some vec) :
      Effect crypto node (.newParent block)
        { node with orphanHandler := node.orphanHandler.erase (block.hash crypto) }
        (vec.map .orphan)

/-- Everything that can make a task panic. -/
inductive Failure (crypto : Crypto) (node : Node) : Task → Panicked → Prop
  | transaction (tip : H256) (each : SignedTransaction) (panic : Panic)
      (cause : panic = .vector ∨ panic = .globState ∧ tip ∉ node.globState) :
      Failure crypto node (.transaction tip each) ⟨panic, node⟩
  | signature (task : Task) (each : ProposerBlock) (panic : Panic)
      (checks : Checks crypto node task each)
      (failed : signedCorrectly crypto node.txBlockPool each.content.proposerContent =
        .error panic) :
      Failure crypto node task ⟨panic, node⟩
  | apply (task : Task) (each : ProposerBlock) (panicked : Panicked)
      (checks : Checks crypto node task each)
      (signed : signedCorrectly crypto node.txBlockPool each.content.proposerContent = .ok true)
      (failed : applyProposerBlock crypto node each = .error panicked) :
      Failure crypto node task panicked

section Inversion

variable {node : Node} {task : Task} {progress : Progress}

private theorem effect_of_accept {each : ProposerBlock} (checks : Checks crypto node task each)
    (ran : acceptProposerBlock crypto node each = .ok progress) :
    Effect crypto node task progress.node progress.todo := by
  simp only [acceptProposerBlock, bind_eq_ok, Node.attempt_eq_ok] at ran
  obtain ⟨valid, signed, ran⟩ := ran
  cases valid with
  | false =>
      cases ran
      exact .skip task
  | true =>
      simp only [Bool.true_eq_false, if_false, bind_eq_ok] at ran
      obtain ⟨after, applied, ran⟩ := ran
      cases ran
      exact .accept task each after checks signed applied

private theorem effect_of_proposerBlock {each : ProposerBlock}
    (ran : handleProposerBlock crypto node each = .ok progress) :
    Effect crypto node (.proposerBlock each) progress.node progress.todo := by
  unfold handleProposerBlock at ran
  split at ran
  · cases ran
    exact .skip _
  next unknown =>
  split at ran
  · cases ran
    exact .skip _
  next work =>
  split at ran
  · next parentMissing =>
      cases ran
      exact .buffer each unknown work parentMissing
  · next parentKnown =>
      exact effect_of_accept (.received each unknown work (not_not.mp parentKnown)) ran

private theorem effect_of_transaction {tip : H256} {each : SignedTransaction}
    (ran : handleTransaction crypto node tip each = .ok progress) :
    Effect crypto node (.transaction tip each) progress.node progress.todo := by
  unfold handleTransaction at ran
  split at ran
  · cases ran
    exact .skip _
  next fresh =>
  split at ran
  · cases ran
    exact .skip _
  next verified =>
  simp only [bind_eq_ok, Node.attempt_eq_ok, index_eq_ok] at ran
  obtain ⟨currState, tipState, unspent, isUnspent, ran⟩ := ran
  split at ran
  · cases ran
    exact .skip _
  next stillUnspent =>
  simp only [bind_eq_ok, Node.attempt_eq_ok, index_eq_ok] at ran
  obtain ⟨owned, isOwned, ran⟩ := ran
  split at ran
  · cases ran
    exact .skip _
  next stillOwned =>
  simp only [bind_eq_ok, Node.attempt_eq_ok, index_eq_ok] at ran
  obtain ⟨sums, summed, ran⟩ := ran
  split at ran
  · cases ran
    exact .skip _
  next covered =>
  cases ran
  rw [Bool.not_eq_false] at verified stillUnspent stillOwned
  subst stillUnspent stillOwned
  exact .transaction tip each currState sums fresh verified tipState isUnspent isOwned
    summed covered

theorem effect_of_run (ran : runTask crypto node task = .ok progress) :
    Effect crypto node task progress.node progress.todo := by
  cases task with
  | addr each =>
      cases ran
      unfold handleAddr
      split
      · exact .skip _
      · next fresh => exact .addr each fresh
  | ico genesisHash icoState =>
      cases ran
      unfold handleIco
      split
      · next first => exact .ico genesisHash icoState first
      · exact .skip _
  | transaction tip each => exact effect_of_transaction ran
  | transactionBlock each =>
      cases ran
      unfold handleTransactionBlock
      split
      · exact .skip _
      next unknown =>
      split
      · exact .skip _
      next work =>
      split
      · exact .skip _
      · next notProposer => exact .transactionBlock each unknown work notProposer
  | proposerBlock each => exact effect_of_proposerBlock ran
  | newParent block =>
      cases ran
      unfold handleNewParent
      split
      · exact .skip _
      · next vec waiting => exact .release block vec waiting
  | orphan each => exact effect_of_accept (.orphan each) ran
  | announcedTransaction each | requestedTransaction each | announcedTransactionBlock each
  | requestedTransactionBlock each | announcedProposerBlock each
  | requestedProposerBlock each =>
      cases ran
      exact .skip _

private theorem failure_of_accept {each : ProposerBlock} {panicked : Panicked}
    (checks : Checks crypto node task each)
    (ran : acceptProposerBlock crypto node each = .error panicked) :
    Failure crypto node task panicked := by
  simp only [acceptProposerBlock, bind_eq_error, Node.attempt_eq_error,
    Node.attempt_eq_ok] at ran
  rcases ran with ⟨failed, unchanged⟩ | ⟨valid, signed, ran⟩
  · obtain ⟨panic, left⟩ := panicked
    cases unchanged
    exact .signature task each panic checks failed
  · cases valid with
    | false => cases ran
    | true =>
        simp only [Bool.true_eq_false, if_false, bind_eq_error] at ran
        rcases ran with failed | ⟨after, -, impossible⟩
        · exact .apply task each panicked checks signed failed
        · cases impossible

private theorem failure_of_transaction {tip : H256} {each : SignedTransaction}
    {panicked : Panicked}
    (ran : handleTransaction crypto node tip each = .error panicked) :
    Failure crypto node (.transaction tip each) panicked := by
  obtain ⟨panic, left⟩ := panicked
  unfold handleTransaction at ran
  split at ran
  · cases ran
  split at ran
  · cases ran
  simp only [bind_eq_error, Node.attempt_eq_error, Node.attempt_eq_ok, index_eq_error] at ran
  rcases ran with ⟨⟨missing, cause⟩, unchanged⟩ | ⟨currState, -, ran⟩
  · cases unchanged
    exact .transaction tip each panic (.inr ⟨cause, Finmap.lookup_eq_none.mp missing⟩)
  rcases ran with ⟨⟨-, cause⟩, unchanged⟩ | ⟨unspent, -, ran⟩
  · cases unchanged
    exact .transaction tip each panic (.inl cause)
  split at ran
  · cases ran
  simp only [bind_eq_error, Node.attempt_eq_error, Node.attempt_eq_ok, index_eq_error] at ran
  rcases ran with ⟨⟨-, cause⟩, unchanged⟩ | ⟨owned, -, ran⟩
  · cases unchanged
    exact .transaction tip each panic (.inl cause)
  split at ran
  · cases ran
  simp only [bind_eq_error, Node.attempt_eq_error, Node.attempt_eq_ok, index_eq_error] at ran
  rcases ran with ⟨⟨-, cause⟩, unchanged⟩ | ⟨sums, -, ran⟩
  · cases unchanged
    exact .transaction tip each panic (.inl cause)
  split at ran
  · cases ran
  · cases ran

theorem failure_of_run {panicked : Panicked}
    (ran : runTask crypto node task = .error panicked) :
    Failure crypto node task panicked := by
  cases task with
  | transaction tip each => exact failure_of_transaction ran
  | proposerBlock each =>
      rw [runTask, handleProposerBlock] at ran
      split at ran
      · cases ran
      next unknown =>
      split at ran
      · cases ran
      next work =>
      split at ran
      · cases ran
      · next parentKnown =>
          exact failure_of_accept (.received each unknown work (not_not.mp parentKnown)) ran
  | orphan each => exact failure_of_accept (.orphan each) ran
  | addr _ | ico _ _ | transactionBlock _ | newParent _ | announcedTransaction _
  | requestedTransaction _ | announcedTransactionBlock _ | requestedTransactionBlock _
  | announcedProposerBlock _ | requestedProposerBlock _ => cases ran

end Inversion

/-! ## Serving a message -/

section Serve

/-- A bound on the number of tasks that one task can still lead to. -/
def Task.weight : Task → Nat
  | .proposerBlock _ => 4
  | .orphan _ => 2
  | _ => 1

/-- The number of blocks in the orphan buffer. -/
def Node.waiting (node : Node) : Nat :=
  HashMap.weight List.length node.orphanHandler

def workload (node : Node) (todo : List Task) : Nat :=
  3 * node.waiting + (todo.map Task.weight).sum

theorem waiting_bufferOrphan (node : Node) (each : ProposerBlock) :
    (bufferOrphan node each).waiting = node.waiting + 1 := by
  rw [bufferOrphan]
  have written (bucket : List ProposerBlock) :=
    HashMap.weight_insert List.length node.orphanHandler each.header.proposerParent bucket
  split
  · next bucket found =>
      have total := written (bucket ++ [each])
      rw [HashMap.weightAt_of_lookup found, List.length_append, List.length_singleton] at total
      simp only [Node.waiting]
      omega
  · next missing =>
      have total := written [each]
      rw [HashMap.weightAt_of_notMem (Finmap.lookup_eq_none.mp missing),
        List.length_singleton] at total
      simp only [Node.waiting]
      omega

theorem waiting_of_apply {node after : Node} {each : ProposerBlock}
    (applied : applyProposerBlock crypto node each = .ok after) :
    after.waiting = node.waiting := by
  obtain ⟨_, _, _, accepts⟩ := accepts_of_apply applied
  rw [Node.waiting, accepts.orphanHandler, Node.waiting]

theorem one_le_weight (task : Task) : 1 ≤ task.weight := by
  cases task <;> simp [Task.weight]

/-- Every task reduces the work that is left. -/
theorem workload_of_effect {node after : Node} {task : Task} {todo : List Task}
    (effect : Effect crypto node task after todo) (rest : List Task) :
    workload after (todo ++ rest) < workload node (task :: rest) := by
  have positive := one_le_weight task
  simp only [workload, List.map_append, List.sum_append, List.map_cons, List.sum_cons]
  cases effect with
  | skip _ | addr _ _ | ico _ _ _ | transaction _ _ _ _ _ _ _ _ _ _ _
  | transactionBlock _ _ _ _ =>
      simp only [Node.waiting, List.map_nil, List.sum_nil]
      omega
  | buffer each _ _ _ =>
      have added := waiting_bufferOrphan node each
      simp only [List.map_nil, List.sum_nil, Task.weight]
      omega
  | accept _ each _ checks _ applied =>
      have same := waiting_of_apply applied
      have heavy : 2 ≤ task.weight := by
        cases checks <;> simp [Task.weight]
      simp only [List.map_cons, List.map_nil, List.sum_cons, List.sum_nil]
      have light : (Task.newParent each).weight = 1 := rfl
      omega
  | release block vec found =>
      have removed := HashMap.weight_erase List.length node.orphanHandler (block.hash crypto)
      rw [HashMap.weightAt_of_lookup found] at removed
      have weights : ((vec.map Task.orphan).map Task.weight).sum = 2 * vec.length := by
        rw [List.map_map]
        change (vec.map fun _ => 2).sum = _
        simp [Nat.mul_comm]
      simp only [Node.waiting, Task.weight] at *
      omega

/-- The maps and the messages sent when a worker has finished or panicked. -/
structure Outcome where
  node : Node
  sent : List Outgoing := []
  panic : Option Panic := none

variable (crypto) in
/-- Run all tasks, in the order in which the loops reach them. -/
def runTasks (node : Node) : List Task → Outcome
  | [] => { node }
  | task :: rest =>
      match _ran : runTask crypto node task with
      | .error panicked => { node := panicked.node, panic := some panicked.panic }
      | .ok progress =>
          let outcome := runTasks progress.node (progress.todo ++ rest)
          { outcome with sent := progress.sent ++ outcome.sent }
termination_by todo => workload node todo
decreasing_by exact workload_of_effect (effect_of_run _ran) rest

/-- When every task runs through and keeps an invariant of the maps and of what is
left to do, all tasks run through and the invariant holds at the end. -/
theorem runTasks_invariant (holds : Node → List Task → Prop)
    (step : ∀ node task rest, holds node (task :: rest) →
      ∃ progress, runTask crypto node task = .ok progress ∧
        holds progress.node (progress.todo ++ rest))
    (node : Node) (todo : List Task) (start : holds node todo) :
    (runTasks crypto node todo).panic = none ∧ holds (runTasks crypto node todo).node [] := by
  fun_induction runTasks crypto node todo with
  | case1 node => exact ⟨rfl, start⟩
  | case2 node task rest panicked ran =>
      obtain ⟨progress, completed, -⟩ := step node task rest start
      rw [ran] at completed
      cases completed
  | case3 node task rest progress ran outcome ih =>
      obtain ⟨completed, ranThrough, kept⟩ := step node task rest start
      rw [ran, Except.ok.injEq] at ranThrough
      subst ranThrough
      exact ih kept

variable (crypto) in
/-- One pass of the loop of `worker_loop`: serve a message. -/
def workerLoop (node : Node) (message : Message) : Outcome :=
  runTasks crypto node (message.tasks node)

variable (crypto) in
/-- Serve messages one after the other, up to the first panic. -/
def serveMessages (node : Node) : List Message → Outcome
  | [] => { node }
  | message :: messages =>
      let outcome := workerLoop crypto node message
      if outcome.panic.isSome then
        outcome
      else
        let rest := serveMessages outcome.node messages
        { rest with sent := outcome.sent ++ rest.sent }

variable (crypto) in
/-- The call `self.new_parent(block)`. -/
def newParent (node : Node) (block : ProposerBlock) : Outcome :=
  runTasks crypto node [.newParent block]

end Serve

end SimplifiedPrism
