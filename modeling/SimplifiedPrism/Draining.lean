import Mathlib.Algebra.BigOperators.Group.Finset.Basic
import Mathlib.Algebra.Order.BigOperators.Group.Finset
import Mathlib.Data.Prod.Lex
import Mathlib.Order.Lattice.Nat
import SimplifiedPrism.BoundedRuns
import SimplifiedPrism.Stoppages

/-!
# Gossip comes to rest

Messages lead to messages: an announcement to a request, a request to the thing
itself, and the thing to announcements of its own.  A node announces only what is
new to it, and a request for a missing parent leads downwards, so without new work
only a bounded number of messages can be delivered.
-/

namespace SimplifiedPrism

variable {crypto : Crypto}

/-- Finitely many hashes and addresses, and a depth that tells blocks from their parents. -/
structure Scope where
  blocks : Finset H256
  txBlocks : Finset H256
  transactions : Finset H256
  addrs : Finset H160
  depth : H256 → Nat

/-- Everything chosen is in the scope, and lies deeper than its parent. -/
structure Scope.Covers (crypto : Crypto) (scope : Scope) (origin : Origin) : Prop where
  block : ∀ block, origin.block block → block.hash crypto ∈ scope.blocks
  txBlock : ∀ txBlock, origin.txBlock txBlock → txBlock.hash crypto ∈ scope.txBlocks
  transaction : ∀ tx, origin.transaction tx → tx.hash crypto ∈ scope.transactions
  parent : ∀ block, origin.block block →
    scope.depth block.header.proposerParent < scope.depth (block.hash crypto)

theorem Scope.Covers.of_le {scope : Scope} {origin more : Origin}
    (covers : scope.Covers crypto more) (le : origin.Le more) : scope.Covers crypto origin where
  block := fun block chosen => covers.block block (le.block block chosen)
  txBlock := fun txBlock chosen => covers.txBlock txBlock (le.txBlock txBlock chosen)
  transaction := fun tx chosen => covers.transaction tx (le.transaction tx chosen)
  parent := fun block chosen => covers.parent block (le.block block chosen)

namespace Node

/-- How many blocks of the scope a node does not have. -/
def missingBlocks (scope : Scope) (node : Node) : Nat :=
  missing scope.blocks (· ∈ node.blockchain.blocks) + missing scope.txBlocks (· ∈ node.txBlockPool)

/-- How much else of the scope a node does not have. -/
def missingOthers (scope : Scope) (node : Node) : Nat :=
  missing scope.transactions (· ∈ node.txPool) + missing scope.addrs (· ∈ node.allAddr) +
    if node.globState = ∅ then 1 else 0

end Node

/-! ## The weight of a message -/

section Weight

variable (crypto : Crypto) (scope : Scope)

/-- A bound on the weight of the messages with which a task answers. -/
def Task.share : Task → Nat
  | .announcedTransaction _ | .announcedTransactionBlock _ => 2
  | .requestedTransaction _ | .requestedTransactionBlock _ => 1
  | .announcedProposerBlock each => 2 * scope.depth each + 2
  | .requestedProposerBlock each => 2 * scope.depth each + 1
  | .proposerBlock each => 2 * scope.depth (each.hash crypto)
  | .addr _ | .ico _ _ | .transaction _ _ | .transactionBlock _ | .newParent _ | .orphan _ => 0

/-- A bound on the number of messages that a message leads to when nothing in it is new. -/
def Message.weight : Message → Nat
  | .newAddr _ | .ico _ _ | .transactions _ | .transactionBlocks _ => 1
  | .newTransactionHashes hashVec | .newTransactionBlockHashes hashVec => 1 + 2 * hashVec.length
  | .getTransactions hashVec | .getTransactionBlocks hashVec => 1 + hashVec.length
  | .newProposerBlockHashes hashVec =>
      1 + (hashVec.map fun each => 2 * scope.depth each + 2).sum
  | .getProposerBlocks hashVec => 1 + (hashVec.map fun each => 2 * scope.depth each + 1).sum
  | .proposerBlocks proposerBlockVec =>
      1 + (proposerBlockVec.map fun each => 2 * scope.depth (each.hash crypto)).sum

theorem Message.weight_eq (message : Message) (node : Node) :
    message.weight crypto scope =
      1 + ((message.tasks node).map (Task.share crypto scope)).sum := by
  cases message <;>
    simp [Message.weight, Message.tasks, Task.share, Function.comp_def, Nat.mul_comm]

/-- All messages are answers, and together they have at most some weight. -/
def Answers (sent : List Outgoing) (weight : Nat) : Prop :=
  ∃ messages : List Message, sent = messages.map .write ∧
    (messages.map (Message.weight crypto scope)).sum ≤ weight

end Weight

section Answers

variable {scope : Scope} {sent more : List Outgoing} {weight other : Nat}

theorem Answers.nil (weight : Nat) : Answers crypto scope [] weight :=
  ⟨[], rfl, Nat.zero_le _⟩

theorem Answers.one {message : Message} (light : message.weight crypto scope ≤ weight) :
    Answers crypto scope [.write message] weight :=
  ⟨[message], rfl, by simpa using light⟩

theorem Answers.append (answers : Answers crypto scope sent weight)
    (moreAnswers : Answers crypto scope more other) :
    Answers crypto scope (sent ++ more) (weight + other) := by
  obtain ⟨messages, rfl, light⟩ := answers
  obtain ⟨others, rfl, lightToo⟩ := moreAnswers
  refine ⟨messages ++ others, List.map_append.symm, ?_⟩
  rw [List.map_append, List.sum_append]
  exact Nat.add_le_add light lightToo

end Answers

/-- The addresses in a message. -/
def Message.addrs (message : Message) : List H160 :=
  message.addrVec.getD []

theorem Message.mem_addrs {message : Message} {node : Node} {each : H160}
    (member : .addr each ∈ message.tasks node) : each ∈ message.addrs := by
  cases message with
  | newAddr addrVec =>
      obtain ⟨other, inside, same⟩ := List.mem_map.mp member
      cases same
      exact inside
  | ico _ _ | newTransactionHashes _ | getTransactions _ | transactions _
  | newTransactionBlockHashes _ | getTransactionBlocks _ | transactionBlocks _
  | newProposerBlockHashes _ | getProposerBlocks _ | proposerBlocks _ =>
      simp [Message.tasks] at member

/-! ## A task -/

/-- A task that does not belong to the release of orphans. -/
def Task.Plain : Task → Prop
  | .newParent _ | .orphan _ => False
  | _ => True

theorem Message.plain_tasks (message : Message) (node : Node) :
    ∀ task ∈ message.tasks node, task.Plain := by
  intro task member
  cases message with
  | ico _ _ =>
      rw [Message.tasks, List.mem_singleton] at member
      subst member
      trivial
  | newAddr _ | newTransactionHashes _ | getTransactions _ | transactions _
  | newTransactionBlockHashes _ | getTransactionBlocks _ | transactionBlocks _
  | newProposerBlockHashes _ | getProposerBlocks _ | proposerBlocks _ =>
      obtain ⟨each, -, rfl⟩ := List.mem_map.mp member
      trivial

/-- What a node gains: a block, or something else, or nothing, and then it at most answers. -/
inductive Gains (crypto : Crypto) (scope : Scope) (node after : Node) (sent : List Outgoing)
    (weight : Nat) : Prop
  | block (fewer : after.missingBlocks scope < node.missingBlocks scope)
  | other (same : after.missingBlocks scope = node.missingBlocks scope)
      (fewer : after.missingOthers scope < node.missingOthers scope)
  | nothing (same : after.missingBlocks scope = node.missingBlocks scope)
      (sameToo : after.missingOthers scope = node.missingOthers scope)
      (answers : Answers crypto scope sent weight)

theorem Gains.trans {scope : Scope} {node middle after : Node} {sent more : List Outgoing}
    {weight other : Nat} (gains : Gains crypto scope node middle sent weight)
    (later : Gains crypto scope middle after more other) :
    Gains crypto scope node after (sent ++ more) (weight + other) := by
  cases gains with
  | block fewer =>
      cases later with
      | block fewerToo => exact .block (fewerToo.trans fewer)
      | other same _ | nothing same _ _ => exact .block (same.trans_lt fewer)
  | other same fewer =>
      cases later with
      | block fewerToo => exact .block (fewerToo.trans_eq same)
      | other sameToo fewerToo => exact .other (sameToo.trans same) (fewerToo.trans fewer)
      | nothing sameToo rest _ => exact .other (sameToo.trans same) (rest.trans_lt fewer)
  | nothing same rest answers =>
      cases later with
      | block fewer => exact .block (fewer.trans_eq same)
      | other sameToo fewer => exact .other (sameToo.trans same) (fewer.trans_eq rest)
      | nothing sameToo restToo answersToo =>
          exact .nothing (sameToo.trans same) (restToo.trans rest) (answers.append answersToo)

/-- What a plain task comes to: only with a new block it leads to further tasks. -/
inductive TaskDone (crypto : Crypto) (scope : Scope) (node : Node) (task : Task)
    (progress : Progress) : Prop
  | block (fewer : progress.node.missingBlocks scope < node.missingBlocks scope)
  | last (done : progress.todo = [])
      (gains : Gains crypto scope node progress.node progress.sent (task.share crypto scope))

/-- A plain task that leaves the node alone and answers. -/
theorem TaskDone.answer {scope : Scope} {node : Node} {task : Task} {sent : List Outgoing}
    (answers : Answers crypto scope sent (task.share crypto scope)) :
    TaskDone crypto scope node task { node, sent } :=
  .last rfl (.nothing rfl rfl answers)

/-- Between the tasks for a message nothing is met that is out of scope. -/
structure Draining (crypto : Crypto) (origin : Origin) (scope : Scope) (node : Node)
    (todo : List Task) : Prop extends Passing crypto origin node todo where
  allAddr : ∀ each ∈ node.allAddr, each ∈ scope.addrs
  addrs : ∀ each, .addr each ∈ todo → each ∈ scope.addrs

section Tasks

variable {origin : Origin} {scope : Scope} {node after : Node} {task : Task}
variable {todo rest : List Task} {progress : Progress} {outgoing : Outgoing}

theorem missingBlocks_of_accepts {block : ProposerBlock} {parentLedger ledger : Ledger}
    {txs : List SignedTransaction}
    (accepts : Accepts crypto node block parentLedger txs ledger after) :
    after.missingBlocks scope ≤ node.missingBlocks scope ∧
      (block.hash crypto ∈ scope.blocks → block.hash crypto ∉ node.blockchain.blocks →
        after.missingBlocks scope < node.missingBlocks scope) := by
  have kept : ∀ each ∈ node.blockchain.blocks, each ∈ after.blockchain.blocks := by
    rw [accepts.blocks]
    exact fun each known => Finmap.mem_insert.mpr (.inr known)
  simp only [Node.missingBlocks, accepts.txBlockPool]
  constructor
  · exact Nat.add_le_add_right (missing_le kept) _
  · intro inScope unknown
    exact Nat.add_lt_add_right (missing_lt kept inScope unknown accepts.hash_mem) _

theorem Effect.missingBlocks_le (effect : Effect crypto node task after todo) :
    after.missingBlocks scope ≤ node.missingBlocks scope := by
  cases effect with
  | transactionBlock each _ _ _ =>
      apply Nat.add_le_add_left
      exact missing_le fun _ known => Finmap.mem_insert.mpr (.inr known)
  | buffer each _ _ _ => rw [bufferOrphan_eq]; rfl
  | accept _ _ _ _ _ applied =>
      obtain ⟨_, _, _, accepts⟩ := accepts_of_apply applied
      exact (missingBlocks_of_accepts accepts).1
  | skip _ | addr _ _ | ico _ _ _ | transaction _ _ _ _ _ _ _ _ _ _ _ | release _ _ _ => rfl

theorem missingBlocks_runTasks (node : Node) (todo : List Task)
    (completed : (runTasks crypto node todo).panic = none) :
    (runTasks crypto node todo).node.missingBlocks scope ≤ node.missingBlocks scope := by
  fun_induction runTasks crypto node todo with
  | case1 node => exact Nat.le_refl _
  | case2 node task rest panicked ran => cases completed
  | case3 node task rest progress ran outcome ih =>
      exact (ih completed).trans (effect_of_run ran).missingBlocks_le

private theorem done_of_transaction {tip : H256} {each : SignedTransaction}
    (covers : scope.Covers crypto origin) (inside : origin.transaction each)
    (ran : handleTransaction crypto node tip each = .ok progress) :
    TaskDone crypto scope node (.transaction tip each) progress := by
  unfold handleTransaction at ran
  split at ran
  · cases ran
    exact .answer (.nil _)
  next fresh =>
  split at ran
  · cases ran
    exact .answer (.nil _)
  simp only [bind_eq_ok] at ran
  obtain ⟨_, -, _, -, ran⟩ := ran
  split at ran
  · cases ran
    exact .answer (.nil _)
  simp only [bind_eq_ok] at ran
  obtain ⟨_, -, ran⟩ := ran
  split at ran
  · cases ran
    exact .answer (.nil _)
  simp only [bind_eq_ok] at ran
  obtain ⟨_, -, ran⟩ := ran
  split at ran
  · cases ran
    exact .answer (.nil _)
  cases ran
  refine .last rfl (.other rfl ?_)
  have fewer : missing scope.transactions (· ∈ node.txPool.insert (each.hash crypto) each) <
      missing scope.transactions (· ∈ node.txPool) :=
    missing_lt (fun _ known => Finmap.mem_insert.mpr (.inr known)) (covers.transaction each inside)
      fresh (Finmap.mem_insert.mpr (.inl rfl))
  simp only [Node.missingOthers]
  omega

private theorem done_of_transactionBlock {each : TXBlock} (covers : scope.Covers crypto origin)
    (inside : origin.txBlock each) :
    TaskDone crypto scope node (.transactionBlock each)
      (handleTransactionBlock crypto node each) := by
  unfold handleTransactionBlock
  split
  · exact .answer (.nil _)
  next unknown =>
  split
  · exact .answer (.nil _)
  split
  · exact .answer (.nil _)
  apply TaskDone.block
  apply Nat.add_lt_add_left
  exact missing_lt (fun _ known => Finmap.mem_insert.mpr (.inr known)) (covers.txBlock each inside)
    unknown (Finmap.mem_insert.mpr (.inl rfl))

private theorem done_of_proposerBlock {each : ProposerBlock} (covers : scope.Covers crypto origin)
    (formed : node.WellFormed crypto) (inside : origin.Known crypto each)
    (ran : handleProposerBlock crypto node each = .ok progress) :
    TaskDone crypto scope node (.proposerBlock each) progress := by
  unfold handleProposerBlock at ran
  split at ran
  · cases ran
    exact .answer (.nil _)
  next unknown =>
  have chosen : origin.block each := by
    apply inside.resolve_left
    rintro rfl
    exact unknown formed.chain.genesis
  split at ran
  · cases ran
    exact .answer (.nil _)
  split at ran
  · cases ran
    rw [bufferOrphan_eq]
    refine .last rfl (.nothing rfl rfl (.one ?_))
    -- the parent lies less deep
    have deeper := covers.parent each chosen
    simp only [Message.weight, Task.share, List.map_cons, List.map_nil, List.sum_cons,
      List.sum_nil]
    omega
  · simp only [acceptProposerBlock, bind_eq_ok] at ran
    obtain ⟨valid, -, ran⟩ := ran
    split at ran
    · cases ran
      exact .answer (.nil _)
    · simp only [bind_eq_ok] at ran
      obtain ⟨after, applied, ran⟩ := ran
      cases ran
      obtain ⟨_, _, _, accepts⟩ := accepts_of_apply applied
      exact .block ((missingBlocks_of_accepts accepts).2 (covers.block each chosen) unknown)

/-- A plain task finds something new or at most answers. -/
theorem Draining.done (draining : Draining crypto origin scope node (task :: rest))
    (covers : scope.Covers crypto origin) (plain : task.Plain)
    (ran : runTask crypto node task = .ok progress) : TaskDone crypto scope node task progress := by
  have inside := draining.inside task List.mem_cons_self
  cases task with
  | addr each =>
      cases ran
      unfold handleAddr
      split
      · exact .answer (.nil _)
      · next fresh =>
          refine .last rfl (.other rfl ?_)
          have fewer : missing scope.addrs (· ∈ node.allAddr ++ [each]) <
              missing scope.addrs (· ∈ node.allAddr) :=
            missing_lt (fun _ known => List.mem_append_left _ known)
              (draining.addrs each List.mem_cons_self) fresh (by simp)
          simp only [Node.missingOthers]
          omega
  | ico genesisHash icoState =>
      cases ran
      unfold handleIco
      split
      · next first =>
          refine .last rfl (.other rfl ?_)
          have filled : node.globState.insert genesisHash icoState ≠ ∅ :=
            fun empty => Finmap.notMem_empty (a := genesisHash)
              (empty ▸ Finmap.mem_insert.mpr (.inl rfl))
          simp only [Node.missingOthers, if_pos first, if_neg filled]
          omega
      · exact .answer (.nil _)
  | announcedTransaction each | announcedTransactionBlock each =>
      cases ran
      refine .answer ?_
      split
      · exact .nil _
      · exact .one (Nat.le_refl _)
  | announcedProposerBlock each =>
      cases ran
      refine .answer ?_
      split
      · exact .nil _
      · exact .one (by simp [Message.weight, Task.share]; omega)
  | requestedTransaction each =>
      cases ran
      refine .answer ?_
      cases node.txPool.lookup each with
      | none => exact .nil _
      | some tx => exact .one (Nat.le_refl _)
  | requestedTransactionBlock each =>
      cases ran
      refine .answer ?_
      cases node.txBlockPool.lookup each with
      | none => exact .nil _
      | some block => exact .one (Nat.le_refl _)
  | requestedProposerBlock each =>
      cases ran
      refine .answer ?_
      cases found : node.blockchain.blocks.lookup each with
      | none => exact .nil _
      | some block =>
          have stored := draining.formed.chain.stored each block found
          refine .one ?_
          simp only [Message.weight, Task.share, List.map_cons, List.map_nil, List.sum_cons,
            List.sum_nil, stored]
          omega
  | transaction tip each => exact done_of_transaction covers inside ran
  | transactionBlock each =>
      cases ran
      exact done_of_transactionBlock covers inside
  | proposerBlock each => exact done_of_proposerBlock covers draining.formed inside ran
  | newParent _ | orphan _ => exact plain.elim

theorem Draining.step (draining : Draining crypto origin scope node (task :: rest))
    (ran : runTask crypto node task = .ok progress) :
    Draining crypto origin scope progress.node (progress.todo ++ rest) := by
  have effect := effect_of_run ran
  generalize progress.node = after, progress.todo = todo at effect ⊢
  have kept : (∀ each ∈ after.allAddr, each ∈ scope.addrs) ∧ ∀ each, .addr each ∉ todo := by
    cases effect with
    | addr each _ =>
        refine ⟨fun other member => ?_, by simp⟩
        rcases List.mem_append.mp member with old | new
        · exact draining.allAddr other old
        · rw [List.mem_singleton.mp new]
          exact draining.addrs each List.mem_cons_self
    | buffer each _ _ _ =>
        rw [bufferOrphan_eq]
        exact ⟨draining.allAddr, by simp⟩
    | accept _ each _ _ _ applied =>
        obtain ⟨_, _, _, accepts⟩ := accepts_of_apply applied
        rw [accepts.allAddr]
        exact ⟨draining.allAddr, by simp⟩
    | skip _ | ico _ _ _ | transaction _ _ _ _ _ _ _ _ _ _ _ | transactionBlock _ _ _ _
    | release _ _ _ => exact ⟨draining.allAddr, by simp⟩
  refine ⟨draining.toPassing.step effect, kept.1, fun each member => ?_⟩
  rcases List.mem_append.mp member with new | old
  · exact absurd new (kept.2 each)
  · exact draining.addrs each (List.mem_cons_of_mem _ old)

theorem Draining.runTasks (draining : Draining crypto origin scope node todo)
    (covers : scope.Covers crypto origin) (plain : ∀ task ∈ todo, task.Plain)
    (completed : (runTasks crypto node todo).panic = none) :
    Gains crypto scope node (SimplifiedPrism.runTasks crypto node todo).node
      (SimplifiedPrism.runTasks crypto node todo).sent
      (todo.map (Task.share crypto scope)).sum := by
  fun_induction SimplifiedPrism.runTasks crypto node todo with
  | case1 node => exact .nothing rfl rfl (.nil _)
  | case2 node task rest panicked ran => cases completed
  | case3 node task rest progress ran outcome ih =>
      have next := draining.step ran
      rw [List.map_cons, List.sum_cons]
      cases draining.done covers (plain task List.mem_cons_self) ran with
      | block fewer => exact .block ((missingBlocks_runTasks _ _ completed).trans_lt fewer)
      | last done gains =>
          have plainRest : ∀ task ∈ progress.todo ++ rest, task.Plain := by
            rw [done]
            exact fun task member => plain task (List.mem_cons_of_mem _ member)
          have weight : (rest.map (Task.share crypto scope)).sum =
              ((progress.todo ++ rest).map (Task.share crypto scope)).sum := by
            rw [done, List.nil_append]
          rw [weight]
          exact gains.trans (ih next plainRest completed)

theorem Draining.sends (draining : Draining crypto origin scope node todo)
    (completed : (SimplifiedPrism.runTasks crypto node todo).panic = none) :
    Draining crypto origin scope (SimplifiedPrism.runTasks crypto node todo).node [] ∧
      ∀ outgoing ∈ (SimplifiedPrism.runTasks crypto node todo).sent,
        ∀ each ∈ outgoing.message.addrs, each ∈ scope.addrs := by
  apply runTasks_keeps (Draining crypto origin scope)
    (fun outgoing => ∀ each ∈ outgoing.message.addrs, each ∈ scope.addrs) ?_ node todo draining
    completed
  intro node task rest progress draining ran
  have next := draining.step ran
  refine ⟨next, fun outgoing sent => ?_⟩
  cases sends_of_run ran sent with
  | addr _ _ => exact next.allAddr
  | ico _ _ | getTransaction _ _ | giveTransaction _ _ _ | relayTransaction _ _ _
  | getTransactionBlock _ _ | giveTransactionBlock _ _ _ | relayTransactionBlock _ _
  | getProposerBlock _ _ | giveProposerBlock _ _ _ | getParent _ _
  | relayProposerBlock _ _ _ _ => simp [Outgoing.message, Message.addrs, Message.addrVec]

end Tasks

/-! ## A network -/

namespace Network

variable {Peer : Type*} {graph : Graph Peer} {origin : Origin} {scope : Scope}
variable {before after : Network Peer}

/-- What nodes have and pass on is in the scope. -/
structure InScope (crypto : Crypto) (origin : Origin) (scope : Scope) (network : Network Peer) :
    Prop where
  within : network.Within crypto origin
  allAddr : ∀ peer, ∀ each ∈ (network.nodes peer).allAddr, each ∈ scope.addrs
  addrs : ∀ packet ∈ network.packets, ∀ each ∈ packet.message.addrs, each ∈ scope.addrs

/-- What the nodes miss, and the weight of the messages under way. -/
def measure [Fintype Peer] (crypto : Crypto) (scope : Scope) (network : Network Peer) :
    Nat ×ₗ Nat ×ₗ Nat :=
  toLex (∑ peer, (network.nodes peer).missingBlocks scope,
    toLex (∑ peer, (network.nodes peer).missingOthers scope,
      (network.packets.map fun packet => packet.message.weight crypto scope).sum))

theorem InScope.draining (inScope : before.InScope crypto origin scope) {packet : Packet Peer}
    (underWay : packet ∈ before.packets) :
    Draining crypto origin scope (before.nodes packet.dest)
      (packet.message.tasks (before.nodes packet.dest)) :=
  ⟨.receive (inScope.within.nodes _) (inScope.within.formed _)
    (inScope.within.packets packet underWay), inScope.allAddr _,
    fun each member => inScope.addrs packet underWay each (Message.mem_addrs member)⟩

variable [DecidableEq Peer]

theorem InScope.deliver (inScope : before.InScope crypto origin scope) {packet : Packet Peer}
    (stepped : before.step crypto graph (.deliver packet) = some after) :
    after.InScope crypto origin scope := by
  have made : (before.made (.deliver packet) after).Le origin :=
    ⟨fun _ made => made.1.elim, fun _ made => made.1.elim, fun _ made => made.1.elim⟩
  obtain ⟨outcome, performs, completed, -, nodes, packets⟩ := step_cases stepped
  simp only [perform, Option.ite_none_right_eq_some, Option.some.injEq] at performs
  obtain ⟨underWay, rfl⟩ := performs
  obtain ⟨draining, addrs⟩ := (inScope.draining underWay).sends completed
  refine ⟨inScope.within.step made stepped, fun peer => ?_, fun other member => ?_⟩
  · rw [nodes]
    by_cases own : peer = packet.dest
    · subst own
      rw [Event.actor, Function.update_self]
      exact draining.allAddr
    · rw [Event.actor, Function.update_of_ne own]
      exact inScope.allAddr peer
  · rw [packets, List.mem_append, List.mem_flatMap] at member
    rcases member with old | ⟨outgoing, sent, routed⟩
    · exact inScope.addrs other (mem_of_mem_remaining old)
    · obtain ⟨-, ⟨rfl, -⟩ | ⟨rfl, -⟩⟩ := mem_route.mp routed
      · exact addrs _ sent
      · exact addrs _ sent

omit [DecidableEq Peer] in
theorem weight_of_route (messages : List Message) (packet : Packet Peer) :
    ((messages.map .write).flatMap (route graph (.deliver packet))).map
        (fun packet => packet.message.weight crypto scope) =
      messages.map (Message.weight crypto scope) := by
  induction messages with
  | nil => rfl
  | cons message messages ih =>
      rw [List.map_cons, List.flatMap_cons, List.map_append, ih]
      rfl

theorem InScope.measure_lt [Fintype Peer] (inScope : before.InScope crypto origin scope)
    (covers : scope.Covers crypto origin) {packet : Packet Peer}
    (stepped : before.step crypto graph (.deliver packet) = some after) :
    after.measure crypto scope < before.measure crypto scope := by
  obtain ⟨outcome, performs, completed, -, nodes, packets⟩ := step_cases stepped
  simp only [perform, Option.ite_none_right_eq_some, Option.some.injEq] at performs
  obtain ⟨underWay, rfl⟩ := performs
  have gains : Gains crypto scope (before.nodes packet.dest)
      (workerLoop crypto (before.nodes packet.dest) packet.message).node
      (workerLoop crypto (before.nodes packet.dest) packet.message).sent _ :=
    (inScope.draining underWay).runTasks covers (packet.message.plain_tasks _) completed
  simp only [measure, nodes, Prod.Lex.toLex_lt_toLex]
  cases gains with
  | block fewer => exact .inl (sum_update_lt fewer)
  | other same fewer => exact .inr ⟨sum_update_eq same, .inl (sum_update_lt fewer)⟩
  | nothing same sameToo answers =>
      refine .inr ⟨sum_update_eq same, .inr ⟨sum_update_eq sameToo, ?_⟩⟩
      obtain ⟨messages, replies, light⟩ := answers
      have removed := (List.perm_cons_erase underWay).map
        fun packet => packet.message.weight crypto scope
      have total := removed.sum_eq
      rw [List.map_cons, List.sum_cons, Message.weight_eq crypto scope _ (before.nodes packet.dest)]
        at total
      rw [packets, List.map_append, List.sum_append, remaining, total, replies, weight_of_route]
      omega

end Network

/-! ## Runs -/

section Runs

variable {Peer : Type*} [DecidableEq Peer] {graph : Graph Peer}

/-- The hashes that a run has brought up to its end, and how late a block was made. -/
noncomputable def Scope.ofRun (run : Run (Network.step crypto graph) (Network.Initial crypto))
    (addrs : Finset H160) : Scope where
  blocks := (Finset.range run.length).biUnion fun index =>
    ((run.states (index + 1)).nodes (run.actions index).actor).blockchain.blocks.keys
  txBlocks := (Finset.range run.length).biUnion fun index =>
    ((run.states (index + 1)).nodes (run.actions index).actor).txBlockPool.keys
  transactions := (Finset.range run.length).biUnion fun index =>
    ((run.states (index + 1)).nodes (run.actions index).actor).txPool.keys
  addrs := addrs
  depth hash := sInf {index | index ≤ run.length ∧
    ∃ block, (madeBefore run index).block block ∧ block.hash crypto = hash}

variable {run : Run (Network.step crypto graph) (Network.Initial crypto)}

theorem depth_parent_lt (noCollision : NoCollision crypto (madeBefore run run.length))
    (addrs : Finset H160) {block : ProposerBlock}
    (made : (madeBefore run run.length).block block) :
    (Scope.ofRun run addrs).depth block.header.proposerParent <
      (Scope.ofRun run addrs).depth (block.hash crypto) := by
  have first : (Scope.ofRun run addrs).depth (block.hash crypto) ∈
      {index | index ≤ run.length ∧
        ∃ other, (madeBefore run index).block other ∧ other.hash crypto = block.hash crypto} :=
    Nat.sInf_mem ⟨run.length, le_refl _, block, made, rfl⟩
  obtain ⟨bound, other, ⟨earlier, before, madeThen⟩, same⟩ := first
  have sameBlock : other = block :=
    noCollision.block other block ⟨earlier, by omega, madeThen⟩ made same
  subst sameBlock
  rcases parent_of_made (by omega) madeThen with genesis | ⟨parent, parentMade, hash⟩
  · have never : (Scope.ofRun run addrs).depth (genesisHash crypto) = 0 := by
      apply Nat.sInf_eq_zero.mpr
      right
      rw [Set.eq_empty_iff_forall_notMem]
      rintro index ⟨inRun, earlierBlock, earlierMade, isGenesis⟩
      exact noCollision.genesis earlierBlock
        ((madeBefore_le run inRun).block earlierBlock earlierMade) isGenesis
    rw [genesis, never]
    omega
  · have atMost : (Scope.ofRun run addrs).depth other.header.proposerParent ≤ earlier :=
      Nat.sInf_le ⟨by omega, parent, parentMade, hash⟩
    omega

theorem covers_of_run (noCollision : NoCollision crypto (madeBefore run run.length))
    (addrs : Finset H160) :
    (Scope.ofRun run addrs).Covers crypto (madeBefore run run.length) where
  block := by
    rintro block ⟨index, bound, -, hash, found, -⟩
    have formed := (within_of_run run (index + 1) bound).formed (run.actions index).actor
    rw [formed.chain.stored hash block found]
    exact Finset.mem_biUnion.mpr ⟨index, Finset.mem_range.mpr bound,
      Finmap.mem_keys.mpr (Finmap.mem_of_lookup_eq_some found)⟩
  txBlock := by
    rintro txBlock ⟨index, bound, -, hash, found, -⟩
    have formed := (within_of_run run (index + 1) bound).formed (run.actions index).actor
    rw [formed.pooled hash txBlock found]
    exact Finset.mem_biUnion.mpr ⟨index, Finset.mem_range.mpr bound,
      Finmap.mem_keys.mpr (Finmap.mem_of_lookup_eq_some found)⟩
  transaction := by
    rintro tx ⟨index, bound, -, hash, found, -⟩
    have within := (within_of_run run (index + 1) bound).nodes (run.actions index).actor
    rw [within.keyed hash tx found]
    exact Finset.mem_biUnion.mpr ⟨index, Finset.mem_range.mpr bound,
      Finmap.mem_keys.mpr (Finmap.mem_of_lookup_eq_some found)⟩
  parent := fun _ made => depth_parent_lt noCollision addrs made

/-- The addresses that are known or under way. -/
def Network.addrs [Fintype Peer] (network : Network Peer) : Finset H160 :=
  (Finset.univ.biUnion fun peer => (network.nodes peer).allAddr.toFinset) ∪
    (network.packets.flatMap fun packet => packet.message.addrs).toFinset

theorem inScope_of_run [Fintype Peer] {index : Nat} (bound : index ≤ run.length) :
    (run.states index).InScope crypto (madeBefore run run.length)
      (.ofRun run (run.states index).addrs) where
  within := (within_of_run run index bound).mono (madeBefore_le run bound)
  allAddr := fun peer _ member => Finset.mem_union_left _
    (Finset.mem_biUnion.mpr ⟨peer, Finset.mem_univ peer, List.mem_toFinset.mpr member⟩)
  addrs := fun packet member _ inside => Finset.mem_union_right _
    (List.mem_toFinset.mpr (List.mem_flatMap.mpr ⟨packet, member, inside⟩))

theorem deliver_keeps {origin : Origin} {offer : Option Ledger} {scope : Scope}
    (noCollision : NoCollision crypto origin) {before after : Network Peer} {packet : Packet Peer}
    (inScope : before.InScope crypto origin scope) (anchored : before.Anchored crypto offer)
    (stepped : before.step crypto graph (.deliver packet) = some after) :
    after.InScope crypto origin scope ∧ after.Anchored crypto offer := by
  have next := inScope.deliver stepped
  have kept := anchored.step inScope.within next.within noCollision (by simp [Network.offered])
    stepped
  rw [Network.offered, Option.or_none] at kept
  exact ⟨next, kept⟩

theorem panic_of_stuck {network : Network Peer} {packet : Packet Peer}
    (underWay : packet ∈ network.packets)
    (stuck : network.step crypto graph (.deliver packet) = none) :
    ∃ panic, (workerLoop crypto (network.nodes packet.dest) packet.message).panic = some panic := by
  rw [← Option.isSome_iff_exists, Option.isSome_iff_ne_none]
  intro completed
  simp [Network.step, Network.perform, underWay, completed] at stuck

variable (graph) in
/-- From a network in scope only a bounded number of messages can be delivered. -/
theorem exists_bound_of_scope [Fintype Peer] {origin : Origin} {offer : Option Ledger}
    {scope : Scope} (noCollision : NoCollision crypto origin) (covers : scope.Covers crypto origin)
    {network : Network Peer} (inScope : network.InScope crypto origin scope)
    (anchored : network.Anchored crypto offer) :
    ∃ bound, ∀ (packets : List (Packet Peer)) (final : Network Peer),
      runActions (Network.step crypto graph) network (packets.map .deliver) = some final →
        packets.length ≤ bound ∧ final.InScope crypto origin scope ∧
          final.Anchored crypto offer := by
  let holds (network : Network Peer) : Prop :=
    network.InScope crypto origin scope ∧ network.Anchored crypto offer
  let delivery (event : Network.Event Peer) : Prop := ∃ packet, event = .deliver packet
  have start : holds network := ⟨inScope, anchored⟩
  have deliveries (packets : List (Packet Peer)) :
      ∀ event ∈ packets.map Network.Event.deliver, delivery event := by
    intro event member
    obtain ⟨packet, -, rfl⟩ := List.mem_map.mp member
    exact ⟨packet, rfl⟩
  have bounded : ∃ most, ∀ events : List (Network.Event Peer), (∀ event ∈ events, delivery event) →
      (runActions (Network.step crypto graph) network events).isSome → events.length ≤ most := by
    apply exists_bound_of_descent (Network.measure crypto scope)
      (fun network => network.packets.map .deliver) ?_ ?_ start
    · rintro network event after ⟨packet, rfl⟩ stepped
      obtain ⟨outcome, performs, -⟩ := Network.step_cases stepped
      simp only [Network.perform, Option.ite_none_right_eq_some] at performs
      exact List.mem_map_of_mem performs.1
    · rintro before event after ⟨inScope, anchored⟩ ⟨packet, rfl⟩ stepped
      exact ⟨deliver_keeps noCollision inScope anchored stepped,
        inScope.measure_lt covers stepped⟩
  obtain ⟨most, within⟩ := bounded
  refine ⟨most, fun packets final completed => ⟨?_, ?_⟩⟩
  · have short := within (packets.map .deliver) (deliveries packets)
      (Option.isSome_iff_exists.mpr ⟨final, completed⟩)
    rwa [List.length_map] at short
  · apply runActions_preserves ?_ start (deliveries packets) completed
    rintro before event after ⟨inScope, anchored⟩ ⟨packet, rfl⟩ stepped
    exact deliver_keeps noCollision inScope anchored stepped

/-- From any state of a run only a bounded number of messages can be delivered without
new work.  A message that then is still under way makes its receiver panic: the
offering has not reached it, or a transaction block is missing there. -/
theorem gossip_rests_of_run [Fintype Peer]
    (run : Run (Network.step crypto graph) (Network.Initial crypto))
    (single : OneOffering run) (noCollision : NoCollision crypto (madeBefore run run.length)) :
    ∀ index ≤ run.length, ∃ bound, ∀ (packets : List (Packet Peer)) (final : Network Peer),
      runActions (Network.step crypto graph) (run.states index) (packets.map .deliver) =
          some final →
        packets.length ≤ bound ∧
          ((∀ packet, final.step crypto graph (.deliver packet) = none) →
            ∀ packet ∈ final.packets, ∃ panic,
              (workerLoop crypto (final.nodes packet.dest) packet.message).panic = some panic ∧
              (final.nodes packet.dest).Stops packet.message.givenBlocks panic) := by
  intro index bound
  obtain ⟨most, within⟩ := exists_bound_of_scope graph noCollision
    (covers_of_run noCollision (run.states index).addrs) (inScope_of_run bound)
    (anchored_of_run run single noCollision index bound)
  refine ⟨most, fun packets final completed => ?_⟩
  obtain ⟨short, inScope, anchored⟩ := within packets final completed
  refine ⟨short, fun rests packet underWay => ?_⟩
  obtain ⟨panic, panics⟩ := panic_of_stuck underWay (rests packet)
  exact ⟨panic, panics, stops_of_workerLoop (inScope.within.nodes _) (inScope.within.formed _)
    (anchored.nodes _) noCollision (shaped_madeBefore (Nat.le_refl _))
    (inScope.within.packets packet underWay) (anchored.packets packet underWay) panics⟩

end Runs

/-! ## A hash at the threshold -/

/-- A stand-in under which a hash can be the proposer threshold of genesis. -/
def Crypto.padded : Crypto :=
  { Crypto.sample with sha256 := .fill 255 }

def borderBlock : TXBlock where
  header :=
    { Header.sample 0x0FFF (genesisHash Crypto.padded) with
      merkleTransaction := fakeRoot Crypto.padded
      merkleProposer := fakeRoot Crypto.padded }
  content := ⟨[]⟩

def borderProposal : ProposerBlock where
  header :=
    { Header.sample 2 (genesisHash Crypto.padded) with
      merkleTransaction := fakeRoot Crypto.padded
      merkleProposer := genesisProposerDifficulty }
  content := ⟨[genesisProposerDifficulty]⟩

/-- A node mines a transaction block whose hash is the proposer threshold, and refers to it
from a proposer block. -/
def borderRun : Run (Network.step Crypto.padded Graph.pair) (Network.Initial Crypto.padded) :=
  Run.ofActions ⟨fun _ => Node.initial Crypto.padded [] ∅, []⟩ ⟨fun _ => rfl, rfl⟩
    [.ico false, .deliver ⟨false, true, .ico (genesisHash Crypto.padded) (icoState [])⟩,
      .deliver ⟨true, false, .ico (genesisHash Crypto.padded) (icoState [])⟩,
      .mineAttacker false ⟨[], [], 0x0FFF, 0⟩,
      .mine false ⟨[], [genesisProposerDifficulty], 2, 0⟩]
    (by decide +kernel)

theorem noCollision_borderRun :
    NoCollision Crypto.padded (madeBefore borderRun borderRun.length) := by
  have made : (∀ block, (madeBefore borderRun borderRun.length).block block →
      block ∈ [borderProposal]) ∧
      ∀ txBlock, (madeBefore borderRun borderRun.length).txBlock txBlock →
        txBlock ∈ [borderBlock] := by
    apply madeBefore_of_entries borderRun
    · change ∀ index < 5, _
      decide +kernel
    · change ∀ index < 5, _
      decide +kernel
  exact .of_lists made.1 made.2 (by decide +kernel) (by decide +kernel) (by decide +kernel)
    (by decide +kernel)

/-- The second node asks for both blocks and drops the transaction block. -/
def borderPackets : List (Packet Bool) :=
  let tell (source : Bool) (message : Message) : Packet Bool := ⟨source, !source, message⟩
  [tell false (.newTransactionBlockHashes [genesisProposerDifficulty]),
    tell false (.newProposerBlockHashes [borderProposal.hash Crypto.padded]),
    tell true (.getTransactionBlocks [genesisProposerDifficulty]),
    tell true (.getProposerBlocks [borderProposal.hash Crypto.padded]),
    tell false (.transactionBlocks [borderBlock])]

/-- The packet that is left. -/
def borderPacket : Packet Bool :=
  ⟨false, true, .proposerBlocks [borderProposal]⟩

theorem gossip_rests_borderRun :
    (∃ bound, ∀ (packets : List (Packet Bool)) (final : Network Bool),
      runActions (Network.step Crypto.padded Graph.pair) (borderRun.states 5)
          (packets.map .deliver) = some final → packets.length ≤ bound) ∧
    ∃ final, runActions (Network.step Crypto.padded Graph.pair) (borderRun.states 5)
        (borderPackets.map .deliver) = some final ∧
      final.packets = [borderPacket] ∧
      ∃ panic, (workerLoop Crypto.padded (final.nodes true)
          (.proposerBlocks [borderProposal])).panic = some panic ∧
        (final.nodes true).Stops [borderProposal] panic := by
  have single : OneOffering borderRun := by
    change ∀ index < 5, _
    decide +kernel
  obtain ⟨bound, rests⟩ :=
    gossip_rests_of_run borderRun single noCollision_borderRun 5 (by decide)
  refine ⟨⟨bound, fun packets final completed => (rests packets final completed).1⟩, ?_⟩
  have remains : (runActions (Network.step Crypto.padded Graph.pair) (borderRun.states 5)
      (borderPackets.map .deliver)).any (fun final =>
        final.packets = [borderPacket] ∧
          final.step Crypto.padded Graph.pair (.deliver borderPacket) = none) = true := by
    decide +kernel
  obtain ⟨final, completed, left⟩ := (Option.any_eq_true _ _).mp remains
  obtain ⟨packets, stuck⟩ := of_decide_eq_true left
  have quiet : ∀ packet, final.step Crypto.padded Graph.pair (.deliver packet) = none := by
    intro packet
    by_cases same : packet = borderPacket
    · exact same ▸ stuck
    · simp [Network.step, Network.perform, packets, same]
  have underWay : borderPacket ∈ final.packets := by
    rw [packets]
    exact List.mem_cons_self
  exact ⟨final, completed, packets,
    (rests borderPackets final completed).2 quiet borderPacket underWay⟩

end SimplifiedPrism
