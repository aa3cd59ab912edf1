import SimplifiedPrism.Gossip
import SimplifiedPrism.Stoppages

/-!
# What nodes tell each other

Addresses, the offering, transaction blocks and proposer blocks spread by gossip.  A node
that comes to hold one of them announces it; the first two are passed on with the
announcement, the others are asked for and given.  Only a proposer block may have to
wait, for its parent.
-/

namespace SimplifiedPrism

variable {crypto : Crypto}

/-- What spreads through a network. -/
inductive Item
  | address (addr : H160)
  | offering
  | txBlock (hash : H256)
  | proposerBlock (hash : H256)

def Node.Holds (node : Node) : Item → Prop
  | .address addr => addr ∈ node.allAddr
  | .offering => ∃ hash, hash ∈ node.globState
  | .txBlock hash => hash ∈ node.txBlockPool
  | .proposerBlock hash => hash ∈ node.blockchain.blocks

/-- The node has received the item, but holds it back. -/
def Node.Defers (crypto : Crypto) (node : Node) : Item → Prop
  | .proposerBlock hash => ∃ block, node.Waits block ∧ block.hash crypto = hash
  | _ => False

/-- Only blocks are held back, and only for blocks of less depth. -/
def Item.rank (depth : H256 → Nat) : Item → Nat
  | .proposerBlock hash => depth hash
  | _ => 0

inductive Message.Announces : Message → Item → Prop
  | address (addrVec : List H160) (addr : H160) (listed : addr ∈ addrVec) :
      Announces (.newAddr addrVec) (.address addr)
  | offering (genesisHash : H256) (icoState : Ledger) :
      Announces (.ico genesisHash icoState) .offering
  | txBlock (hashVec : List H256) (hash : H256) (listed : hash ∈ hashVec) :
      Announces (.newTransactionBlockHashes hashVec) (.txBlock hash)
  | proposerBlock (hashVec : List H256) (hash : H256) (listed : hash ∈ hashVec) :
      Announces (.newProposerBlockHashes hashVec) (.proposerBlock hash)

inductive Message.AsksFor : Message → Item → Prop
  | txBlock (hashVec : List H256) (hash : H256) (listed : hash ∈ hashVec) :
      AsksFor (.getTransactionBlocks hashVec) (.txBlock hash)
  | proposerBlock (hashVec : List H256) (hash : H256) (listed : hash ∈ hashVec) :
      AsksFor (.getProposerBlocks hashVec) (.proposerBlock hash)

inductive Message.Gives (crypto : Crypto) : Message → Item → Prop
  | txBlock (txBlockVec : List TXBlock) (txBlock : TXBlock) (listed : txBlock ∈ txBlockVec) :
      Gives crypto (.transactionBlocks txBlockVec) (.txBlock (txBlock.hash crypto))
  | proposerBlock (proposerBlockVec : List ProposerBlock) (block : ProposerBlock)
      (listed : block ∈ proposerBlockVec) :
      Gives crypto (.proposerBlocks proposerBlockVec) (.proposerBlock (block.hash crypto))

/-! ## Telling -/

/-- Nothing that was held is lost, and everything that is new is announced. -/
structure Shares (before after : Node) (sent : List Outgoing) : Prop where
  kept : ∀ item, before.Holds item → after.Holds item
  told : ∀ item, after.Holds item → before.Holds item ∨
    ∃ message, .broadcast message ∈ sent ∧ message.Announces item

section Shares

variable {node after : Node} {task : Task} {todo : List Task} {progress : Progress}

theorem Shares.refl (node : Node) (sent : List Outgoing) : Shares node node sent :=
  ⟨fun _ held => held, fun _ held => .inl held⟩

theorem Shares.trans {before middle after : Node} {first second : List Outgoing}
    (shares : Shares before middle first) (later : Shares middle after second) :
    Shares before after (first ++ second) where
  kept := fun item held => later.kept item (shares.kept item held)
  told := by
    intro item held
    rcases later.told item held with inMiddle | ⟨message, sent, announces⟩
    · rcases shares.told item inMiddle with earlier | ⟨message, sent, announces⟩
      · exact .inl earlier
      · exact .inr ⟨message, List.mem_append_left _ sent, announces⟩
    · exact .inr ⟨message, List.mem_append_right _ sent, announces⟩

theorem Shares.of_blocks {sent : List Outgoing} (relays : Relays node after sent)
    (allAddr : after.allAddr = node.allAddr)
    (pooled : ∀ hash ∈ node.txBlockPool, hash ∈ after.txBlockPool)
    (announced : ∀ hash ∈ after.txBlockPool, hash ∈ node.txBlockPool ∨
      .broadcast (.newTransactionBlockHashes [hash]) ∈ sent)
    (globState : ∀ hash ∈ node.globState, hash ∈ after.globState)
    (offered : node.Holds .offering) : Shares node after sent where
  kept := by
    intro item held
    cases item with
    | address addr =>
        unfold Node.Holds at held ⊢
        rwa [allAddr]
    | offering =>
        obtain ⟨hash, member⟩ := held
        exact ⟨hash, globState hash member⟩
    | txBlock hash => exact pooled hash held
    | proposerBlock hash => exact relays.grows hash held
  told := by
    intro item held
    cases item with
    | address addr =>
        left
        unfold Node.Holds at held ⊢
        rwa [← allAddr]
    | offering => exact .inl offered
    | txBlock hash =>
        exact (announced hash held).imp_right fun sent =>
          ⟨_, sent, .txBlock [hash] hash List.mem_cons_self⟩
    | proposerBlock hash =>
        exact (relays.announces hash held).imp_right fun sent =>
          ⟨_, sent, .proposerBlock [hash] hash List.mem_cons_self⟩

theorem Shares.of_txBlock {hash : H256} {txPool : HashMap H256 SignedTransaction}
    {txBlock : TXBlock} :
    Shares node { node with txPool, txBlockPool := node.txBlockPool.insert hash txBlock }
      [.broadcast (.newTransactionBlockHashes [hash])] where
  kept := by
    intro item held
    cases item with
    | address _ | offering | proposerBlock _ => exact held
    | txBlock other => exact Finmap.mem_insert.mpr (.inr held)
  told := by
    intro item held
    cases item with
    | address _ | offering | proposerBlock _ => exact .inl held
    | txBlock other =>
        rcases Finmap.mem_insert.mp held with rfl | known
        · exact .inr ⟨_, List.mem_cons_self, .txBlock [other] other List.mem_cons_self⟩
        · exact .inl known

theorem Shares.of_address {addr : H160} {myAddrKey : HashMap H160 KeyPair} :
    Shares node { node with myAddrKey, allAddr := node.allAddr ++ [addr] }
      [.broadcast (.newAddr (node.allAddr ++ [addr]))] where
  kept := by
    intro item held
    cases item with
    | offering | txBlock _ | proposerBlock _ => exact held
    | address other => exact List.mem_append_left _ held
  told := by
    intro item held
    cases item with
    | offering | txBlock _ | proposerBlock _ => exact .inl held
    | address other => exact .inr ⟨_, List.mem_cons_self, .address _ other held⟩

theorem Shares.of_offering {genesisHash : H256} {icoState : Ledger} :
    Shares node { node with globState := node.globState.insert genesisHash icoState }
      [.broadcast (.ico genesisHash icoState)] where
  kept := by
    intro item held
    cases item with
    | address _ | txBlock _ | proposerBlock _ => exact held
    | offering => exact ⟨genesisHash, Finmap.mem_insert.mpr (.inl rfl)⟩
  told := by
    intro item held
    cases item with
    | address _ | txBlock _ | proposerBlock _ => exact .inl held
    | offering => exact .inr ⟨_, List.mem_cons_self, .offering genesisHash icoState⟩

private theorem shares_of_block (ran : runTask crypto node task = .ok progress)
    (block : ProposerBlock) (about : task = .proposerBlock block ∨ task = .orphan block) :
    Shares node progress.node progress.sent := by
  have relays := relays_of_run ran
  have effect := effect_of_run ran
  generalize progress.node = after, progress.todo = todo at effect relays ⊢
  cases effect with
  | skip _ => exact .refl node _
  | buffer each _ _ _ =>
      rw [bufferOrphan_eq]
      exact ⟨fun _ held => held, fun _ held => .inl held⟩
  | accept _ each _ _ _ applied =>
      obtain ⟨_, _, _, accepts⟩ := accepts_of_apply applied
      have pool := accepts.txBlockPool
      exact .of_blocks relays accepts.allAddr (fun hash pooled => pool ▸ pooled)
        (fun hash pooled => .inl (pool ▸ pooled)) accepts.publishes.globState
        ⟨_, Finmap.mem_of_lookup_eq_some accepts.parentState⟩
  | addr _ _ | ico _ _ _ | transaction _ _ _ _ _ _ _ _ _ _ _ | transactionBlock _ _ _ _
  | release _ _ _ => rcases about with impossible | impossible <;> cases impossible

theorem shares_of_run (ran : runTask crypto node task = .ok progress) :
    Shares node progress.node progress.sent := by
  cases task with
  | addr each =>
      cases ran
      unfold handleAddr
      split
      · exact .refl node _
      · exact .of_address
  | ico genesisHash icoState =>
      cases ran
      unfold handleIco
      split
      · exact .of_offering
      · exact .refl node _
  | transactionBlock each =>
      cases ran
      unfold handleTransactionBlock
      split
      · exact .refl node _
      split
      · exact .refl node _
      split
      · exact .refl node _
      · exact .of_txBlock
  | transaction tip each =>
      have effect := effect_of_run ran
      generalize progress.node = after, progress.todo = todo at effect ⊢
      cases effect with
      | skip _ => exact .refl node _
      | transaction _ _ _ _ _ _ _ _ _ _ _ => exact ⟨fun _ held => held, fun _ held => .inl held⟩
      | accept _ _ _ checks _ _ => cases checks
  | newParent block =>
      cases ran
      unfold handleNewParent
      split
      · exact .refl node _
      · exact ⟨fun _ held => held, fun _ held => .inl held⟩
  | announcedTransaction _ | requestedTransaction _ | announcedTransactionBlock _
  | requestedTransactionBlock _ | announcedProposerBlock _ | requestedProposerBlock _ =>
      cases ran
      exact .refl node _
  | proposerBlock each => exact shares_of_block ran each (.inl rfl)
  | orphan each => exact shares_of_block ran each (.inr rfl)

theorem shares_of_runTasks (node : Node) (todo : List Task)
    (completed : (runTasks crypto node todo).panic = none) :
    Shares node (runTasks crypto node todo).node (runTasks crypto node todo).sent := by
  fun_induction runTasks crypto node todo with
  | case1 node => exact .refl node _
  | case2 node task rest panicked ran => cases completed
  | case3 node task rest progress ran outcome ih => exact (shares_of_run ran).trans (ih completed)

/-! ## Making -/

theorem announced_of_minerLoop {choice : MinerChoice}
    (ran : minerLoop crypto node choice = .ok progress) :
    node.Holds .offering ∧ ∀ hash ∈ progress.node.txBlockPool, hash ∈ node.txBlockPool ∨
      .broadcast (.newTransactionBlockHashes [hash]) ∈ progress.sent := by
  simp only [minerLoop, bind_eq_ok, Node.attempt_eq_ok, index_eq_ok] at ran
  obtain ⟨currState, tipState, _, -, _, -, header, -, ran⟩ := ran
  refine ⟨⟨_, Finmap.mem_of_lookup_eq_some tipState⟩, fun hash pooled => ?_⟩
  split at ran
  · split at ran
    · cases ran
      exact .inl pooled
    · simp only [bind_eq_ok] at ran
      obtain ⟨after, published, ran⟩ := ran
      cases ran
      simp only [publishProposerBlock, bind_eq_ok] at published
      obtain ⟨_, -, _, -, inserted⟩ := published
      obtain ⟨_, -, rfl⟩ := Node.insertBlock_ok inserted
      exact .inl pooled
  · split at ran
    · split at ran
      · cases ran
        exact .inl pooled
      · cases ran
        rcases Finmap.mem_insert.mp pooled with rfl | known
        · exact .inr List.mem_cons_self
        · exact .inl known
    · cases ran
      exact .inl pooled

theorem announced_of_minerLoopAttacker {choice : MinerChoice}
    (ran : minerLoopAttacker crypto node choice = .ok progress) :
    node.Holds .offering ∧ ∀ hash ∈ progress.node.txBlockPool, hash ∈ node.txBlockPool ∨
      .broadcast (.newTransactionBlockHashes [hash]) ∈ progress.sent := by
  simp only [minerLoopAttacker, bind_eq_ok, Node.attempt_eq_ok, index_eq_ok] at ran
  obtain ⟨currState, tipState, _, -, header, -, ran⟩ := ran
  refine ⟨⟨_, Finmap.mem_of_lookup_eq_some tipState⟩, fun hash pooled => ?_⟩
  split at ran
  · simp only [bind_eq_ok] at ran
    obtain ⟨after, inserted, ran⟩ := ran
    cases ran
    obtain ⟨_, -, rfl⟩ := Node.insertBlock_ok inserted
    exact .inl pooled
  · split at ran
    · cases ran
      rcases Finmap.mem_insert.mp pooled with rfl | known
      · exact .inr List.mem_cons_self
      · exact .inl known
    · cases ran
      exact .inl pooled

theorem Mined.mem_txBlockPool {hashed : Option Header} (mined : Mined crypto node hashed after) :
    ∀ hash ∈ node.txBlockPool, hash ∈ after.txBlockPool := by
  cases mined with
  | nothing => exact fun _ pooled => pooled
  | transaction _ _ _ _ _ _ _ _ _ _ => exact fun _ pooled => Finmap.mem_insert.mpr (.inr pooled)
  | proposer _ _ _ _ _ _ _ _ _ _ accepts =>
      rw [accepts.txBlockPool]
      exact fun _ pooled => pooled

theorem Mined.shares {hashed : Option Header} {sent : List Outgoing}
    (mined : Mined crypto node hashed after) (sends : MinerSends crypto node after sent)
    (announced : node.Holds .offering ∧ ∀ hash ∈ after.txBlockPool, hash ∈ node.txBlockPool ∨
      .broadcast (.newTransactionBlockHashes [hash]) ∈ sent) : Shares node after sent :=
  .of_blocks sends.relays mined.allAddr mined.mem_txBlockPool announced.2
    mined.publishes.globState announced.1

end Shares

/-! ## Answering -/

section Reaching

variable {task : Task} {todo : List Task} {reached : Node → List Outgoing → Prop}
variable {ready : Node → Prop}

theorem runTasks_stays
    (stay : ∀ node sent next progress, reached node sent →
      runTask crypto node next = .ok progress → reached progress.node (sent ++ progress.sent))
    (node : Node) (todo : List Task) (completed : (runTasks crypto node todo).panic = none) :
    ∀ sent, reached node sent →
      reached (runTasks crypto node todo).node (sent ++ (runTasks crypto node todo).sent) := by
  fun_induction runTasks crypto node todo with
  | case1 node =>
      intro sent start
      rwa [List.append_nil]
  | case2 node task rest panicked ran => cases completed
  | case3 node task rest progress ran outcome ih =>
      intro sent start
      rw [← List.append_assoc]
      exact ih completed _ (stay node sent task progress start ran)

/-- What a task of the list reaches, whenever its turn comes, and no task undoes, is
reached in the end. -/
theorem runTasks_reaches
    (keep : ∀ node next progress, ready node → runTask crypto node next = .ok progress →
      ready progress.node)
    (reach : ∀ node progress, ready node → runTask crypto node task = .ok progress →
      reached progress.node progress.sent)
    (stay : ∀ node sent next progress, reached node sent →
      runTask crypto node next = .ok progress → reached progress.node (sent ++ progress.sent))
    (more : ∀ node earlier later, reached node later → reached node (earlier ++ later))
    (node : Node) (todo : List Task) (start : ready node) (member : task ∈ todo)
    (completed : (runTasks crypto node todo).panic = none) :
    reached (runTasks crypto node todo).node (runTasks crypto node todo).sent := by
  fun_induction runTasks crypto node todo with
  | case1 node => cases member
  | case2 node next rest panicked ran => cases completed
  | case3 node next rest progress ran outcome ih =>
      rcases List.mem_cons.mp member with rfl | later
      · exact runTasks_stays stay _ _ completed _ (reach node progress start ran)
      · exact more _ _ _ (ih (keep node next progress start ran)
          (List.mem_append_right _ later) completed)

end Reaching

section Answers

theorem workerLoop_askedTxBlocks (node : Node) (hashVec : List H256) :
    workerLoop crypto node (.getTransactionBlocks hashVec) =
      { node
        sent := hashVec.flatMap fun each =>
          (node.txBlockPool.lookup each).toList.map
            fun txBlock => .write (.transactionBlocks [txBlock]) } :=
  runTasks_of_silent _ _ (fun _ => rfl) hashVec

variable {node : Node} {message : Message} {item : Item}

theorem HashMap.mem_of_ne_empty {κ ν : Type*} [DecidableEq κ] {map : HashMap κ ν}
    (nonempty : map ≠ ∅) : ∃ key, key ∈ map := by
  by_contra absent
  apply nonempty
  apply Finmap.ext_lookup
  intro key
  rw [Finmap.lookup_empty, Finmap.lookup_eq_none]
  exact fun member => absent ⟨key, member⟩

/-- What a message announces is held in the end, or asked for. -/
theorem announced_of_workerLoop (announces : message.Announces item)
    (completed : (workerLoop crypto node message).panic = none) :
    (workerLoop crypto node message).node.Holds item ∨
      ∃ reply, .write reply ∈ (workerLoop crypto node message).sent ∧ reply.AsksFor item := by
  -- the task for the item, and what it does whenever its turn comes
  have task : ∃ task ∈ message.tasks node, ∀ node progress,
      runTask crypto node task = .ok progress → progress.node.Holds item ∨
        ∃ reply, .write reply ∈ progress.sent ∧ reply.AsksFor item := by
    cases announces with
    | address addrVec addr listed =>
        refine ⟨.addr addr, List.mem_map_of_mem listed, fun node progress ran => .inl ?_⟩
        cases ran
        unfold handleAddr
        split
        · next known => exact known
        · exact List.mem_append_right _ List.mem_cons_self
    | offering genesisHash icoState =>
        refine ⟨.ico genesisHash icoState, List.mem_cons_self, fun node progress ran => .inl ?_⟩
        cases ran
        unfold handleIco
        split
        · exact ⟨genesisHash, Finmap.mem_insert.mpr (.inl rfl)⟩
        · next taken => exact HashMap.mem_of_ne_empty taken
    | txBlock hashVec hash listed =>
        refine ⟨.announcedTransactionBlock hash, List.mem_map_of_mem listed,
          fun node progress ran => ?_⟩
        cases ran
        by_cases known : hash ∈ node.txBlockPool
        · exact .inl known
        · refine .inr ⟨.getTransactionBlocks [hash], ?_, .txBlock [hash] hash List.mem_cons_self⟩
          rw [if_neg known]
          exact List.mem_cons_self
    | proposerBlock hashVec hash listed =>
        refine ⟨.announcedProposerBlock hash, List.mem_map_of_mem listed,
          fun node progress ran => ?_⟩
        cases ran
        by_cases known : hash ∈ node.blockchain.blocks
        · exact .inl known
        · refine .inr ⟨.getProposerBlocks [hash], ?_,
            .proposerBlock [hash] hash List.mem_cons_self⟩
          rw [if_neg known]
          exact List.mem_cons_self
  obtain ⟨task, member, serves⟩ := task
  let reached (node : Node) (sent : List Outgoing) : Prop :=
    node.Holds item ∨ ∃ reply, .write reply ∈ sent ∧ reply.AsksFor item
  apply @runTasks_reaches crypto task reached fun _ => True
  · exact fun _ _ _ ready _ => ready
  · exact fun node progress _ ran => serves node progress ran
  · rintro node sent next progress (held | ⟨reply, isSent, asks⟩) ran
    · exact .inl ((shares_of_run ran).kept item held)
    · exact .inr ⟨reply, List.mem_append_left _ isSent, asks⟩
  · rintro node earlier later (held | ⟨reply, isSent, asks⟩)
    · exact .inl held
    · exact .inr ⟨reply, List.mem_append_right _ isSent, asks⟩
  · trivial
  · exact member
  · exact completed

theorem asked_of_workerLoop (formed : node.WellFormed crypto) (asks : message.AsksFor item)
    (held : node.Holds item) :
    ∃ reply, .write reply ∈ (workerLoop crypto node message).sent ∧ reply.Gives crypto item := by
  cases asks with
  | txBlock hashVec hash listed =>
      obtain ⟨txBlock, found⟩ := HashMap.lookup_of_mem held
      have keyed := formed.pooled hash txBlock found
      refine ⟨.transactionBlocks [txBlock], ?_, keyed ▸ .txBlock _ txBlock List.mem_cons_self⟩
      rw [workerLoop_askedTxBlocks]
      exact List.mem_flatMap.mpr ⟨hash, listed, List.mem_map.mpr
        ⟨txBlock, Option.mem_toList.mpr found, rfl⟩⟩
  | proposerBlock hashVec hash listed =>
      obtain ⟨block, found⟩ := HashMap.lookup_of_mem held
      have stored := formed.chain.stored hash block found
      refine ⟨.proposerBlocks [block], ?_, stored ▸ .proposerBlock _ block List.mem_cons_self⟩
      rw [workerLoop_asked]
      exact List.mem_flatMap.mpr ⟨hash, listed, List.mem_map.mpr
        ⟨block, Option.mem_toList.mpr found, rfl⟩⟩

end Answers

/-! ## Receiving -/

/-- The chosen blocks pass every check of a worker. -/
structure Origin.Passes (crypto : Crypto) (origin : Origin) : Prop where
  block : ∀ block, origin.block block → ¬ block.hash crypto > block.header.proposerDifficulty
  work : ∀ txBlock, origin.txBlock txBlock →
    ¬ txBlock.hash crypto > txBlock.header.transactionDifficulty
  notProposer : ∀ txBlock, origin.txBlock txBlock →
    ¬ txBlock.hash crypto ≤ txBlock.header.proposerDifficulty
  signed : ∀ txBlock, origin.txBlock txBlock →
    ∀ tx ∈ txBlock.content.transactionContent, tx.verified crypto = true

/-- Between the tasks for a message everything has been chosen, and the received
proposer blocks are accounted for. -/
structure Receiving (crypto : Crypto) (origin : Origin) (delivered : List ProposerBlock)
    (node : Node) (todo : List Task) : Prop extends Passing crypto origin node todo where
  nothingLost : NothingLost crypto delivered node todo

section Receiving

variable {origin : Origin} {delivered : List ProposerBlock} {node after : Node}
variable {task : Task} {todo rest : List Task} {progress : Progress} {each : ProposerBlock}

theorem Node.Within.valid (within : node.Within crypto origin) (passes : origin.Passes crypto)
    {refs : List H256} {valid : Bool}
    (checked : signedCorrectly crypto node.txBlockPool refs = .ok valid) : valid = true := by
  induction refs with
  | nil => exact (Except.ok.inj checked).symm
  | cons ref refs ih =>
      simp only [signedCorrectly, bind_eq_ok, index_eq_ok] at checked
      obtain ⟨txBlock, found, checked⟩ := checked
      have signed := passes.signed txBlock (within.txBlockPool ref txBlock found)
      rw [if_pos (List.all_eq_true.mpr signed)] at checked
      exact ih checked

theorem delivers_of_accept (within : node.Within crypto origin) (passes : origin.Passes crypto)
    (checks : Checks crypto node task each)
    (ran : acceptProposerBlock crypto node each = .ok progress) :
    Delivers crypto node task progress.node progress.todo := by
  simp only [acceptProposerBlock, bind_eq_ok, Node.attempt_eq_ok] at ran
  obtain ⟨valid, checked, ran⟩ := ran
  obtain rfl := within.valid passes checked
  simp only [Bool.true_eq_false, if_false, bind_eq_ok] at ran
  obtain ⟨after, applied, ran⟩ := ran
  cases ran
  exact .accept task each after checks applied

/-- A task about other things leaves the tree and the buffer alone. -/
theorem NothingLost.beside (nothingLost : NothingLost crypto delivered node (task :: rest))
    (effect : Effect crypto node task after todo)
    (other : ∀ block, task ≠ .proposerBlock block ∧ task ≠ .newParent block ∧
      task ≠ .orphan block) : NothingLost crypto delivered after (todo ++ rest) := by
  have unchanged : after.blockchain = node.blockchain ∧
      after.orphanHandler = node.orphanHandler ∧ todo = [] := by
    cases effect with
    | skip _ | addr _ _ | ico _ _ _ | transaction _ _ _ _ _ _ _ _ _ _ _
    | transactionBlock _ _ _ _ => exact ⟨rfl, rfl, rfl⟩
    | buffer each _ _ _ => exact absurd rfl (other each).1
    | release block _ _ => exact absurd rfl (other block).2.1
    | accept _ each _ checks _ _ =>
        cases checks with
        | received _ _ _ _ => exact absurd rfl (other each).1
        | orphan _ => exact absurd rfl (other each).2.2
  obtain ⟨sameTree, sameBuffer, rfl⟩ := unchanged
  refine ⟨fun block member => ?_, ?_, ?_⟩
  · rw [sameTree, Node.Waits, sameBuffer]
    rcases nothingLost.located block member with inTree | waits | orphan | proposed
    · exact .inl inTree
    · exact .inr (.inl waits)
    · exact .inr (.inr (.inl ((List.mem_cons.mp orphan).resolve_left
        (other block).2.2.symm)))
    · exact .inr (.inr (.inr ((List.mem_cons.mp proposed).resolve_left (other block).1.symm)))
  · rw [sameBuffer]
    exact nothingLost.nonempty
  · rw [sameTree, sameBuffer]
    intro parent waiting inTree
    obtain ⟨block, member, same⟩ := nothingLost.awaited parent waiting inTree
    exact ⟨block, (List.mem_cons.mp member).resolve_left (other block).2.1.symm, same⟩

/-- One task keeps the received blocks accounted for. -/
theorem Receiving.step (receiving : Receiving crypto origin delivered node (task :: rest))
    (passes : origin.Passes crypto) (ran : runTask crypto node task = .ok progress) :
    Receiving crypto origin delivered progress.node (progress.todo ++ rest) := by
  have inside := receiving.inside task List.mem_cons_self
  have effect := effect_of_run ran
  refine ⟨receiving.toPassing.step effect, ?_⟩
  cases task with
  | proposerBlock each =>
      apply receiving.nothingLost.step
      rw [runTask, handleProposerBlock] at ran
      split at ran
      · next known =>
          cases ran
          exact .known each known
      next unknown =>
      have work : ¬ each.hash crypto > each.header.proposerDifficulty := by
        rcases inside with rfl | chosen
        · exact absurd receiving.formed.chain.genesis unknown
        · exact passes.block each chosen
      rw [if_neg work] at ran
      split at ran
      · next parentMissing =>
          cases ran
          exact .buffer each parentMissing
      · next parentKnown =>
          exact delivers_of_accept receiving.within passes
            (.received each unknown work (not_not.mp parentKnown)) ran
  | newParent block =>
      apply receiving.nothingLost.step
      cases ran
      unfold handleNewParent
      split
      · next absent => exact .nothing block (Finmap.lookup_eq_none.mp absent)
      · next vec waiting => exact .release block vec waiting
  | orphan each =>
      apply receiving.nothingLost.step
      exact delivers_of_accept receiving.within passes (.orphan each) ran
  | addr _ | ico _ _ | announcedTransaction _ | requestedTransaction _ | transaction _ _
  | announcedTransactionBlock _ | requestedTransactionBlock _ | transactionBlock _
  | announcedProposerBlock _ | requestedProposerBlock _ =>
      exact receiving.nothingLost.beside effect (by simp)

theorem Receiving.runTasks (receiving : Receiving crypto origin delivered node todo)
    (passes : origin.Passes crypto) (completed : (runTasks crypto node todo).panic = none) :
    Receiving crypto origin delivered (SimplifiedPrism.runTasks crypto node todo).node [] := by
  apply (runTasks_keeps (Receiving crypto origin delivered) (fun _ => True) ?_ node todo receiving
    completed).1
  intro node task rest progress receiving ran
  exact ⟨receiving.step passes ran, fun _ _ => trivial⟩

/-- A received block is in the tree or waits in the end, and so is one that waited. -/
theorem located_of_workerLoop {message : Message} (within : node.Within crypto origin)
    (formed : node.WellFormed crypto) (inside : message.Within crypto origin)
    (passes : origin.Passes crypto) (nothingLost : NothingLost crypto [] node [])
    (completed : (workerLoop crypto node message).panic = none) :
    NothingLost crypto [] (workerLoop crypto node message).node [] ∧
      ∀ block, block ∈ message.givenBlocks ∨ node.Waits block →
        block.hash crypto ∈ (workerLoop crypto node message).node.blockchain.blocks ∨
          (workerLoop crypto node message).node.Waits block := by
  have served (delivered : List ProposerBlock)
      (located : ∀ block ∈ delivered, node.Waits block ∨ block ∈ message.givenBlocks) :
      NothingLost crypto delivered (workerLoop crypto node message).node [] := by
    have receiving : Receiving crypto origin delivered node (message.tasks node) := by
      refine ⟨.receive within formed inside, fun block member => ?_, nothingLost.nonempty, ?_⟩
      · rcases located block member with waits | given
        · exact .inr (.inl waits)
        · cases message with
          | proposerBlocks batch => exact .inr (.inr (.inr (List.mem_map_of_mem given)))
          | newAddr _ | ico _ _ | newTransactionHashes _ | getTransactions _ | transactions _
          | newTransactionBlockHashes _ | getTransactionBlocks _ | transactionBlocks _
          | newProposerBlockHashes _ | getProposerBlocks _ => cases given
      · intro parent waiting inTree
        obtain ⟨_, impossible, -⟩ := nothingLost.awaited parent waiting inTree
        cases impossible
    exact (receiving.runTasks passes completed).nothingLost
  refine ⟨served [] (by simp), fun block received => ?_⟩
  have here := (served [block] (by simpa using received.symm)).located block List.mem_cons_self
  rcases here with inTree | waits | impossible | impossible
  · exact .inl inTree
  · exact .inr waits
  · cases impossible
  · cases impossible

theorem pooled_of_workerLoop {txBlockVec : List TXBlock} {txBlock : TXBlock}
    (listed : txBlock ∈ txBlockVec) (chosen : origin.txBlock txBlock)
    (passes : origin.Passes crypto)
    (completed : (workerLoop crypto node (.transactionBlocks txBlockVec)).panic = none) :
    txBlock.hash crypto ∈
      (workerLoop crypto node (.transactionBlocks txBlockVec)).node.txBlockPool := by
  apply @runTasks_reaches crypto (.transactionBlock txBlock)
    (fun node _ => txBlock.hash crypto ∈ node.txBlockPool) fun _ => True
  · exact fun _ _ _ ready _ => ready
  · intro node progress _ ran
    cases ran
    unfold handleTransactionBlock
    split
    · next known => exact known
    rw [if_neg (passes.work txBlock chosen), if_neg (passes.notProposer txBlock chosen)]
    exact Finmap.mem_insert.mpr (.inl rfl)
  · intro node sent next progress pooled ran
    exact (effect_of_run ran).mem_txBlockPool _ pooled
  · exact fun _ _ _ pooled => pooled
  · trivial
  · exact List.mem_map_of_mem listed
  · exact completed

end Receiving

end SimplifiedPrism
