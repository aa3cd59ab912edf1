import SimplifiedPrism.Threads

/-!
# Handlers that are not interrupted

A worker whose sections follow one another does to the maps what `workerLoop` does
to them in one go, and sends the same messages; likewise the miner and the generator.
So a node whose threads take turns, handler by handler, is a special case of the
threads.
-/

namespace SimplifiedPrism

variable {crypto : Crypto}

/-- Sections of one thread that follow one another, with what is left of its
handler and the messages it has sent. -/
inductive Alone (crypto : Crypto) :
    Node → List Section → Node → List Section → List Outgoing → Prop
  | refl (node : Node) (todo : List Section) : Alone crypto node todo node todo []
  | run {node after : Node} {current : Section} {new rest left : List Section}
      {sent : List Outgoing} (possible : current.Possible node)
      (goesOn : (current.run crypto node).next = .ok new)
      (later : Alone crypto (current.run crypto node).node (new ++ rest) after left sent) :
      Alone crypto node (current :: rest) after left ((current.run crypto node).sent ++ sent)

namespace Alone

variable {node middle after : Node} {todo left rest new : List Section}
variable {sent more : List Outgoing} {current : Section}

theorem trans (first : Alone crypto node todo middle left sent)
    (second : Alone crypto middle left after rest more) :
    Alone crypto node todo after rest (sent ++ more) := by
  induction first with
  | refl node todo => exact second
  | run possible goesOn later ih =>
      rw [List.append_assoc]
      exact .run possible goesOn (ih second)

/-- What is left of the handler stays behind. -/
theorem frame (alone : Alone crypto node todo after left sent) (rest : List Section) :
    Alone crypto node (todo ++ rest) after (left ++ rest) sent := by
  induction alone with
  | refl node todo => exact .refl node _
  | run possible goesOn later ih =>
      rw [List.append_assoc] at ih
      exact .run possible goesOn ih

theorem single (passed : current.run crypto node = ⟨after, .ok new, sent⟩)
    (possible : current.Possible node) : Alone crypto node [current] after new sent := by
  have last : Alone crypto (current.run crypto node).node (new ++ [])
      (current.run crypto node).node new [] := by
    rw [List.append_nil]
    exact .refl _ new
  have alone := Alone.run possible (by rw [passed]) last
  rwa [List.append_nil, passed] at alone

/-- A first section, and then the rest. -/
theorem cons (passed : current.run crypto node = ⟨middle, .ok new, sent⟩)
    (possible : current.Possible node) (later : Alone crypto middle new after left more) :
    Alone crypto node [current] after left (sent ++ more) :=
  (single passed possible).trans later

end Alone

/-- The first section of a task. -/
def Task.first (crypto : Crypto) : Task → Section
  | .addr each => .testAddr each
  | .ico genesisHash icoState => .testState genesisHash icoState
  | .announcedTransaction each => .announcedTransaction each
  | .requestedTransaction each => .requestedTransaction each
  | .transaction tip each => .testTransaction tip each
  | .announcedTransactionBlock each => .announcedTransactionBlock each
  | .requestedTransactionBlock each => .requestedTransactionBlock each
  | .transactionBlock each => .testTransactionBlock each
  | .announcedProposerBlock each => .announcedProposerBlock each
  | .requestedProposerBlock each => .requestedProposerBlock each
  | .proposerBlock each => .testBlock each
  | .newParent block => .testWaiting (block.hash crypto)
  | .orphan each => .verify each each.content.proposerContent

section Tasks

variable {node after : Node} {task : Task} {progress : Progress} {each : ProposerBlock}

theorem alone_verify {refs : List H256} {valid : Bool}
    (checked : signedCorrectly crypto node.txBlockPool refs = .ok valid) :
    Alone crypto node [.verify each refs] node (if valid then [.readRef each] else []) [] := by
  induction refs with
  | nil =>
      obtain rfl := Except.ok.inj checked
      exact .refl node _
  | cons ref refs ih =>
      simp only [signedCorrectly, bind_eq_ok, index_eq_ok] at checked
      obtain ⟨txBlock, found, checked⟩ := checked
      split at checked
      · next signed =>
          have passed : (Section.verifyRef each ref refs).run crypto node =
              ⟨node, .ok [.verify each refs], []⟩ := by
            simp [Section.run, Node.read, found, signed]
          exact .cons passed trivial (ih checked)
      · next unsigned =>
          obtain rfl := Except.ok.inj checked
          have passed : (Section.verifyRef each ref refs).run crypto node = ⟨node, .ok [], []⟩ := by
            simp [Section.run, Node.read, found, unsigned]
          exact .single passed trivial

theorem alone_apply {refs : List H256} {currState ledger : Ledger} (author : Author)
    (updated : updateLedger crypto node.txBlockPool refs currState = .ok ledger) :
    Alone crypto node [.apply author each currState refs] node
      [.prunePool author each ledger] [] := by
  induction refs generalizing currState with
  | nil =>
      obtain rfl := Except.ok.inj updated
      exact .refl node _
  | cons ref refs ih =>
      simp only [updateLedger, bind_eq_ok, index_eq_ok, foldlM_index] at updated
      obtain ⟨txBlock, found, next, applied, updated⟩ := updated
      have passed : (Section.applyRef author each currState ref refs).run crypto node =
          ⟨node, .ok [.apply author each next refs], []⟩ := by
        simp [Section.run, Node.read, found, applied]
      exact .cons passed trivial (ih updated)

theorem alone_insert {blockchain : Blockchain} (author : Author)
    (inserted : node.blockchain.insert crypto each = .ok blockchain) :
    Alone crypto node [.insertBlock author each] { node with blockchain }
      (if author = .worker then [.testWaiting (each.hash crypto)] else [])
      [.broadcast (.newProposerBlockHashes [each.hash crypto])] := by
  apply Alone.single
  · simp only [Section.run, inserted]
  · trivial

/-- The last sections of a block, which the miner and the workers share. -/
theorem alone_prune {currState : Ledger} {txPool : HashMap H256 SignedTransaction}
    {blockchain : Blockchain} (author : Author)
    (pruned : pruneTxPool node.txPool currState = some txPool)
    (inserted : node.blockchain.insert crypto each = .ok blockchain) :
    Alone crypto node [.prunePool author each currState]
      { node with
        txPool
        globState := node.globState.insert (each.hash crypto) currState
        blockchain }
      (if author = .worker then [.testWaiting (each.hash crypto)] else [])
      [.broadcast (.newProposerBlockHashes [each.hash crypto])] := by
  have prunes : Alone crypto node [.prunePool author each currState] { node with txPool }
      [.insertState author each currState] [] := by
    apply Alone.single
    · simp [Section.run, pruned]
    · trivial
  have publishes : Alone crypto { node with txPool } [.insertState author each currState]
      { node with txPool, globState := node.globState.insert (each.hash crypto) currState }
      [.insertBlock author each] [] := .single rfl trivial
  exact (prunes.trans publishes).trans (alone_insert author inserted)

theorem alone_accept (ran : acceptProposerBlock crypto node each = .ok progress) :
    Alone crypto node [.verify each each.content.proposerContent] progress.node
      (progress.todo.map (Task.first crypto)) progress.sent := by
  simp only [acceptProposerBlock, bind_eq_ok, Node.attempt_eq_ok] at ran
  obtain ⟨valid, checked, ran⟩ := ran
  have verifies : Alone crypto node [.verify each each.content.proposerContent] node _ [] :=
    alone_verify checked
  cases valid with
  | false =>
      cases ran
      exact verifies
  | true =>
      simp only [Bool.true_eq_false, if_false, bind_eq_ok] at ran
      obtain ⟨after, applied, ran⟩ := ran
      cases ran
      simp only [applyProposerBlock, bind_eq_ok, Node.attempt_eq_ok, index_eq_ok] at applied
      obtain ⟨parentRef, foundRef, parentLedger, foundState, ledger, updated, txPool, pruned,
        inserted⟩ := applied
      obtain ⟨blockchain, chained, rfl⟩ := Node.insertBlock_ok inserted
      let newRef := mergeRef parentRef each.content.proposerContent
      let referring := { node with txBlockRef := node.txBlockRef.insert (each.hash crypto) newRef }
      have reads : Alone crypto node [.readRef each] node [.insertRef each newRef] [] := by
        apply Alone.single
        · simp [Section.run, Node.read, foundRef, newRef]
        · trivial
      have refers : Alone crypto node [.insertRef each newRef] referring [.readState each] [] :=
        .single rfl trivial
      have states : Alone crypto referring [.readState each] referring
          [.apply .worker each parentLedger each.content.proposerContent] [] := by
        apply Alone.single
        · simp [Section.run, Node.read, foundState, referring]
        · trivial
      have applies : Alone crypto referring
          [.apply .worker each parentLedger each.content.proposerContent] referring
          [.prunePool .worker each ledger] [] := alone_apply .worker updated
      have prunes : Alone crypto referring [.prunePool .worker each ledger] _ _ _ :=
        alone_prune .worker pruned chained
      exact verifies.trans (reads.trans (refers.trans (states.trans (applies.trans prunes))))

theorem alone_remove (txs : List SignedTransaction) :
    Alone crypto node (txs.map fun tx => .testPooled (tx.hash crypto))
      { node with txPool := removeTransactions crypto node.txPool txs } [] [] := by
  induction txs generalizing node with
  | nil => exact .refl node []
  | cons tx txs ih =>
      have first : Alone crypto node [.testPooled (tx.hash crypto)]
          { node with txPool := node.txPool.erase (tx.hash crypto) } [] [] := by
        by_cases pooled : tx.hash crypto ∈ node.txPool
        · have tests : Alone crypto node [.testPooled (tx.hash crypto)] node
              [.removePooled (tx.hash crypto)] [] := by
            apply Alone.single
            · simp [Section.run, pooled]
            · trivial
          exact tests.trans (.single rfl trivial)
        · have unchanged : node.txPool.erase (tx.hash crypto) = node.txPool := by
            apply Finmap.ext_lookup
            intro other
            rw [HashMap.lookup_erase_ite]
            split
            · next same => rw [same, Finmap.lookup_eq_none.mpr pooled]
            · rfl
          rw [unchanged]
          apply Alone.single
          · simp [Section.run, pooled]
          · trivial
      exact (first.frame _).trans ih

/-- The transactions that the miner or a worker has taken leave the mempool, and the
block that contains them enters its pool. -/
theorem alone_take (each : TXBlock) :
    Alone crypto node
      (each.content.transactionContent.map (fun tx => .testPooled (tx.hash crypto)) ++
        [.insertTransactionBlock each])
      { node with
        txPool := removeTransactions crypto node.txPool each.content.transactionContent
        txBlockPool := node.txBlockPool.insert (each.hash crypto) each }
      [] [.broadcast (.newTransactionBlockHashes [each.hash crypto])] :=
  ((alone_remove each.content.transactionContent).frame _).trans (.single rfl trivial)

theorem alone_request {α : Type} {found : Option α} {test : Section} {answer : α → Outgoing}
    (give : Section)
    (tests : Alone crypto node [test] node (if found.isSome then [give] else []) [])
    (gives : ∀ value, found = some value → Alone crypto node [give] node [] [answer value]) :
    Alone crypto node [test] node [] (found.toList.map answer) := by
  cases found with
  | none => exact tests
  | some value => exact tests.trans (gives value rfl)

theorem alone_transaction {tip : H256} {each : SignedTransaction}
    (ran : handleTransaction crypto node tip each = .ok progress) :
    Alone crypto node [.testTransaction tip each] progress.node
      (progress.todo.map (Task.first crypto)) progress.sent := by
  rw [handleTransaction] at ran
  split at ran
  · next known =>
      cases ran
      apply Alone.single
      · simp [Section.run, known]
      · trivial
  next fresh =>
  split at ran
  · next unverified =>
      cases ran
      apply Alone.single
      · simp [Section.run, unverified]
      · trivial
  next verified =>
  rw [Bool.not_eq_false] at verified
  have tests : Alone crypto node [.testTransaction tip each] node
      [.checkTransaction tip each] [] := by
    apply Alone.single
    · simp [Section.run, fresh, verified]
    · trivial
  simp only [bind_eq_ok, Node.attempt_eq_ok, index_eq_ok] at ran
  obtain ⟨currState, tipState, unspent, isUnspent, ran⟩ := ran
  have checks {passes : Bool} (result : passesChecks crypto currState each = some passes) :
      Alone crypto node [.testTransaction tip each] node
        (if passes then [.insertTransaction each] else []) [] := by
    apply tests.trans
    apply Alone.single
    · simp [Section.run, Node.read, tipState, result]
    · trivial
  split at ran
  · next spent =>
      cases ran
      have result : passesChecks crypto currState each = some false := by
        simp [passesChecks, isUnspent, spent]
      exact checks result
  next stillUnspent =>
  simp only [bind_eq_ok, Node.attempt_eq_ok, index_eq_ok] at ran
  obtain ⟨owned, isOwned, ran⟩ := ran
  split at ran
  · next foreign =>
      cases ran
      have result : passesChecks crypto currState each = some false := by
        simp [passesChecks, isUnspent, stillUnspent, isOwned, foreign]
      exact checks result
  next stillOwned =>
  simp only [bind_eq_ok, Node.attempt_eq_ok, index_eq_ok] at ran
  obtain ⟨sums, summed, ran⟩ := ran
  rw [Bool.not_eq_false] at stillUnspent stillOwned
  have result : passesChecks crypto currState each = some (decide (sums.2 ≤ sums.1)) := by
    simp [passesChecks, isUnspent, stillUnspent, isOwned, stillOwned, summed]
  split at ran
  · next larger =>
      cases ran
      rw [decide_eq_false (UInt32.not_le.mpr larger)] at result
      exact checks result
  · next covered =>
      cases ran
      rw [decide_eq_true (UInt32.not_lt.mp covered)] at result
      exact (checks result).trans (.single rfl trivial)

theorem alone_transactionBlock (each : TXBlock) :
    Alone crypto node [.testTransactionBlock each] (handleTransactionBlock crypto node each).node []
      (handleTransactionBlock crypto node each).sent := by
  rw [handleTransactionBlock]
  split
  · next known =>
      apply Alone.single
      · simp [Section.run, known]
      · trivial
  next unknown =>
  split
  · next work =>
      apply Alone.single
      · simp [Section.run, work]
      · trivial
  next work =>
  split
  · next proposer =>
      apply Alone.single
      · simp [Section.run, proposer]
      · trivial
  · next notProposer =>
      have tests : Alone crypto node [.testTransactionBlock each] node
          (each.content.transactionContent.map (fun tx => .testPooled (tx.hash crypto)) ++
            [.insertTransactionBlock each]) [] := by
        apply Alone.single
        · simp [Section.run, unknown, work, notProposer]
        · trivial
      exact tests.trans (alone_take each)

theorem alone_proposerBlock (ran : handleProposerBlock crypto node each = .ok progress) :
    Alone crypto node [.testBlock each] progress.node
      (progress.todo.map (Task.first crypto)) progress.sent := by
  rw [handleProposerBlock] at ran
  split at ran
  · next known =>
      cases ran
      apply Alone.single
      · simp [Section.run, known]
      · trivial
  next unknown =>
  split at ran
  · next work =>
      cases ran
      apply Alone.single
      · simp [Section.run, work]
      · trivial
  next work =>
  have tests : Alone crypto node [.testBlock each] node [.testParent each] [] := by
    apply Alone.single
    · simp [Section.run, unknown, work]
    · trivial
  split at ran
  · next missing =>
      cases ran
      have misses : Alone crypto node [.testParent each] node [.testBucket each] [] := by
        apply Alone.single
        · simp [Section.run, missing]
        · trivial
      apply tests.trans
      apply misses.trans
      cases waiting : node.orphanHandler.lookup each.header.proposerParent with
      | none =>
          have absent := Finmap.lookup_eq_none.mp waiting
          have finds : Alone crypto node [.testBucket each] node [.insertOrphan each] [] := by
            apply Alone.single
            · simp [Section.run, absent]
            · trivial
          apply finds.trans
          apply Alone.single
          · simp [Section.run, bufferOrphan, waiting]
          · trivial
      | some bucket =>
          have present := Finmap.mem_of_lookup_eq_some waiting
          have finds : Alone crypto node [.testBucket each] node [.pushOrphan each] [] := by
            apply Alone.single
            · simp [Section.run, present]
            · trivial
          apply finds.trans
          apply Alone.single
          · simp [Section.run, bufferOrphan, waiting]
          · trivial
  · next known =>
      have finds : Alone crypto node [.testParent each] node
          [.verify each each.content.proposerContent] [] := by
        apply Alone.single
        · simp [Section.run, not_not.mp known]
        · trivial
      exact tests.trans (finds.trans (alone_accept ran))

theorem alone_newParent (block : ProposerBlock) :
    Alone crypto node [.testWaiting (block.hash crypto)] (handleNewParent crypto node block).node
      ((handleNewParent crypto node block).todo.map (Task.first crypto))
      (handleNewParent crypto node block).sent := by
  rw [handleNewParent]
  cases waiting : node.orphanHandler.lookup (block.hash crypto) with
  | none =>
      have absent := Finmap.lookup_eq_none.mp waiting
      apply Alone.single
      · simp [Section.run, absent]
      · trivial
  | some vec =>
      have present := Finmap.mem_of_lookup_eq_some waiting
      have tests : Alone crypto node [.testWaiting (block.hash crypto)] node
          [.cloneWaiting (block.hash crypto)] [] := by
        apply Alone.single
        · simp [Section.run, present]
        · trivial
      have clones : Alone crypto node [.cloneWaiting (block.hash crypto)] node
          [.removeWaiting (block.hash crypto) vec] [] := by
        apply Alone.single
        · simp [Section.run, Node.read, waiting]
        · trivial
      apply tests.trans
      apply clones.trans
      apply Alone.single
      · simp [Section.run, Task.first]
      · trivial

theorem alone_of_run (ran : runTask crypto node task = .ok progress) :
    Alone crypto node [task.first crypto] progress.node
      (progress.todo.map (Task.first crypto)) progress.sent := by
  cases task with
  | addr each =>
      cases ran
      rw [handleAddr]
      split
      · next known =>
          apply Alone.single
          · simp [Task.first, Section.run, known]
          · trivial
      · next fresh =>
          have tests : Alone crypto node [.testAddr each] node [.pushAddr each] [] := by
            apply Alone.single
            · simp [Section.run, fresh]
            · trivial
          have pushes : Alone crypto node [.pushAddr each]
              { node with allAddr := node.allAddr ++ [each] } [.relayAddr] [] :=
            .single rfl trivial
          exact tests.trans (pushes.trans (.single rfl trivial))
  | ico genesisHash icoState =>
      cases ran
      rw [handleIco]
      split
      · next first =>
          have tests : Alone crypto node [.testState genesisHash icoState] node
              [.insertIco genesisHash icoState] [] := by
            apply Alone.single
            · simp [Section.run, first]
            · trivial
          exact tests.trans (.single rfl trivial)
      · next later =>
          apply Alone.single
          · simp [Task.first, Section.run, later]
          · trivial
  | announcedTransaction each | announcedTransactionBlock each | announcedProposerBlock each =>
      cases ran
      exact .single rfl trivial
  | requestedTransaction each =>
      cases ran
      apply alone_request (Section.giveTransaction each)
      · apply Alone.single
        · simp only [Task.first, Section.run, Finmap.lookup_isSome]
        · trivial
      · intro value found
        apply Alone.single
        · simp only [Section.run, found]
        · trivial
  | requestedTransactionBlock each =>
      cases ran
      apply alone_request (Section.giveTransactionBlock each)
      · apply Alone.single
        · simp only [Task.first, Section.run, Finmap.lookup_isSome]
        · trivial
      · intro value found
        apply Alone.single
        · simp only [Section.run, found]
        · trivial
  | requestedProposerBlock each =>
      cases ran
      apply alone_request (Section.giveProposerBlock each)
      · apply Alone.single
        · simp only [Task.first, Section.run, Finmap.lookup_isSome]
        · trivial
      · intro value found
        apply Alone.single
        · simp only [Section.run, found]
        · trivial
  | transaction tip each => exact alone_transaction ran
  | transactionBlock each =>
      cases ran
      have noTodo : (handleTransactionBlock crypto node each).todo = [] := by
        rw [handleTransactionBlock]
        split_ifs <;> rfl
      rw [noTodo]
      exact alone_transactionBlock each
  | proposerBlock each => exact alone_proposerBlock ran
  | newParent block =>
      cases ran
      exact alone_newParent block
  | orphan each => exact alone_accept ran

end Tasks

/-! ## Handlers -/

section Handlers

variable {node : Node}

theorem alone_of_runTasks (todo : List Task)
    (completed : (runTasks crypto node todo).panic = none) :
    Alone crypto node (todo.map (Task.first crypto)) (runTasks crypto node todo).node []
      (runTasks crypto node todo).sent := by
  fun_induction runTasks crypto node todo with
  | case1 node => exact .refl node []
  | case2 node task rest panicked ran => cases completed
  | case3 node task rest progress ran outcome ih =>
      have later : Alone crypto progress.node _ outcome.node [] outcome.sent := ih completed
      rw [List.map_append] at later
      exact ((alone_of_run ran).frame _).trans later

theorem alone_of_workerLoop (message : Message)
    (completed : (workerLoop crypto node message).panic = none) :
    Alone crypto node (Handler.sections crypto (.receive message))
      (workerLoop crypto node message).node [] (workerLoop crypto node message).sent := by
  have serves := alone_of_runTasks (message.tasks node) completed
  cases message with
  | transactions transactionVec =>
      let use := TipUse.transactions transactionVec
      have reads : Alone crypto node [.readTip use] node
          (Section.ofTip node.blockchain.tip use) [] := .single rfl trivial
      rw [Message.tasks, List.map_map] at serves
      exact reads.trans serves
  | ico genesisHash icoState => exact serves
  | newAddr addrVec | newTransactionHashes hashVec | getTransactions hashVec
  | newTransactionBlockHashes hashVec | getTransactionBlocks hashVec
  | transactionBlocks txBlockVec | newProposerBlockHashes hashVec | getProposerBlocks hashVec
  | proposerBlocks proposerBlockVec =>
      rw [Message.tasks, List.map_map] at serves
      exact serves

/-- The header that the miner puts together in two looks at the block of the tip. -/
theorem alone_header {draft : Draft} {header : Header}
    (onTip : draft.newParent = node.blockchain.tip)
    (built : newHeader crypto node draft.choice draft.transBlockContent draft.propsBlockContent =
      .ok header) :
    Alone crypto node [.transactionDifficulty draft] node (draft.mined crypto header) [] := by
  simp only [newHeader, bind_eq_ok, index_eq_ok] at built
  obtain ⟨tipBlock, found, transactionTree, builtTransaction, proposerTree, builtProposer,
    built⟩ := built
  rw [← onTip] at found built
  have reads : Alone crypto node [.transactionDifficulty draft] node
      [.proposerDifficulty draft tipBlock.header.transactionDifficulty] [] := by
    apply Alone.single
    · simp [Section.run, Node.read, found]
    · trivial
  apply reads.trans
  apply Alone.single
  · cases built
    simp [Section.run, Node.read, found, Draft.header, builtTransaction, builtProposer]
  · trivial

/-- An own block that references transaction blocks is published. -/
theorem alone_publish {after : Node} {newBlock : ProposerBlock} {pointedTxBlocks : List H256}
    {currState : Ledger}
    (published : publishProposerBlock crypto node newBlock pointedTxBlocks currState =
      .ok after) :
    Alone crypto node
      [.publishRef .miner newBlock (pointedTxBlocks ++ newBlock.content.proposerContent) currState]
      after [] [.broadcast (.newProposerBlockHashes [newBlock.hash crypto])] := by
  simp only [publishProposerBlock, bind_eq_ok, Node.attempt_eq_ok, index_eq_ok] at published
  obtain ⟨ledger, updated, txPool, pruned, inserted⟩ := published
  obtain ⟨blockchain, chained, rfl⟩ := Node.insertBlock_ok inserted
  let newRef := pointedTxBlocks ++ newBlock.content.proposerContent
  let referring :=
    { node with txBlockRef := node.txBlockRef.insert (newBlock.hash crypto) newRef }
  have refers : Alone crypto node [.publishRef .miner newBlock newRef currState] referring
      [.apply .miner newBlock currState newBlock.content.proposerContent] [] :=
    .single rfl trivial
  have applies : Alone crypto referring
      [.apply .miner newBlock currState newBlock.content.proposerContent] referring
      [.prunePool .miner newBlock ledger] [] := alone_apply .miner updated
  have prunes : Alone crypto referring [.prunePool .miner newBlock ledger] _ [] _ :=
    alone_prune .miner pruned chained
  exact refers.trans (applies.trans prunes)

theorem alone_of_minerLoop {choice : MinerChoice} {progress : Progress}
    (possible : choice.Possible node) (ran : minerLoop crypto node choice = .ok progress) :
    Alone crypto node (Handler.sections crypto (.mine choice)) progress.node []
      progress.sent := by
  simp only [minerLoop, bind_eq_ok, Node.attempt_eq_ok, index_eq_ok] at ran
  obtain ⟨currState, tipState, transBlockContent, selected, pointedTxBlocks, tipRef, header,
    built, ran⟩ := ran
  let tip := node.blockchain.tip
  let draft : Draft := { author := .miner, choice, newParent := tip, currState }
  let collected : Draft := { draft with
    transBlockContent
    pointedTxBlocks
    propsBlockContent := selectRefs pointedTxBlocks choice.txBlockOrder 0 }
  have reads : Alone crypto node [.readTip (.mine choice)] node
      [.minerState .miner choice tip] [] := .single rfl trivial
  have states : Alone crypto node [.minerState .miner choice tip] node
      [.selectTransactions draft] [] := by
    apply Alone.single
    · simp [Section.run, Node.read, tip, tipState, draft]
    · trivial
  have selects : Alone crypto node [.selectTransactions draft] node
      [.minerRef { draft with transBlockContent }] [] := by
    apply Alone.single
    · simp [Section.run, Node.read, draft, selected]
    · exact possible.1
  have refers : Alone crypto node [.minerRef { draft with transBlockContent }] node
      [.selectRefs { draft with transBlockContent, pointedTxBlocks }] [] := by
    apply Alone.single
    · simp [Section.run, Node.read, draft, tip, tipRef]
    · trivial
  have chooses : Alone crypto node
      [.selectRefs { draft with transBlockContent, pointedTxBlocks }] node
      [.transactionDifficulty collected] [] := .single rfl possible.2
  have heads : Alone crypto node [.transactionDifficulty collected] node
      (collected.mined crypto header) [] := alone_header rfl built
  have before : Alone crypto node [.readTip (.mine choice)] node
      (collected.mined crypto header) [] :=
    reads.trans (states.trans (selects.trans (refers.trans (chooses.trans heads))))
  have honest : Author.miner ≠ .attacker := by decide
  apply before.trans
  rw [Draft.mined]
  split at ran
  · next proposer =>
      rw [if_pos proposer]
      split at ran
      · next empty =>
          cases ran
          rw [if_pos ⟨empty, honest⟩]
          exact .refl node []
      · next full =>
          rw [if_neg (fun both => full both.1)]
          simp only [bind_eq_ok] at ran
          obtain ⟨after, published, ran⟩ := ran
          cases ran
          exact alone_publish published
  next notProposer =>
  rw [if_neg notProposer]
  split at ran
  · next transaction =>
      rw [if_pos transaction]
      split at ran
      · next empty =>
          cases ran
          rw [if_pos ⟨empty, honest⟩]
          exact .refl node []
      · next full =>
          rw [if_neg (fun both => full both.1)]
          cases ran
          exact alone_take ⟨header, ⟨transBlockContent⟩⟩
  · next nothing =>
      rw [if_neg nothing]
      cases ran
      exact .refl node []

theorem alone_of_minerLoopAttacker {choice : MinerChoice} {progress : Progress}
    (ran : minerLoopAttacker crypto node choice = .ok progress) :
    Alone crypto node (Handler.sections crypto (.mineAttacker choice)) progress.node []
      progress.sent := by
  simp only [minerLoopAttacker, bind_eq_ok, Node.attempt_eq_ok, index_eq_ok] at ran
  obtain ⟨currState, tipState, pointedTxBlocks, tipRef, header, built, ran⟩ := ran
  let tip := node.blockchain.tip
  let draft : Draft := { author := .attacker, choice, newParent := tip, currState }
  let collected : Draft := { draft with pointedTxBlocks }
  have reads : Alone crypto node [.readTip (.mineAttacker choice)] node
      [.minerState .attacker choice tip] [] := .single rfl trivial
  have states : Alone crypto node [.minerState .attacker choice tip] node
      [.minerRef draft] [] := by
    apply Alone.single
    · simp [Section.run, Node.read, tip, tipState, draft]
    · trivial
  have refers : Alone crypto node [.minerRef draft] node
      [.transactionDifficulty collected] [] := by
    apply Alone.single
    · simp [Section.run, Node.read, draft, collected, tip, tipRef]
    · trivial
  have heads : Alone crypto node [.transactionDifficulty collected] node
      (collected.mined crypto header) [] := alone_header rfl built
  have before : Alone crypto node [.readTip (.mineAttacker choice)] node
      (collected.mined crypto header) [] := reads.trans (states.trans (refers.trans heads))
  apply before.trans
  rw [Draft.mined]
  split at ran
  · next proposer =>
      rw [if_pos proposer, if_neg (fun both => both.2 rfl)]
      simp only [bind_eq_ok] at ran
      obtain ⟨after, inserted, ran⟩ := ran
      cases ran
      obtain ⟨blockchain, chained, rfl⟩ := Node.insertBlock_ok inserted
      let newBlock : ProposerBlock := ⟨header, ⟨[]⟩⟩
      let hash := newBlock.hash crypto
      let referring :=
        { node with txBlockRef := node.txBlockRef.insert hash (pointedTxBlocks ++ []) }
      have publishes : Alone crypto node
          [.publishRef .attacker newBlock (pointedTxBlocks ++ []) currState] referring
          [.insertState .attacker newBlock currState] [] := .single rfl trivial
      have copies : Alone crypto referring [.insertState .attacker newBlock currState]
          { referring with globState := node.globState.insert hash currState }
          [.insertBlock .attacker newBlock] [] := .single rfl trivial
      exact publishes.trans (copies.trans (alone_insert .attacker chained))
  next notProposer =>
  rw [if_neg notProposer]
  split at ran
  · next transaction =>
      rw [if_pos transaction, if_neg (fun both => both.2 rfl)]
      cases ran
      exact alone_take ⟨header, ⟨[]⟩⟩
  · next nothing =>
      rw [if_neg nothing]
      cases ran
      exact .refl node []

theorem alone_of_generateAddress (key : KeyPair) :
    Alone crypto node (Handler.sections crypto (.generateAddress key))
      (generateAddress crypto node key).node [] (generateAddress crypto node key).sent := by
  let addr := addressOf crypto (crypto.publicKey key)
  let keyed := { node with myAddrKey := node.myAddrKey.insert addr key }
  have inserts : Alone crypto node [.insertKey addr key] keyed [.pushAddr addr] [] :=
    .single rfl trivial
  have pushes : Alone crypto keyed [.pushAddr addr]
      { keyed with allAddr := node.allAddr ++ [addr] } [.relayAddr] [] := .single rfl trivial
  exact inserts.trans (pushes.trans (.single rfl trivial))

theorem alone_coins {genesisHash : H256} {left : Nat} (i : Nat) (state : Ledger)
    (total : i + left = node.allAddr.length) :
    Alone crypto node [.coins genesisHash state i left] node
      [.insertIco genesisHash (((node.allAddr.drop i).zipIdx i).foldl
        (fun state entry => state.insert (H256.zero, UInt32.ofNat entry.2) (1000, entry.1))
        state)] [] := by
  induction left generalizing i state with
  | zero =>
      rw [List.drop_eq_nil_of_le (by omega)]
      exact .refl node _
  | succ left ih =>
      have bound : i < node.allAddr.length := by omega
      have reads : Alone crypto node [.readCoin genesisHash state i left] node
          [.coins genesisHash
            (state.insert (H256.zero, UInt32.ofNat i) (1000, node.allAddr[i])) (i + 1) left]
          [] := by
        apply Alone.single
        · simp [Section.run, Node.read, bound]
        · trivial
      rw [List.drop_eq_getElem_cons bound, List.zipIdx_cons, List.foldl_cons]
      exact reads.trans (ih (i + 1) _ (by omega))

theorem alone_of_icoSignal :
    Alone crypto node (Handler.sections crypto .ico) (handleIcoSignal node).node []
      (handleIcoSignal node).sent := by
  let tip := node.blockchain.tip
  have reads : Alone crypto node [.readTip .ico] node [.countCoins tip] [] :=
    .single rfl trivial
  have counts : Alone crypto node [.countCoins tip] node
      [.coins tip ∅ 0 node.allAddr.length] [] := .single rfl trivial
  have hands : Alone crypto node [.coins tip ∅ 0 node.allAddr.length] node
      [.insertIco tip (icoState node.allAddr)] [] := alone_coins 0 ∅ (Nat.zero_add _)
  exact reads.trans (counts.trans (hands.trans (.single rfl trivial)))

theorem alone_of_generateFrom {currentState : Ledger} {draw : Draw} {coin : Coin}
    {after : Node} {sent : List Outgoing} (found : currentState.lookup draw.outpoint = some coin)
    (passed : generateFrom crypto node currentState draw = .ok (after, sent)) :
    Alone crypto node [.testOwned draw coin] after [] sent := by
  rw [generateFrom, bind_eq_ok] at passed
  obtain ⟨value, entry, passed⟩ := passed
  rw [index_eq_ok, found] at entry
  obtain rfl := Option.some.inj entry
  split at passed
  · next foreign =>
      cases passed
      have absent := Finmap.lookup_eq_none.mp foreign
      apply Alone.single
      · simp [Section.run, absent]
      · trivial
  next key owned =>
  have present := Finmap.mem_of_lookup_eq_some owned
  split at passed
  · next zero =>
      cases passed
      apply Alone.single
      · simp [Section.run, zero]
      · trivial
  next nonzero =>
  simp only [bind_eq_ok, index_eq_ok] at passed
  obtain ⟨newTrans, built, passed⟩ := passed
  cases passed
  have tests : Alone crypto node [.testOwned draw coin] node [.countAddr draw coin] [] := by
    apply Alone.single
    · simp [Section.run, present, nonzero]
    · trivial
  simp only [buildTransaction, Option.bind_eq_bind, Option.bind_eq_some_iff] at built
  obtain ⟨dest, chosen, built⟩ := built
  let destIdx := draw.dest.toNat % node.allAddr.length
  have counts : Alone crypto node [.countAddr draw coin] node
      [.pickAddr draw coin destIdx] [] := by
    have some : node.allAddr.length ≠ 0 := by
      intro none
      rw [List.length_eq_zero_iff.mp none] at chosen
      cases chosen
    apply Alone.single
    · simp only [Section.run, if_neg some, destIdx]
    · trivial
  have picks : Alone crypto node [.pickAddr draw coin destIdx] node
      [.readKey draw coin dest] [] := by
    apply Alone.single
    · simp only [Section.run, Node.read, destIdx, chosen]
    · trivial
  have builds : Alone crypto node [.readKey draw coin dest] node
      [.insertGenerated newTrans] [] := by
    have alike : buildTransaction crypto [dest] key draw coin = some newTrans := by
      simpa [buildTransaction, Nat.mod_one] using built
    apply Alone.single
    · simp [Section.run, Node.read, owned, alike]
    · trivial
  exact tests.trans (counts.trans (picks.trans (builds.trans (.single rfl trivial))))

theorem alone_of_generateAll {currentState : Ledger} (draws : List Draw)
    (covered : ∀ draw ∈ draws, draw.outpoint ∈ currentState)
    (completed : (generateAll crypto node currentState draws).panic = none) :
    Alone crypto node
      (draws.filterMap fun draw => (currentState.lookup draw.outpoint).map (.testOwned draw))
      (generateAll crypto node currentState draws).node []
      (generateAll crypto node currentState draws).sent := by
  induction draws generalizing node with
  | nil => exact .refl node []
  | cons draw draws ih =>
      obtain ⟨coin, found⟩ := Finmap.mem_iff.mp (covered draw (List.mem_cons_self ..))
      have others : ∀ other ∈ draws, other.outpoint ∈ currentState :=
        fun other member => covered other (List.mem_cons_of_mem _ member)
      rw [List.filterMap_cons, found]
      rw [generateAll] at completed ⊢
      split at completed
      · cases completed
      · next next sent passed =>
          exact ((alone_of_generateFrom found passed).frame _).trans (ih others completed)

theorem alone_of_generatorLoop {draws : List Draw} (possible : DrawsPossible node draws)
    (completed : (generatorLoop crypto node draws).panic = none) :
    Alone crypto node (Handler.sections crypto (.generate draws))
      (generatorLoop crypto node draws).node [] (generatorLoop crypto node draws).sent := by
  rw [generatorLoop] at completed ⊢
  split at completed
  · cases completed
  next currentState tipState =>
  have enumerates : HashMap.Enumerates currentState (draws.map Draw.outpoint) :=
    possible currentState tipState
  have covered : ∀ draw ∈ draws, draw.outpoint ∈ currentState := by
    intro draw member
    have key : draw.outpoint ∈ currentState.keys.val := by
      rw [← enumerates]
      exact List.mem_map_of_mem member
    exact Finmap.mem_keys.mp key
  have reads : Alone crypto node [.readTip (.generate draws)] node
      [.generatorState node.blockchain.tip draws] [] := .single rfl trivial
  have states : Alone crypto node [.generatorState node.blockchain.tip draws] node
      (draws.filterMap fun draw => (currentState.lookup draw.outpoint).map (.testOwned draw))
      [] := by
    apply Alone.single
    · simp only [Section.run, Node.read, tipState]
    · exact possible
  exact reads.trans (states.trans (alone_of_generateAll draws covered completed))

end Handlers

/-! ## A thread alone -/

namespace Threads

variable {Thread : Type*} [DecidableEq Thread]
variable {threads : Threads Thread} {thread : Thread} {after : Node}
variable {todo left : List Section} {sent : List Outgoing} {handler : Handler}

/-- The sections of a thread that is alone are steps of the threads. -/
theorem runs_alone (alone : Alone crypto threads.node todo after left sent)
    (busy : threads.status thread = .running todo) :
    ∃ sections, runActions (step crypto) threads (List.replicate sections (.run thread)) =
      some ⟨after, Function.update threads.status thread (.running left)⟩ := by
  obtain ⟨node, status⟩ := threads
  simp only at alone busy ⊢
  induction alone generalizing status with
  | refl node todo =>
      refine ⟨0, ?_⟩
      rw [← busy, Function.update_eq_self]
      rfl
  | @run node after current new rest left sent possible goesOn later ih =>
      obtain ⟨sections, ran⟩ :=
        ih (Function.update status thread (.running (new ++ rest))) (Function.update_self ..)
      refine ⟨sections + 1, ?_⟩
      rw [Function.update_idem] at ran
      have stepped : step crypto ⟨node, status⟩ (.run thread) =
          some ⟨(current.run crypto node).node,
            Function.update status thread (.running (new ++ rest))⟩ := by
        simp [step, busy, possible, Passed.status, goesOn]
      rw [List.replicate_succ, runActions, stepped]
      exact ran

/-- A handler that no other thread interrupts takes the maps where the definitions
for a single thread say, and leaves its thread idle. -/
theorem handles_alone (idle : threads.status thread = .running [])
    (alone : Alone crypto threads.node (handler.sections crypto) after [] sent) :
    ∃ sections, runActions (step crypto) threads
        (.handle thread handler :: List.replicate sections (.run thread)) =
      some { threads with node := after } := by
  let turned : Threads Thread := { threads with
    status := Function.update threads.status thread (.running (handler.sections crypto)) }
  have busy : turned.status thread = .running (handler.sections crypto) := Function.update_self ..
  have runs : ∃ sections, runActions (step crypto) turned (List.replicate sections (.run thread)) =
      some ⟨after, Function.update turned.status thread (.running [])⟩ := runs_alone alone busy
  obtain ⟨sections, ran⟩ := runs
  refine ⟨sections, ?_⟩
  have stepped : step crypto threads (.handle thread handler) = some turned := by
    simp [step, idle, turned]
  rw [runActions, stepped]
  rw [Function.update_idem, ← idle, Function.update_eq_self] at ran
  exact ran

theorem serves_alone (idle : threads.status thread = .running []) (message : Message)
    (completed : (workerLoop crypto threads.node message).panic = none) :
    ∃ sections, runActions (step crypto) threads
        (.handle thread (.receive message) :: List.replicate sections (.run thread)) =
      some { threads with node := (workerLoop crypto threads.node message).node } :=
  handles_alone idle (alone_of_workerLoop message completed)

theorem mines_alone {choice : MinerChoice} {progress : Progress}
    (idle : threads.status thread = .running []) (possible : choice.Possible threads.node)
    (ran : minerLoop crypto threads.node choice = .ok progress) :
    ∃ sections, runActions (step crypto) threads
        (.handle thread (.mine choice) :: List.replicate sections (.run thread)) =
      some { threads with node := progress.node } :=
  handles_alone idle (alone_of_minerLoop possible ran)

end Threads

end SimplifiedPrism
