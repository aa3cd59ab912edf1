import SimplifiedPrism.Threads

/-!
# The order of publication

A block enters the tree in the last of several sections: its references, its
ledger and the block itself are written one after the other, by several threads
and in four places of the source.  What a thread has written so far, and what it
knows of the tree, is read off the section it is about to run; no section of
another thread takes it back.  Hence every block in the tree has its ledger and
its references, whatever the order of the sections.
-/

namespace SimplifiedPrism

variable {crypto : Crypto}

/-! ## What a section writes -/

/-- Everything a section can write. -/
inductive Writes (crypto : Crypto) (node : Node) : Section → Node → Prop
  | beside (current : Section) (after : Node) (blockchain : after.blockchain = node.blockchain)
      (orphanHandler : after.orphanHandler = node.orphanHandler)
      (globState : after.globState = node.globState)
      (txBlockRef : after.txBlockRef = node.txBlockRef) : Writes crypto node current after
  | ico (genesisHash : H256) (icoState : Ledger) :
      Writes crypto node (.insertIco genesisHash icoState)
        { node with globState := node.globState.insert genesisHash icoState }
  | push (each : ProposerBlock) (bucket : List ProposerBlock)
      (waiting : node.orphanHandler.lookup each.header.proposerParent = some bucket) :
      Writes crypto node (.pushOrphan each)
        { node with orphanHandler :=
            node.orphanHandler.insert each.header.proposerParent (bucket ++ [each]) }
  | create (each : ProposerBlock) :
      Writes crypto node (.insertOrphan each)
        { node with orphanHandler := node.orphanHandler.insert each.header.proposerParent [each] }
  | release (hash : H256) (vec : List ProposerBlock) :
      Writes crypto node (.removeWaiting hash vec)
        { node with orphanHandler := node.orphanHandler.erase hash }
  | genesisRef (genesis : H256) :
      Writes crypto node (.insertGenesisRef genesis)
        { node with txBlockRef := node.txBlockRef.insert genesis [] }
  | ref (each : ProposerBlock) (newRef : List H256) :
      Writes crypto node (.insertRef each newRef)
        { node with txBlockRef := node.txBlockRef.insert (each.hash crypto) newRef }
  | ownRef (author : Author) (newBlock : ProposerBlock) (concatenated : List H256)
      (currState : Ledger) :
      Writes crypto node (.publishRef author newBlock concatenated currState)
        { node with txBlockRef := node.txBlockRef.insert (newBlock.hash crypto) concatenated }
  | state (author : Author) (each : ProposerBlock) (currState : Ledger) :
      Writes crypto node (.insertState author each currState)
        { node with globState := node.globState.insert (each.hash crypto) currState }
  | block (author : Author) (each : ProposerBlock) (blockchain : Blockchain)
      (inserted : node.blockchain.insert crypto each = .ok blockchain) :
      Writes crypto node (.insertBlock author each) { node with blockchain }
  | half (author : Author) (each : ProposerBlock) (blockchain : Blockchain)
      (failed : node.blockchain.insert crypto each = .error blockchain) :
      Writes crypto node (.insertBlock author each) { node with blockchain }

section Writes

variable {node : Node} {current : Section}

theorem Writes.nothing : Writes crypto node current node :=
  .beside current node rfl rfl rfl rfl

theorem writes_of_run : Writes crypto node current (current.run crypto node).node := by
  cases current with
  | insertIco genesisHash icoState => exact .ico genesisHash icoState
  | insertOrphan each => exact .create each
  | removeWaiting hash vec => exact .release hash vec
  | insertGenesisRef genesis => exact .genesisRef genesis
  | insertRef each newRef => exact .ref each newRef
  | publishRef author newBlock concatenated currState => exact .ownRef author newBlock _ currState
  | insertState author each currState => exact .state author each currState
  | pushOrphan each =>
      cases waiting : node.orphanHandler.lookup each.header.proposerParent with
      | none => simpa [Section.run, waiting] using Writes.nothing
      | some bucket => simpa [Section.run, waiting] using Writes.push each bucket waiting
  | insertBlock author each =>
      cases inserted : node.blockchain.insert crypto each with
      | ok blockchain => simpa [Section.run, inserted] using Writes.block author each _ inserted
      | error blockchain => simpa [Section.run, inserted] using Writes.half author each _ inserted
  | pushAddr _ | insertTransaction _ | removePooled _ | insertTransactionBlock _ | insertKey _ _
  | insertGenerated _ => exact .beside _ _ rfl rfl rfl rfl
  | prunePool author each currState =>
      rw [Section.run]
      split
      · exact .nothing
      · exact .beside _ _ rfl rfl rfl rfl
  | giveTransaction _ | checkTransaction _ _ | giveTransactionBlock _ | giveProposerBlock _
  | applyRef _ _ _ _ _ | proposerDifficulty _ _ | countAddr _ _ =>
      rw [Section.run]
      split
      · exact .nothing
      · simpa using Writes.nothing
  | readTip _ | testAddr _ | relayAddr | testState _ _ | announcedTransaction _
  | requestedTransaction _ | testTransaction _ _ | announcedTransactionBlock _
  | requestedTransactionBlock _ | testTransactionBlock _ | testPooled _
  | announcedProposerBlock _ | requestedProposerBlock _ | testBlock _ | testParent _
  | testBucket _ | verifyRef _ _ _ | readRef _ | readState _ | testWaiting _ | cloneWaiting _
  | minerState _ _ _ | selectTransactions _ | minerRef _ | selectRefs _ | transactionDifficulty _
  | countCoins _ | readCoin _ _ _ _ | generatorState _ _ | testOwned _ _ | pickAddr _ _ _
  | readKey _ _ _ | inspectState _ => simpa [Section.run] using Writes.nothing

end Writes

/-! ## What a section leads to -/

/-- The section neither reads nor writes an entry of a block of the tree. -/
def Section.Beside : Section → Prop
  | .testAddr _ | .pushAddr _ | .relayAddr | .insertIco _ _ | .giveTransaction _
  | .insertTransaction _ | .giveTransactionBlock _ | .testPooled _ | .removePooled _
  | .insertTransactionBlock _ | .countCoins _ | .readCoin _ _ _ _ | .testOwned _ _
  | .countAddr _ _ | .pickAddr _ _ _ | .readKey _ _ _ | .insertGenerated _ => True
  | _ => False

/-- The section hands out the coins of an offering. -/
def Section.HandsOut : Section → Prop
  | .insertIco _ _ | .countCoins _ | .readCoin _ _ _ _ => True
  | _ => False

/-- The section reads no address or key that it relies on. -/
def Section.ReadsNone : Section → Prop
  | .readCoin _ _ _ _ | .countAddr _ _ | .pickAddr _ _ _ | .readKey _ _ _ => False
  | _ => True

/-- The section leads to none that reads an address or a key. -/
def Section.Silent : Section → Prop
  | .countCoins _ | .readCoin _ _ _ _ | .testOwned _ _ | .countAddr _ _ | .pickAddr _ _ _ => False
  | _ => True

/-- A section can lead to another beside the tree. -/
structure Section.Enters (node : Node) (current next : Section) : Prop where
  beside : next.Beside
  unoffered : next.HandsOut → current.HandsOut ∨ node.globState = ∅
  readsNone : current.Silent → next.ReadsNone

/-- Every section that a section can lead to, with the maps after it and what it has
found out. -/
inductive Leads (crypto : Crypto) (node : Node) : Section → Node → Section → Prop
  | beside (current : Section) (after : Node) (next : Section)
      (enters : current.Enters node next) : Leads crypto node current after next
  | tip (use : TipUse) (next : Section) (member : next ∈ Section.ofTip node.blockchain.tip use) :
      Leads crypto node (.readTip use) node next
  | check (tip : H256) (each : SignedTransaction) :
      Leads crypto node (.testTransaction tip each) node (.checkTransaction tip each)
  | give (each : H256) (present : each ∈ node.blockchain.blocks) :
      Leads crypto node (.requestedProposerBlock each) node (.giveProposerBlock each)
  | new (each : ProposerBlock) : Leads crypto node (.testBlock each) node (.testParent each)
  | rooted (each : ProposerBlock)
      (parent : each.header.proposerParent ∈ node.blockchain.blocks) :
      Leads crypto node (.testParent each) node (.verify each each.content.proposerContent)
  | orphan (each : ProposerBlock) : Leads crypto node (.testParent each) node (.testBucket each)
  | push (each : ProposerBlock) : Leads crypto node (.testBucket each) node (.pushOrphan each)
  | make (each : ProposerBlock) : Leads crypto node (.testBucket each) node (.insertOrphan each)
  | signed (each : ProposerBlock) (ref : H256) (refs : List H256) :
      Leads crypto node (.verifyRef each ref refs) node (.verify each refs)
  | merge (each : ProposerBlock) (parentRef : List H256)
      (found : node.txBlockRef.lookup each.header.proposerParent = some parentRef) :
      Leads crypto node (.readRef each) node
        (.insertRef each (mergeRef parentRef each.content.proposerContent))
  | ref (each : ProposerBlock) (newRef : List H256) :
      Leads crypto node (.insertRef each newRef)
        { node with txBlockRef := node.txBlockRef.insert (each.hash crypto) newRef }
        (.readState each)
  | base (each : ProposerBlock) (currState : Ledger)
      (found : node.globState.lookup each.header.proposerParent = some currState) :
      Leads crypto node (.readState each) node
        (.apply .worker each currState each.content.proposerContent)
  | apply (author : Author) (each : ProposerBlock) (currState ledger : Ledger) (ref : H256)
      (refs : List H256) (txBlock : TXBlock) (found : node.txBlockPool.lookup ref = some txBlock)
      (applied : applyTransactions crypto currState txBlock.content.transactionContent =
        some ledger) :
      Leads crypto node (.applyRef author each currState ref refs) node
        (.apply author each ledger refs)
  | prune (author : Author) (each : ProposerBlock) (currState : Ledger)
      (txPool : HashMap H256 SignedTransaction) :
      Leads crypto node (.prunePool author each currState) { node with txPool }
        (.insertState author each currState)
  | state (author : Author) (each : ProposerBlock) (currState : Ledger) :
      Leads crypto node (.insertState author each currState)
        { node with globState := node.globState.insert (each.hash crypto) currState }
        (.insertBlock author each)
  | block (author : Author) (each : ProposerBlock) (blockchain : Blockchain)
      (inserted : node.blockchain.insert crypto each = .ok blockchain) :
      Leads crypto node (.insertBlock author each) { node with blockchain }
        (.testWaiting (each.hash crypto))
  | waits (hash : H256) : Leads crypto node (.testWaiting hash) node (.cloneWaiting hash)
  | clone (hash : H256) (vec : List ProposerBlock)
      (waiting : node.orphanHandler.lookup hash = some vec) :
      Leads crypto node (.cloneWaiting hash) node (.removeWaiting hash vec)
  | release (hash : H256) (vec : List ProposerBlock) (each : ProposerBlock) (member : each ∈ vec) :
      Leads crypto node (.removeWaiting hash vec)
        { node with orphanHandler := node.orphanHandler.erase hash }
        (.verify each each.content.proposerContent)
  | attack (author : Author) (choice : MinerChoice) (newParent : H256) (currState : Ledger)
      (found : node.globState.lookup newParent = some currState) :
      Leads crypto node (.minerState author choice newParent) node
        (.minerRef { author, choice, newParent, currState })
  | draft (author : Author) (choice : MinerChoice) (newParent : H256) (currState : Ledger)
      (found : node.globState.lookup newParent = some currState) :
      Leads crypto node (.minerState author choice newParent) node
        (.selectTransactions { author, choice, newParent, currState })
  | transactions (draft : Draft) (transBlockContent : List SignedTransaction) :
      Leads crypto node (.selectTransactions draft) node
        (.minerRef { draft with transBlockContent })
  | pointed (draft : Draft) (pointedTxBlocks : List H256) (honest : draft.author ≠ .attacker)
      (found : node.txBlockRef.lookup draft.newParent = some pointedTxBlocks) :
      Leads crypto node (.minerRef draft) node (.selectRefs { draft with pointedTxBlocks })
  | unselected (draft : Draft) (pointedTxBlocks : List H256) (attacks : draft.author = .attacker)
      (found : node.txBlockRef.lookup draft.newParent = some pointedTxBlocks) :
      Leads crypto node (.minerRef draft) node
        (.transactionDifficulty { draft with pointedTxBlocks })
  | refs (draft : Draft) :
      Leads crypto node (.selectRefs draft) node (.transactionDifficulty { draft with
        propsBlockContent :=
          SimplifiedPrism.selectRefs draft.pointedTxBlocks draft.choice.txBlockOrder 0 })
  | threshold (draft : Draft) (difficulty : H256) :
      Leads crypto node (.transactionDifficulty draft) node (.proposerDifficulty draft difficulty)
  | mined (draft : Draft) (difficulty : H256) (header : Header)
      (parent : header.proposerParent = draft.newParent) :
      Leads crypto node (.proposerDifficulty draft difficulty) node
        (.publishRef draft.author ⟨header, ⟨draft.propsBlockContent⟩⟩
          (draft.pointedTxBlocks ++ draft.propsBlockContent) draft.currState)
  | copy (author : Author) (newBlock : ProposerBlock) (concatenated : List H256)
      (currState : Ledger) (attacks : author = .attacker) :
      Leads crypto node (.publishRef author newBlock concatenated currState)
        { node with txBlockRef := node.txBlockRef.insert (newBlock.hash crypto) concatenated }
        (.insertState author newBlock currState)
  | own (author : Author) (newBlock : ProposerBlock) (concatenated : List H256)
      (currState : Ledger) :
      Leads crypto node (.publishRef author newBlock concatenated currState)
        { node with txBlockRef := node.txBlockRef.insert (newBlock.hash crypto) concatenated }
        (.apply author newBlock currState newBlock.content.proposerContent)

section Leads

variable {node : Node} {current next : Section} {todo : List Section}

theorem Section.Enters.of_readsNone (beside : next.Beside) (keeps : ¬ next.HandsOut)
    (readsNone : next.ReadsNone) : current.Enters node next :=
  ⟨beside, fun handsOut => absurd handsOut keeps, fun _ => readsNone⟩

/-- After the transactions of a block have left the mempool it enters its pool. -/
theorem enters_take {txs : List SignedTransaction} {each : TXBlock}
    (member : next ∈ txs.map (fun tx => .testPooled (tx.hash crypto)) ++
      [.insertTransactionBlock each]) : current.Enters node next := by
  rcases List.mem_append.mp member with pooled | last
  · obtain ⟨tx, -, rfl⟩ := List.mem_map.mp pooled
    exact .of_readsNone trivial id trivial
  · rw [List.mem_singleton.mp last]
    exact .of_readsNone trivial id trivial

theorem enters_coins (genesisHash : H256) (icoState : Ledger) (i left : Nat)
    (handsOut : current.HandsOut) (speaks : ¬ current.Silent) :
    current.Enters node (.coins genesisHash icoState i left) := by
  refine ⟨?_, fun _ => .inl handsOut, fun silent => absurd silent speaks⟩
  cases left with
  | zero => trivial
  | succ left => trivial

theorem parent_of_header {draft : Draft} {difficulty other : H256} {header : Header}
    (built : draft.header crypto difficulty other = some header) :
    header.proposerParent = draft.newParent := by
  simp only [Draft.header, Option.bind_eq_bind, Option.bind_eq_some_iff, Option.pure_def,
    Option.some.injEq] at built
  obtain ⟨_, -, _, -, rfl⟩ := built
  rfl

/-- What the miner goes on with, after a header has won or lost. -/
theorem leads_of_mined {draft : Draft} {difficulty : H256} {header : Header}
    (parent : header.proposerParent = draft.newParent) (member : next ∈ draft.mined crypto header) :
    Leads crypto node (.proposerDifficulty draft difficulty) node next := by
  rw [Draft.mined] at member
  split at member
  · split at member
    · cases member
    · rw [List.mem_singleton.mp member]
      exact .mined draft difficulty header parent
  · split at member
    · split at member
      · cases member
      · exact .beside _ _ _ (enters_take member)
    · cases member

/-- A section beside the tree leads to such sections only. -/
theorem Section.Beside.enters (beside : current.Beside)
    (goesOn : (current.run crypto node).next = .ok todo) (member : next ∈ todo) :
    current.Enters node next := by
  cases current with
  | relayAddr | insertIco _ _ | insertTransaction _ | removePooled _ | insertTransactionBlock _
  | insertGenerated _ =>
      obtain rfl := Except.ok.inj goesOn
      cases member
  | pushAddr _ =>
      obtain rfl := Except.ok.inj goesOn
      rw [List.mem_singleton.mp member]
      exact .of_readsNone trivial id trivial
  | testAddr _ | testPooled _ =>
      obtain rfl := Except.ok.inj goesOn
      apply Section.Enters.of_readsNone
      all_goals
        split at member
        all_goals simp_all [Section.Beside, Section.HandsOut, Section.ReadsNone]
  | testOwned draw coin =>
      obtain rfl := Except.ok.inj goesOn
      split at member
      · rw [List.mem_singleton.mp member]
        exact ⟨trivial, False.elim, False.elim⟩
      · cases member
  | giveTransaction _ | giveTransactionBlock _ =>
      rw [Section.run] at goesOn
      split at goesOn
      · cases goesOn
      · obtain rfl := Except.ok.inj goesOn
        cases member
  | countCoins genesisHash =>
      obtain rfl := Except.ok.inj goesOn
      rw [List.mem_singleton.mp member]
      exact enters_coins _ _ _ _ trivial id
  | readCoin genesisHash icoState i left =>
      obtain ⟨addr, -, rfl⟩ := read_eq_ok goesOn
      rw [List.mem_singleton.mp member]
      exact enters_coins _ _ _ _ trivial id
  | countAddr draw coin =>
      rw [Section.run] at goesOn
      split at goesOn
      · cases goesOn
      · obtain rfl := Except.ok.inj goesOn
        rw [List.mem_singleton.mp member]
        exact ⟨trivial, False.elim, False.elim⟩
  | pickAddr draw coin destIdx =>
      obtain ⟨dest, -, rfl⟩ := read_eq_ok goesOn
      rw [List.mem_singleton.mp member]
      exact ⟨trivial, False.elim, False.elim⟩
  | readKey draw coin dest =>
      obtain ⟨key, -, rfl⟩ := read_eq_ok goesOn
      obtain ⟨tx, -, rfl⟩ := List.mem_map.mp member
      exact .of_readsNone trivial id trivial
  | _ => cases beside

/-- A section that does not panic leads to what is listed. -/
theorem leads_of_run (goesOn : (current.run crypto node).next = .ok todo) (member : next ∈ todo) :
    Leads crypto node current (current.run crypto node).node next := by
  cases current with
  | readTip use =>
      obtain rfl := Except.ok.inj goesOn
      exact .tip use next member
  | testAddr _ | pushAddr _ | relayAddr | insertIco _ _ | giveTransaction _
  | insertTransaction _ | giveTransactionBlock _ | testPooled _ | removePooled _
  | insertTransactionBlock _ | countCoins _ | readCoin _ _ _ _ | testOwned _ _
  | countAddr _ _ | pickAddr _ _ _ | readKey _ _ _ | insertGenerated _ =>
      exact .beside _ _ _ (Section.Beside.enters (by trivial) goesOn member)
  | announcedTransaction _ | announcedTransactionBlock _ | announcedProposerBlock _
  | pushOrphan _ | insertOrphan _ | insertGenesisRef _ =>
      obtain rfl := Except.ok.inj goesOn
      cases member
  | insertKey _ _ =>
      obtain rfl := Except.ok.inj goesOn
      rw [List.mem_singleton.mp member]
      exact .beside _ _ _ (.of_readsNone trivial id trivial)
  | testState _ _ =>
      obtain rfl := Except.ok.inj goesOn
      split at member
      · next unoffered =>
          rw [List.mem_singleton.mp member]
          exact .beside _ _ _ ⟨trivial, fun _ => .inr unoffered, fun _ => trivial⟩
      · cases member
  | requestedTransaction _ | requestedTransactionBlock _ =>
      obtain rfl := Except.ok.inj goesOn
      split at member
      · rw [List.mem_singleton.mp member]
        exact .beside _ _ _ (.of_readsNone trivial id trivial)
      · cases member
  | testTransaction tip each =>
      obtain rfl := Except.ok.inj goesOn
      split at member
      · rw [List.mem_singleton.mp member]
        exact .check tip each
      · cases member
  | testTransactionBlock each =>
      obtain rfl := Except.ok.inj goesOn
      split at member
      · cases member
      · exact .beside _ _ _ (enters_take member)
  | requestedProposerBlock each =>
      obtain rfl := Except.ok.inj goesOn
      split at member
      · next present =>
          rw [List.mem_singleton.mp member]
          exact .give each present
      · cases member
  | testBlock each =>
      obtain rfl := Except.ok.inj goesOn
      split at member
      · cases member
      · rw [List.mem_singleton.mp member]
        exact .new each
  | testParent each =>
      obtain rfl := Except.ok.inj goesOn
      split at member
      · next parent =>
          rw [List.mem_singleton.mp member]
          exact .rooted each parent
      · rw [List.mem_singleton.mp member]
        exact .orphan each
  | testBucket each =>
      obtain rfl := Except.ok.inj goesOn
      split at member
      · rw [List.mem_singleton.mp member]
        exact .push each
      · rw [List.mem_singleton.mp member]
        exact .make each
  | giveProposerBlock _ =>
      rw [Section.run] at goesOn
      split at goesOn
      · cases goesOn
      · obtain rfl := Except.ok.inj goesOn
        cases member
  | checkTransaction tip each =>
      rw [Section.run] at goesOn
      split at goesOn
      · cases goesOn
      · obtain ⟨passes, -, rfl⟩ := read_eq_ok goesOn
        split at member
        · rw [List.mem_singleton.mp member]
          exact .beside _ _ _ (.of_readsNone trivial id trivial)
        · cases member
  | verifyRef each ref refs =>
      rw [Section.run, Node.read_node]
      obtain ⟨txBlock, -, rfl⟩ := read_eq_ok goesOn
      split at member
      · rw [List.mem_singleton.mp member]
        exact .signed each ref refs
      · cases member
  | readRef each =>
      rw [Section.run, Node.read_node]
      obtain ⟨parentRef, found, rfl⟩ := read_eq_ok goesOn
      rw [List.mem_singleton.mp member]
      exact .merge each parentRef found
  | insertRef each newRef =>
      obtain rfl := Except.ok.inj goesOn
      rw [List.mem_singleton.mp member]
      exact .ref each newRef
  | readState each =>
      rw [Section.run, Node.read_node]
      obtain ⟨currState, found, rfl⟩ := read_eq_ok goesOn
      rw [List.mem_singleton.mp member]
      exact .base each currState found
  | applyRef author each currState ref refs =>
      simp only [Section.run] at goesOn ⊢
      split at goesOn
      · cases goesOn
      · next txBlock found =>
          obtain ⟨ledger, applied, rfl⟩ := read_eq_ok goesOn
          rw [List.mem_singleton.mp member, Node.read_node]
          exact .apply author each currState ledger ref refs txBlock found applied
  | prunePool author each currState =>
      simp only [Section.run] at goesOn ⊢
      split at goesOn
      · cases goesOn
      · next txPool _ =>
          obtain rfl := Except.ok.inj goesOn
          rw [List.mem_singleton.mp member]
          exact .prune author each currState txPool
  | insertState author each currState =>
      obtain rfl := Except.ok.inj goesOn
      rw [List.mem_singleton.mp member]
      exact .state author each currState
  | insertBlock author each =>
      simp only [Section.run] at goesOn ⊢
      split at goesOn
      · cases goesOn
      · next blockchain inserted =>
          obtain rfl := Except.ok.inj goesOn
          split at member
          · rw [List.mem_singleton.mp member]
            exact .block author each blockchain inserted
          · cases member
  | testWaiting hash =>
      obtain rfl := Except.ok.inj goesOn
      split at member
      · rw [List.mem_singleton.mp member]
        exact .waits hash
      · cases member
  | cloneWaiting hash =>
      rw [Section.run, Node.read_node]
      obtain ⟨vec, waiting, rfl⟩ := read_eq_ok goesOn
      rw [List.mem_singleton.mp member]
      exact .clone hash vec waiting
  | removeWaiting hash vec =>
      obtain rfl := Except.ok.inj goesOn
      obtain ⟨each, waits, rfl⟩ := List.mem_map.mp member
      exact .release hash vec each waits
  | minerState author choice newParent =>
      rw [Section.run, Node.read_node]
      obtain ⟨currState, found, rfl⟩ := read_eq_ok goesOn
      rw [List.mem_singleton.mp member]
      split
      · exact .attack author choice newParent currState found
      · exact .draft author choice newParent currState found
  | selectTransactions draft =>
      rw [Section.run, Node.read_node]
      obtain ⟨content, -, rfl⟩ := read_eq_ok goesOn
      rw [List.mem_singleton.mp member]
      exact .transactions draft content
  | minerRef draft =>
      rw [Section.run, Node.read_node]
      obtain ⟨pointedTxBlocks, found, rfl⟩ := read_eq_ok goesOn
      rw [List.mem_singleton.mp member]
      split
      · next attacks => exact .unselected draft pointedTxBlocks attacks found
      · next honest => exact .pointed draft pointedTxBlocks honest found
  | selectRefs draft =>
      obtain rfl := Except.ok.inj goesOn
      rw [List.mem_singleton.mp member]
      exact .refs draft
  | transactionDifficulty draft =>
      rw [Section.run, Node.read_node]
      obtain ⟨block, -, rfl⟩ := read_eq_ok goesOn
      rw [List.mem_singleton.mp member]
      exact .threshold draft _
  | proposerDifficulty draft difficulty =>
      simp only [Section.run] at goesOn ⊢
      split at goesOn
      · cases goesOn
      · obtain ⟨header, built, rfl⟩ := read_eq_ok goesOn
        rw [Node.read_node]
        exact leads_of_mined (parent_of_header built) member
  | publishRef author newBlock concatenated currState =>
      obtain rfl := Except.ok.inj goesOn
      rw [List.mem_singleton.mp member]
      split
      · next attacks => exact .copy author newBlock concatenated currState attacks
      · exact .own author newBlock concatenated currState
  | generatorState tip draws =>
      obtain ⟨currentState, -, rfl⟩ := read_eq_ok goesOn
      obtain ⟨draw, -, drawn⟩ := List.mem_filterMap.mp member
      obtain ⟨coin, -, rfl⟩ := Option.map_eq_some_iff.mp drawn
      exact .beside _ _ _ (.of_readsNone trivial id trivial)
  | inspectState tip =>
      obtain ⟨_, -, rfl⟩ := read_eq_ok goesOn
      cases member

end Leads

/-! ## What a thread has published -/

/-- The tree is well formed, orphans wait under their parent, and every block of
the tree has a ledger and references. -/
structure Node.Ordered (crypto : Crypto) (node : Node) : Prop where
  chain : node.blockchain.WellFormed crypto
  waiting : ∀ parent bucket, node.orphanHandler.lookup parent = some bucket →
    ∀ block ∈ bucket, block.header.proposerParent = parent
  published : node.Published

/-- What the thread has published, and what it knows to be in the tree, before it
runs a section. -/
def Section.Accounted (crypto : Crypto) (node : Node) : Section → Prop
  | .testTransaction tip _ | .checkTransaction tip _ | .generatorState tip _
  | .inspectState tip | .minerState _ _ tip => tip ∈ node.blockchain.blocks
  | .selectTransactions draft | .minerRef draft | .selectRefs draft
  | .transactionDifficulty draft | .proposerDifficulty draft _ =>
      draft.newParent ∈ node.blockchain.blocks
  | .verifyRef each _ _ | .readRef each | .insertRef each _ | .publishRef _ each _ _ =>
      each.header.proposerParent ∈ node.blockchain.blocks
  | .readState each | .applyRef _ each _ _ _ | .prunePool _ each _ | .insertState _ each _ =>
      each.header.proposerParent ∈ node.blockchain.blocks ∧ each.hash crypto ∈ node.txBlockRef
  | .insertBlock _ each =>
      each.header.proposerParent ∈ node.blockchain.blocks ∧
        each.hash crypto ∈ node.txBlockRef ∧ each.hash crypto ∈ node.globState
  | .giveProposerBlock hash | .testWaiting hash | .cloneWaiting hash =>
      hash ∈ node.blockchain.blocks
  | .removeWaiting hash vec => hash ∈ node.blockchain.blocks ∧
      ∀ each ∈ vec, each.header.proposerParent = hash
  | _ => True

/-- A panic over a lookup at a block of the tree. -/
def Panic.AtBlock : Panic → Prop
  | .blocks | .heights | .globState | .txBlockRef => True
  | .txBlockPool | .vector | .arithmetic => False

def Stop.AtBlock : Stop → Prop
  | .panic cause => cause.AtBlock
  | .orphanHandler | .txPool | .myAddrKey => False

/-- A thread that goes on has an account of all its sections, and no lookup at a
block of the tree stops it. -/
def Passed.Sound (crypto : Crypto) (passed : Passed) : Prop :=
  match passed.next with
  | .ok todo => ∀ next ∈ todo, next.Accounted crypto passed.node
  | .error stop => ¬ stop.AtBlock

/-- Nothing that an account relies on is taken back. -/
structure Node.Extends (before after : Node) : Prop where
  grows : before.Grows after
  globState : ∀ hash ∈ before.globState, hash ∈ after.globState
  txBlockRef : ∀ hash ∈ before.txBlockRef, hash ∈ after.txBlockRef

section Accounts

variable {node after : Node} {current next : Section}

theorem Section.Accounted.mono (accounted : current.Accounted crypto node)
    (kept : node.Extends after) : current.Accounted crypto after := by
  cases current with
  | testTransaction _ _ | checkTransaction _ _ | generatorState _ _ | inspectState _
  | minerState _ _ _ | selectTransactions _ | minerRef _ | selectRefs _
  | transactionDifficulty _ | proposerDifficulty _ _ | verifyRef _ _ _ | readRef _
  | insertRef _ _ | publishRef _ _ _ _ | giveProposerBlock _ | testWaiting _ | cloneWaiting _ =>
      exact kept.grows _ accounted
  | readState _ | applyRef _ _ _ _ _ | prunePool _ _ _ | insertState _ _ _ =>
      exact ⟨kept.grows _ accounted.1, kept.txBlockRef _ accounted.2⟩
  | insertBlock _ _ =>
      exact ⟨kept.grows _ accounted.1, kept.txBlockRef _ accounted.2.1,
        kept.globState _ accounted.2.2⟩
  | removeWaiting _ _ => exact ⟨kept.grows _ accounted.1, accounted.2⟩
  | _ => trivial

/-- No section takes an entry back, not even one that panics half way. -/
theorem Writes.extends (writes : Writes crypto node current after) : node.Extends after := by
  have moreStates (hash : H256) (ledger : Ledger) :
      node.Extends { node with globState := node.globState.insert hash ledger } :=
    ⟨fun _ member => member, fun _ member => Finmap.mem_insert.mpr (.inr member),
      fun _ member => member⟩
  have moreRefs (hash : H256) (refs : List H256) :
      node.Extends { node with txBlockRef := node.txBlockRef.insert hash refs } :=
    ⟨fun _ member => member, fun _ member => member,
      fun _ member => Finmap.mem_insert.mpr (.inr member)⟩
  have moreBlocks (each : ProposerBlock) (blockchain : Blockchain)
      (blocks : blockchain.blocks = node.blockchain.blocks.insert (each.hash crypto) each) :
      node.Extends { node with blockchain } := by
    refine ⟨fun hash member => ?_, fun _ member => member, fun _ member => member⟩
    rw [blocks, Finmap.mem_insert]
    exact .inr member
  cases writes with
  | beside _ _ blockchain _ globState txBlockRef =>
      refine ⟨?_, ?_, ?_⟩
      · rw [Node.Grows, blockchain]
        exact fun _ member => member
      · rw [globState]
        exact fun _ member => member
      · rw [txBlockRef]
        exact fun _ member => member
  | push _ _ _ | create _ | release _ _ =>
      exact ⟨fun _ member => member, fun _ member => member, fun _ member => member⟩
  | ico genesisHash icoState => exact moreStates genesisHash icoState
  | state _ each currState => exact moreStates (each.hash crypto) currState
  | genesisRef genesis => exact moreRefs genesis []
  | ref each newRef => exact moreRefs (each.hash crypto) newRef
  | ownRef _ newBlock concatenated _ => exact moreRefs (newBlock.hash crypto) concatenated
  | block _ each blockchain inserted =>
      obtain ⟨_, -, blocks, -⟩ := Blockchain.insert_ok inserted
      exact moreBlocks each blockchain blocks
  | half _ each blockchain failed =>
      exact moreBlocks each blockchain (Blockchain.blocks_of_insert_error failed)

/-- Unless it inserts a block, whose parent it knows, a section leaves the tree as it
is. -/
theorem Writes.blockchain_cases (writes : Writes crypto node current after)
    (formed : node.blockchain.WellFormed crypto)
    (parent : ∀ author each, current = .insertBlock author each →
      each.header.proposerParent ∈ node.blockchain.blocks) :
    after.blockchain = node.blockchain ∨ ∃ author each, current = .insertBlock author each ∧
      node.blockchain.insert crypto each = .ok after.blockchain := by
  cases writes with
  | beside _ _ blockchain _ _ _ => exact .inl blockchain
  | block author each blockchain inserted => exact .inr ⟨author, each, rfl, inserted⟩
  | half author each blockchain failed =>
      obtain ⟨after, inserted⟩ := Blockchain.insert_isOk crypto
        ((formed.heights _).mpr (parent author each rfl))
      rw [inserted] at failed
      cases failed
  | ico _ _ | push _ _ _ | create _ | release _ _ | genesisRef _ | ref _ _ | ownRef _ _ _ _
  | state _ _ _ => exact .inl rfl

/-- What holds of every orphan under the hash it waits for, and of one that is put
into the buffer, holds of every orphan afterwards. -/
theorem Writes.waiting {holds : H256 → ProposerBlock → Prop}
    (writes : Writes crypto node current after)
    (waiting : ∀ parent bucket, node.orphanHandler.lookup parent = some bucket →
      ∀ block ∈ bucket, holds parent block)
    (enters : ∀ each, current = .pushOrphan each ∨ current = .insertOrphan each →
      holds each.header.proposerParent each) :
    ∀ parent bucket, after.orphanHandler.lookup parent = some bucket →
      ∀ block ∈ bucket, holds parent block := by
  intro parent bucket found block member
  cases writes with
  | beside _ _ _ orphanHandler _ _ =>
      rw [orphanHandler] at found
      exact waiting parent bucket found block member
  | push each earlier waits =>
      rw [HashMap.lookup_insert_ite] at found
      split at found
      · next same =>
          cases found
          subst same
          rcases List.mem_append.mp member with old | new
          · exact waiting _ earlier waits block old
          · rw [List.mem_singleton.mp new]
            exact enters each (.inl rfl)
      · exact waiting parent bucket found block member
  | create each =>
      rw [HashMap.lookup_insert_ite] at found
      split at found
      · next same =>
          cases found
          subst same
          rw [List.mem_singleton.mp member]
          exact enters each (.inr rfl)
      · exact waiting parent bucket found block member
  | release hash vec =>
      rw [HashMap.lookup_erase_ite] at found
      split at found
      · cases found
      · exact waiting parent bucket found block member
  | ico _ _ | genesisRef _ | ref _ _ | ownRef _ _ _ _ | state _ _ _ | block _ _ _ _
  | half _ _ _ _ => exact waiting parent bucket found block member

theorem Node.Ordered.writes (ordered : node.Ordered crypto)
    (accounted : current.Accounted crypto node) (writes : Writes crypto node current after) :
    after.Ordered crypto := by
  have kept := writes.extends
  have tree := writes.blockchain_cases ordered.chain (by
    rintro author each rfl
    exact accounted.1)
  constructor
  case chain =>
    rcases tree with same | ⟨_, each, -, inserted⟩
    · rw [same]
      exact ordered.chain
    · exact ordered.chain.insert inserted
  case waiting => exact writes.waiting ordered.waiting fun _ _ => rfl
  case published =>
    intro hash member
    have earlier (known : hash ∈ node.blockchain.blocks) :
        hash ∈ after.globState ∧ hash ∈ after.txBlockRef :=
      ⟨kept.globState hash (ordered.published hash known).1,
        kept.txBlockRef hash (ordered.published hash known).2⟩
    rcases tree with same | ⟨_, each, rfl, inserted⟩
    · exact earlier (same ▸ member)
    · obtain ⟨_, -, blocks, -⟩ := Blockchain.insert_ok inserted
      obtain ⟨-, hasRef, hasState⟩ := accounted
      rw [blocks, Finmap.mem_insert] at member
      rcases member with rfl | known
      · exact ⟨kept.globState _ hasState, kept.txBlockRef _ hasRef⟩
      · exact earlier known

theorem accounted_verify {each : ProposerBlock}
    (parent : each.header.proposerParent ∈ node.blockchain.blocks) (refs : List H256) :
    (Section.verify each refs).Accounted crypto node := by
  cases refs with
  | nil => exact parent
  | cons ref refs => exact parent

theorem accounted_apply {each : ProposerBlock}
    (parent : each.header.proposerParent ∈ node.blockchain.blocks)
    (hasRef : each.hash crypto ∈ node.txBlockRef) (author : Author) (currState : Ledger)
    (refs : List H256) : (Section.apply author each currState refs).Accounted crypto node := by
  cases refs with
  | nil => exact ⟨parent, hasRef⟩
  | cons ref refs => exact ⟨parent, hasRef⟩

theorem Section.Beside.accounted (beside : next.Beside) (node : Node) :
    next.Accounted crypto node := by
  cases next with
  | testAddr _ | pushAddr _ | relayAddr | insertIco _ _ | giveTransaction _ | insertTransaction _
  | giveTransactionBlock _ | testPooled _ | removePooled _ | insertTransactionBlock _
  | countCoins _ | readCoin _ _ _ _ | testOwned _ _ | countAddr _ _ | pickAddr _ _ _
  | readKey _ _ _ | insertGenerated _ => trivial
  | _ => exact beside.elim

/-- A thread that goes on has an account of what follows. -/
theorem Section.Accounted.leads (accounted : current.Accounted crypto node)
    (ordered : node.Ordered crypto) (leads : Leads crypto node current after next) :
    next.Accounted crypto after := by
  cases leads with
  | beside _ _ _ enters => exact enters.beside.accounted after
  | tip use next member =>
      cases use with
      | transactions transactionVec =>
          obtain ⟨tx, -, rfl⟩ := List.mem_map.mp member
          exact ordered.chain.tip
      | startMiner | ico =>
          rw [List.mem_singleton.mp member]
          trivial
      | mine _ | mineAttacker _ | generate _ | inspect =>
          rw [List.mem_singleton.mp member]
          exact ordered.chain.tip
  | new _ | orphan _ | push _ | make _ => trivial
  | give _ present => exact present
  | check _ _ | merge _ _ _ | prune _ _ _ _ | waits _ | attack _ _ _ _ _ | draft _ _ _ _ _
  | transactions _ _ | pointed _ _ _ _ | unselected _ _ _ _ | refs _ | threshold _ _ =>
      exact accounted
  | rooted each parent => exact accounted_verify parent _
  | signed each ref refs => exact accounted_verify accounted refs
  | ref each newRef => exact ⟨accounted, Finmap.mem_insert.mpr (.inl rfl)⟩
  | base each currState _ => exact accounted_apply accounted.1 accounted.2 _ _ _
  | apply author each currState ledger ref refs _ _ _ =>
      exact accounted_apply accounted.1 accounted.2 _ _ _
  | state author each currState =>
      exact ⟨accounted.1, accounted.2, Finmap.mem_insert.mpr (.inl rfl)⟩
  | block author each blockchain inserted =>
      obtain ⟨_, -, blocks, -⟩ := Blockchain.insert_ok inserted
      change each.hash crypto ∈ blockchain.blocks
      rw [blocks, Finmap.mem_insert]
      exact .inl rfl
  | clone hash vec waiting => exact ⟨accounted, ordered.waiting hash vec waiting⟩
  | release hash vec each member =>
      apply accounted_verify
      rw [accounted.2 each member]
      exact accounted.1
  | mined draft difficulty header parent =>
      change header.proposerParent ∈ node.blockchain.blocks
      rw [parent]
      exact accounted
  | copy author newBlock concatenated currState _ =>
      exact ⟨accounted, Finmap.mem_insert.mpr (.inl rfl)⟩
  | own author newBlock concatenated currState =>
      apply accounted_apply
      · exact accounted
      · exact Finmap.mem_insert.mpr (.inl rfl)

/-- No lookup at a block of the tree stops a thread. -/
theorem not_atBlock_of_run {stop : Stop} (ordered : node.Ordered crypto)
    (accounted : current.Accounted crypto node)
    (failed : (current.run crypto node).next = .error stop) : ¬ stop.AtBlock := by
  cases current with
  | giveTransaction _ | giveTransactionBlock _ | countAddr _ _ | prunePool _ _ _ =>
      rw [Section.run] at failed
      split at failed
      · cases failed
        exact id
      · cases failed
  | verifyRef _ _ _ | cloneWaiting _ | selectTransactions _ | readCoin _ _ _ _ | pickAddr _ _ _
  | readKey _ _ _ =>
      obtain ⟨-, rfl⟩ := read_eq_error failed
      exact id
  | applyRef _ _ _ _ _ =>
      rw [Section.run] at failed
      split at failed
      · cases failed
        exact id
      · obtain ⟨-, rfl⟩ := read_eq_error failed
        exact id
  | checkTransaction tip each =>
      obtain ⟨currState, found⟩ := HashMap.lookup_of_mem (ordered.published tip accounted).1
      simp only [Section.run, found] at failed
      obtain ⟨-, rfl⟩ := read_eq_error failed
      exact id
  | giveProposerBlock hash =>
      obtain ⟨block, found⟩ := HashMap.lookup_of_mem accounted
      simp only [Section.run, found] at failed
      cases failed
  | readRef _ | minerRef _ =>
      obtain ⟨missing, -⟩ := read_eq_error failed
      exact absurd (ordered.published _ accounted).2 (Finmap.lookup_eq_none.mp missing)
  | readState _ =>
      obtain ⟨missing, -⟩ := read_eq_error failed
      exact absurd (ordered.published _ accounted.1).1 (Finmap.lookup_eq_none.mp missing)
  | minerState _ _ _ | generatorState _ _ | inspectState _ =>
      obtain ⟨missing, -⟩ := read_eq_error failed
      exact absurd (ordered.published _ accounted).1 (Finmap.lookup_eq_none.mp missing)
  | transactionDifficulty _ =>
      obtain ⟨missing, -⟩ := read_eq_error failed
      exact absurd accounted (Finmap.lookup_eq_none.mp missing)
  | proposerDifficulty draft difficulty =>
      obtain ⟨block, found⟩ := HashMap.lookup_of_mem accounted
      simp only [Section.run, found] at failed
      obtain ⟨-, rfl⟩ := read_eq_error failed
      exact id
  | insertBlock author each =>
      obtain ⟨after, inserted⟩ := Blockchain.insert_isOk crypto
        ((ordered.chain.heights _).mpr accounted.1)
      simp only [Section.run, inserted] at failed
      cases failed
  | _ => cases failed

/-- No lookup at a block of the tree fails in a section, and the thread has an
account of what follows. -/
theorem sound_of_run (ordered : node.Ordered crypto) (accounted : current.Accounted crypto node) :
    (current.run crypto node).Sound crypto := by
  rw [Passed.Sound]
  split
  · next todo goesOn =>
      exact fun next member => accounted.leads ordered (leads_of_run goesOn member)
  · next stop failed => exact not_atBlock_of_run ordered accounted failed

end Accounts

/-! ## Runs -/

namespace Threads

variable {Thread : Type*}

/-- The tree holds genesis alone, which has a ledger and references; orphans wait
under their parent and every thread is idle. -/
structure Start (crypto : Crypto) (threads : Threads Thread) : Prop where
  blockchain : threads.node.blockchain = Blockchain.new crypto
  waiting : ∀ parent bucket, threads.node.orphanHandler.lookup parent = some bucket →
    ∀ block ∈ bucket, block.header.proposerParent = parent
  globState : genesisHash crypto ∈ threads.node.globState
  txBlockRef : genesisHash crypto ∈ threads.node.txBlockRef
  idle : threads.Idle

/-- The maps are in order, every thread has an account of the sections it has
left, and no lookup at a block of the tree has stopped one. -/
structure Ordered (crypto : Crypto) (threads : Threads Thread) : Prop where
  node : threads.node.Ordered crypto
  accounted : ∀ thread todo, threads.status thread = .running todo →
    ∀ current ∈ todo, current.Accounted crypto threads.node
  lookups : ∀ thread stop, threads.status thread = .stopped stop → ¬ stop.AtBlock

variable {threads : Threads Thread}

theorem Start.ordered (start : threads.Start crypto) : threads.Ordered crypto where
  node :=
    { chain := by
        rw [start.blockchain]
        exact .new
      waiting := start.waiting
      published := by
        intro hash member
        rw [start.blockchain, Blockchain.new, Finmap.mem_insert] at member
        rcases member with rfl | impossible
        · exact ⟨start.globState, start.txBlockRef⟩
        · exact absurd impossible Finmap.notMem_empty }
  accounted := by
    intro thread todo running
    rw [start.idle thread] at running
    cases running
    simp
  lookups := by
    intro thread stop stopped
    rw [start.idle thread] at stopped
    cases stopped

theorem accounted_sections (handler : Handler) (node : Node) :
    ∀ current ∈ handler.sections crypto, current.Accounted crypto node := by
  intro current member
  cases handler with
  | receive message =>
      cases message with
      | ico _ _ | transactions _ =>
          rw [List.mem_singleton.mp member]
          trivial
      | newAddr _ | newTransactionHashes _ | getTransactions _ | newTransactionBlockHashes _
      | getTransactionBlocks _ | transactionBlocks _ | newProposerBlockHashes _
      | getProposerBlocks _ | proposerBlocks _ =>
          obtain ⟨each, -, rfl⟩ := List.mem_map.mp member
          trivial
  | startMiner | mine _ | mineAttacker _ | generateAddress _ | ico | generate _ | inspect =>
      rw [List.mem_singleton.mp member]
      trivial

variable [DecidableEq Thread]

theorem Ordered.step {after : Threads Thread} {event : Event Thread}
    (ordered : threads.Ordered crypto) (stepped : threads.step crypto event = some after) :
    after.Ordered crypto := by
  rcases step_cases stepped with ⟨thread, handler, -, -, sameNode, statuses⟩ |
    ⟨thread, current, rest, -, running, afterNode, statuses⟩
  · refine ⟨sameNode ▸ ordered.node, fun other todo status => ?_, fun other stop status => ?_⟩
    · rw [sameNode]
      rw [statuses, Function.update_apply] at status
      split at status
      · cases status
        exact accounted_sections handler threads.node
      · exact ordered.accounted other todo status
    · rw [statuses, Function.update_apply] at status
      split at status
      · cases status
      · exact ordered.lookups other stop status
  · have account := ordered.accounted thread _ running
    have own := account current List.mem_cons_self
    have sound := sound_of_run ordered.node own
    have writes : Writes crypto threads.node current after.node := by
      rw [afterNode]
      exact writes_of_run
    have node := ordered.node.writes own writes
    have kept := writes.extends
    rw [Passed.Sound, ← afterNode] at sound
    refine ⟨node, fun other todo status => ?_, fun other stop status => ?_⟩
    · rw [statuses, Function.update_apply] at status
      split at status
      · rw [Passed.status] at status
        split at status
        · next new passed =>
            cases status
            rw [passed] at sound
            intro next member
            rcases List.mem_append.mp member with isNew | left
            · exact sound next isNew
            · exact (account next (List.mem_cons_of_mem _ left)).mono kept
        · cases status
      · exact fun next member => (ordered.accounted other todo status next member).mono kept
    · rw [statuses, Function.update_apply] at status
      split at status
      · rw [Passed.status] at status
        split at status
        · cases status
        · next failed =>
            cases status
            rw [failed] at sound
            exact sound
      · exact ordered.lookups other stop status

/-- At every point of every run each block of the tree, and so the tip, has its
ledger and its references, and no thread has been stopped by a lookup of a ledger
or of references, nor of a block or a height of the tree. -/
theorem published_of_sections (run : Run (@step crypto Thread _) (Start crypto)) :
    ∀ index ≤ run.length,
      (∀ hash ∈ (run.states index).node.blockchain.blocks,
        hash ∈ (run.states index).node.globState ∧ hash ∈ (run.states index).node.txBlockRef) ∧
      (run.states index).node.blockchain.tip ∈ (run.states index).node.blockchain.blocks ∧
      ∀ thread, (run.states index).status thread ≠ .stopped (.panic .globState) ∧
        (run.states index).status thread ≠ .stopped (.panic .txBlockRef) ∧
        (run.states index).status thread ≠ .stopped (.panic .blocks) ∧
        (run.states index).status thread ≠ .stopped (.panic .heights) := by
  intro index bound
  have ordered := run.invariant (Ordered crypto) (fun _ start => start.ordered)
    (fun _ _ _ ordered stepped => ordered.step stepped) index bound
  refine ⟨ordered.node.published, ordered.node.chain.tip, fun thread => ⟨?_, ?_, ?_, ?_⟩⟩
  all_goals exact fun stopped => ordered.lookups thread _ stopped trivial

theorem start_sample :
    Start Crypto.sample (⟨State.sample.node, fun _ => .running []⟩ : Threads Bool) where
  blockchain := rfl
  waiting := by
    have empty : State.sample.node.orphanHandler = ∅ := rfl
    simp [empty]
  globState := by decide +kernel
  txBlockRef := by decide +kernel
  idle := fun _ => rfl

/-- A worker accepts a block while the attacker mines another one on genesis; they
take their sections in turns. -/
def interleavedRun : Run (@step Crypto.sample Bool _) (Start Crypto.sample) :=
  Run.ofActions _ start_sample
    (.handle false (.receive (.proposerBlocks [parentBlock])) ::
      .handle true (.mineAttacker ⟨[], [], 3, 0⟩) ::
        (List.replicate 8 [.run false, .run true]).flatten)
    (by decide +kernel)

theorem published_interleavedRun :
    sampleHash 2 ∈ (interleavedRun.states 18).node.blockchain.blocks ∧
      sampleHash 3 ∈ (interleavedRun.states 18).node.blockchain.blocks ∧
      ∀ hash ∈ (interleavedRun.states 18).node.blockchain.blocks,
        hash ∈ (interleavedRun.states 18).node.globState ∧
          hash ∈ (interleavedRun.states 18).node.txBlockRef :=
  ⟨by decide +kernel, by decide +kernel, (published_of_sections interleavedRun 18 (by decide)).1⟩

end Threads

end SimplifiedPrism
