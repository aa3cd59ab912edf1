import SimplifiedPrism.Invariants

/-!
# The threads of a node

The shared maps lie behind separate locks, and a thread takes and releases a
lock for every access.  Here a handler is a list of sections, each of which runs
under one lock and carries the values that the thread has collected so far; what
a thread computes between two locks belongs to the section before it.  The
threads of a node take their sections in any order.  A section that panics stops
its thread.  That the lock it held is poisoned is left out: it can only keep other
threads from going on, as the scheduler can.
-/

namespace SimplifiedPrism

/-- Why a thread has stopped: an operation that panics for a single thread too, or
an index into a map from which another thread may have removed the entry. -/
inductive Stop
  | panic (panic : Panic)
  | orphanHandler
  | txPool
  | myAddrKey
deriving DecidableEq

/-- Whose copy of the code publishes a proposer block.  The attacker's copies the
ledger of the parent, and only a worker looks for orphans afterwards. -/
inductive Author
  | worker
  | miner
  | attacker
deriving DecidableEq

/-- What the miner has collected in an iteration. -/
structure Draft where
  author : Author
  choice : MinerChoice
  newParent : H256
  currState : Ledger
  transBlockContent : List SignedTransaction := []
  pointedTxBlocks : List H256 := []
  propsBlockContent : List H256 := []
deriving DecidableEq

/-- What a thread wants to know the tip for. -/
inductive TipUse
  | transactions (transactionVec : List SignedTransaction)
  | startMiner
  | mine (choice : MinerChoice)
  | mineAttacker (choice : MinerChoice)
  | ico
  | generate (draws : List Draw)
  | inspect
deriving DecidableEq

/-- The sections, in the order of the source: those of `worker_loop` and
`new_parent`, then those of the miner and of the generator. -/
inductive Section
  | readTip (use : TipUse)
  | testAddr (each : H160)
  | pushAddr (each : H160)
  | relayAddr
  | testState (genesisHash : H256) (icoState : Ledger)
  | insertIco (genesisHash : H256) (icoState : Ledger)
  | announcedTransaction (each : H256)
  | requestedTransaction (each : H256)
  | giveTransaction (each : H256)
  | testTransaction (tip : H256) (each : SignedTransaction)
  | checkTransaction (tip : H256) (each : SignedTransaction)
  | insertTransaction (each : SignedTransaction)
  | announcedTransactionBlock (each : H256)
  | requestedTransactionBlock (each : H256)
  | giveTransactionBlock (each : H256)
  | testTransactionBlock (each : TXBlock)
  | testPooled (hash : H256)
  | removePooled (hash : H256)
  | insertTransactionBlock (each : TXBlock)
  | announcedProposerBlock (each : H256)
  | requestedProposerBlock (each : H256)
  | giveProposerBlock (each : H256)
  | testBlock (each : ProposerBlock)
  | testParent (each : ProposerBlock)
  | testBucket (each : ProposerBlock)
  | pushOrphan (each : ProposerBlock)
  | insertOrphan (each : ProposerBlock)
  | verifyRef (each : ProposerBlock) (ref : H256) (refs : List H256)
  | readRef (each : ProposerBlock)
  | insertRef (each : ProposerBlock) (newRef : List H256)
  | readState (each : ProposerBlock)
  | applyRef (author : Author) (each : ProposerBlock) (currState : Ledger) (ref : H256)
      (refs : List H256)
  | prunePool (author : Author) (each : ProposerBlock) (currState : Ledger)
  | insertState (author : Author) (each : ProposerBlock) (currState : Ledger)
  | insertBlock (author : Author) (each : ProposerBlock)
  | testWaiting (hash : H256)
  | cloneWaiting (hash : H256)
  | removeWaiting (hash : H256) (vec : List ProposerBlock)
  | insertGenesisRef (genesis : H256)
  | minerState (author : Author) (choice : MinerChoice) (newParent : H256)
  | selectTransactions (draft : Draft)
  | minerRef (draft : Draft)
  | selectRefs (draft : Draft)
  | transactionDifficulty (draft : Draft)
  | proposerDifficulty (draft : Draft) (difficulty : H256)
  | publishRef (author : Author) (newBlock : ProposerBlock) (concatenated : List H256)
      (currState : Ledger)
  | insertKey (addr : H160) (key : KeyPair)
  | countCoins (genesisHash : H256)
  | readCoin (genesisHash : H256) (icoState : Ledger) (i left : Nat)
  | generatorState (tip : H256) (draws : List Draw)
  | testOwned (draw : Draw) (coin : Coin)
  | countAddr (draw : Draw) (coin : Coin)
  | pickAddr (draw : Draw) (coin : Coin) (destIdx : Nat)
  | readKey (draw : Draw) (coin : Coin) (dest : H160)
  | insertGenerated (newTrans : SignedTransaction)
  | inspectState (tip : H256)
deriving DecidableEq

namespace Section

/-- The loop over the references that checks signatures. -/
def verify (each : ProposerBlock) : List H256 → Section
  | [] => .readRef each
  | ref :: refs => .verifyRef each ref refs

/-- The loop over the references that updates the ledger. -/
def apply (author : Author) (each : ProposerBlock) (currState : Ledger) : List H256 → Section
  | [] => .prunePool author each currState
  | ref :: refs => .applyRef author each currState ref refs

/-- The loop over the addresses that get coins. -/
def coins (genesisHash : H256) (icoState : Ledger) (i : Nat) : Nat → Section
  | 0 => .insertIco genesisHash icoState
  | left + 1 => .readCoin genesisHash icoState i left

/-- What follows when the tip is known. -/
def ofTip (tip : H256) : TipUse → List Section
  | .transactions transactionVec => transactionVec.map (.testTransaction tip)
  | .startMiner => [.insertGenesisRef tip]
  | .mine choice => [.minerState .miner choice tip]
  | .mineAttacker choice => [.minerState .attacker choice tip]
  | .ico => [.countCoins tip]
  | .generate draws => [.generatorState tip draws]
  | .inspect => [.inspectState tip]

end Section

/-- The maps after a section, the sections that follow in the handler and the
messages that the thread sends. -/
structure Passed where
  node : Node
  next : Except Stop (List Section) := .ok []
  sent : List Outgoing := []

/-- An index into one of the maps, with what follows for the value. -/
def Node.read {α : Type} (node : Node) (stop : Stop) (found : Option α)
    (next : α → List Section) : Passed :=
  match found with
  | none => { node, next := .error stop }
  | some value => { node, next := .ok (next value) }

@[simp]
theorem Node.read_node {α : Type} (node : Node) (stop : Stop) (found : Option α)
    (next : α → List Section) : (node.read stop found next).node = node := by
  cases found <;> rfl

/-- What an index into a map leads to when it does not panic. -/
theorem read_eq_ok {α : Type} {node : Node} {stop : Stop} {found : Option α}
    {follows : α → List Section} {todo : List Section}
    (read : (node.read stop found follows).next = .ok todo) :
    ∃ value, found = some value ∧ follows value = todo := by
  cases found with
  | none => cases read
  | some value => exact ⟨value, rfl, Except.ok.inj read⟩

theorem read_eq_error {α : Type} {node : Node} {stop cause : Stop} {found : Option α}
    {follows : α → List Section} (read : (node.read stop found follows).next = .error cause) :
    found = none ∧ stop = cause := by
  cases found with
  | none => exact ⟨rfl, Except.error.inj read⟩
  | some value => cases read

variable (crypto : Crypto)

/-- The checks of a transaction against the ledger of the tip. -/
def passesChecks (currState : Ledger) (each : SignedTransaction) : Option Bool := do
  if !(← inputsUnspent currState each.transaction) then
    return false
  if !(← inputsOwned crypto currState each) then
    return false
  let sums ← inputOutputSums currState each.transaction
  return decide (sums.2 ≤ sums.1)

/-- The header over what the miner has collected. -/
def Draft.header (draft : Draft) (transactionDifficulty proposerDifficulty : H256) :
    Option Header := do
  let transactionTree ← MerkleTree.new crypto (SignedTransaction.hash crypto)
    draft.transBlockContent
  let proposerTree ← MerkleTree.new crypto (H256.hash crypto) draft.propsBlockContent
  return {
    proposerParent := draft.newParent
    nonce := draft.choice.nonce
    timestamp := draft.choice.timestamp
    transactionDifficulty
    proposerDifficulty
    merkleTransaction := transactionTree.root
    merkleProposer := proposerTree.root }

/-- What the hash of the header has made of the draft.  Only the attacker keeps
empty blocks. -/
def Draft.mined (draft : Draft) (header : Header) : List Section :=
  if header.hash crypto < header.proposerDifficulty then
    if draft.propsBlockContent.length = 0 ∧ draft.author ≠ .attacker then
      []
    else
      [.publishRef draft.author ⟨header, ⟨draft.propsBlockContent⟩⟩
        (draft.pointedTxBlocks ++ draft.propsBlockContent) draft.currState]
  else if header.hash crypto < header.transactionDifficulty then
    if draft.transBlockContent.length = 0 ∧ draft.author ≠ .attacker then
      []
    else
      draft.transBlockContent.map (fun tx => .testPooled (tx.hash crypto)) ++
        [.insertTransactionBlock ⟨header, ⟨draft.transBlockContent⟩⟩]
  else
    []

namespace Section

variable (node : Node)

/-- The order in which a loop runs through a map is one of the possible ones. -/
def Possible : Section → Prop
  | .selectTransactions draft => node.txPool.Enumerates draft.choice.txOrder
  | .selectRefs draft => node.txBlockPool.Enumerates draft.choice.txBlockOrder
  | .generatorState tip draws => ∀ ledger ∈ node.globState.lookup tip,
      HashMap.Enumerates ledger (draws.map Draw.outpoint)
  | _ => True

/-- `Possible` as a test. -/
def isPossible : Section → Bool
  | .selectTransactions draft => decide (node.txPool.Enumerates draft.choice.txOrder)
  | .selectRefs draft => decide (node.txBlockPool.Enumerates draft.choice.txBlockOrder)
  | .generatorState tip draws => decide (∀ ledger ∈ node.globState.lookup tip,
      HashMap.Enumerates ledger (draws.map Draw.outpoint))
  | _ => true

instance : DecidablePred (Possible node) := fun current =>
  decidable_of_iff (isPossible node current = true) (by
    cases current <;> simp [isPossible, Possible])

/-- Run one section. -/
def run : Section → Passed
  | .readTip use => { node, next := .ok (ofTip node.blockchain.tip use) }
  | .testAddr each => { node, next := .ok (if each ∈ node.allAddr then [] else [.pushAddr each]) }
  | .pushAddr each =>
      { node := { node with allAddr := node.allAddr ++ [each] }, next := .ok [.relayAddr] }
  | .relayAddr => { node, sent := [.broadcast (.newAddr node.allAddr)] }
  | .testState genesisHash icoState =>
      { node, next := .ok (if node.globState = ∅ then [.insertIco genesisHash icoState] else []) }
  | .insertIco genesisHash icoState =>
      { node := { node with globState := node.globState.insert genesisHash icoState }
        sent := [.broadcast (.ico genesisHash icoState)] }
  | .announcedTransaction each =>
      { node, sent := if each ∈ node.txPool then [] else [.write (.getTransactions [each])] }
  | .requestedTransaction each =>
      { node, next := .ok (if each ∈ node.txPool then [.giveTransaction each] else []) }
  | .giveTransaction each =>
      match node.txPool.lookup each with
      | none => { node, next := .error .txPool }
      | some tx => { node, sent := [.write (.transactions [tx])] }
  | .testTransaction tip each =>
      { node, next := .ok
          (if each.hash crypto ∉ node.txPool ∧ each.verified crypto then
            [.checkTransaction tip each]
          else
            []) }
  | .checkTransaction tip each =>
      match node.globState.lookup tip with
      | none => { node, next := .error (.panic .globState) }
      | some currState =>
          node.read (.panic .vector) (passesChecks crypto currState each) fun passes =>
            if passes then [.insertTransaction each] else []
  | .insertTransaction each =>
      { node := { node with txPool := node.txPool.insert (each.hash crypto) each }
        sent := [.broadcast (.newTransactionHashes [each.hash crypto])] }
  | .announcedTransactionBlock each =>
      { node, sent :=
          if each ∈ node.txBlockPool then [] else [.write (.getTransactionBlocks [each])] }
  | .requestedTransactionBlock each =>
      { node, next := .ok
          (if each ∈ node.txBlockPool then [.giveTransactionBlock each] else []) }
  | .giveTransactionBlock each =>
      match node.txBlockPool.lookup each with
      | none => { node, next := .error (.panic .txBlockPool) }
      | some block => { node, sent := [.write (.transactionBlocks [block])] }
  | .testTransactionBlock each =>
      { node, next := .ok
          (if each.hash crypto ∈ node.txBlockPool ∨
              each.hash crypto > each.header.transactionDifficulty ∨
              each.hash crypto ≤ each.header.proposerDifficulty then
            []
          else
            each.content.transactionContent.map (fun tx => .testPooled (tx.hash crypto)) ++
              [.insertTransactionBlock each]) }
  | .testPooled hash =>
      { node, next := .ok (if hash ∈ node.txPool then [.removePooled hash] else []) }
  | .removePooled hash => { node := { node with txPool := node.txPool.erase hash } }
  | .insertTransactionBlock each =>
      { node := { node with txBlockPool := node.txBlockPool.insert (each.hash crypto) each }
        sent := [.broadcast (.newTransactionBlockHashes [each.hash crypto])] }
  | .announcedProposerBlock each =>
      { node, sent :=
          if each ∈ node.blockchain.blocks then [] else [.write (.getProposerBlocks [each])] }
  | .requestedProposerBlock each =>
      { node, next := .ok
          (if each ∈ node.blockchain.blocks then [.giveProposerBlock each] else []) }
  | .giveProposerBlock each =>
      match node.blockchain.blocks.lookup each with
      | none => { node, next := .error (.panic .blocks) }
      | some block => { node, sent := [.write (.proposerBlocks [block])] }
  | .testBlock each =>
      { node, next := .ok
          (if each.hash crypto ∈ node.blockchain.blocks ∨
              each.hash crypto > each.header.proposerDifficulty then
            []
          else
            [.testParent each]) }
  | .testParent each =>
      { node, next := .ok
          (if each.header.proposerParent ∈ node.blockchain.blocks then
            [verify each each.content.proposerContent]
          else
            [.testBucket each]) }
  | .testBucket each =>
      { node, next := .ok
          (if each.header.proposerParent ∈ node.orphanHandler then
            [.pushOrphan each]
          else
            [.insertOrphan each]) }
  | .pushOrphan each =>
      -- a bucket that has gone in the meantime is not made again
      { node := { node with
          orphanHandler := match node.orphanHandler.lookup each.header.proposerParent with
            | some bucket =>
                node.orphanHandler.insert each.header.proposerParent (bucket ++ [each])
            | none => node.orphanHandler }
        sent := [.write (.getProposerBlocks [each.header.proposerParent])] }
  | .insertOrphan each =>
      { node := { node with
          orphanHandler := node.orphanHandler.insert each.header.proposerParent [each] }
        sent := [.write (.getProposerBlocks [each.header.proposerParent])] }
  | .verifyRef each ref refs =>
      node.read (.panic .txBlockPool) (node.txBlockPool.lookup ref) fun currTxBlock =>
        if currTxBlock.content.transactionContent.all (SignedTransaction.verified crypto) then
          [verify each refs]
        else
          []
  | .readRef each =>
      node.read (.panic .txBlockRef) (node.txBlockRef.lookup each.header.proposerParent)
        fun parentRef => [.insertRef each (mergeRef parentRef each.content.proposerContent)]
  | .insertRef each newRef =>
      { node := { node with txBlockRef := node.txBlockRef.insert (each.hash crypto) newRef }
        next := .ok [.readState each] }
  | .readState each =>
      node.read (.panic .globState) (node.globState.lookup each.header.proposerParent)
        fun currState => [apply .worker each currState each.content.proposerContent]
  | .applyRef author each currState ref refs =>
      match node.txBlockPool.lookup ref with
      | none => { node, next := .error (.panic .txBlockPool) }
      | some currTxBlock =>
          node.read (.panic .vector)
            (applyTransactions crypto currState currTxBlock.content.transactionContent)
            fun next => [apply author each next refs]
  | .prunePool author each currState =>
      match pruneTxPool node.txPool currState with
      | none => { node, next := .error (.panic .vector) }
      | some txPool =>
          { node := { node with txPool }, next := .ok [.insertState author each currState] }
  | .insertState author each currState =>
      { node := { node with globState := node.globState.insert (each.hash crypto) currState }
        next := .ok [.insertBlock author each] }
  | .insertBlock author each =>
      match node.blockchain.insert crypto each with
      | .error blockchain =>
          { node := { node with blockchain }, next := .error (.panic .heights) }
      | .ok blockchain =>
          { node := { node with blockchain }
            next := .ok (if author = .worker then [.testWaiting (each.hash crypto)] else [])
            sent := [.broadcast (.newProposerBlockHashes [each.hash crypto])] }
  | .testWaiting hash =>
      { node, next := .ok (if hash ∈ node.orphanHandler then [.cloneWaiting hash] else []) }
  | .cloneWaiting hash =>
      node.read .orphanHandler (node.orphanHandler.lookup hash) fun vec =>
        [.removeWaiting hash vec]
  | .removeWaiting hash vec =>
      { node := { node with orphanHandler := node.orphanHandler.erase hash }
        next := .ok (vec.map fun each => verify each each.content.proposerContent) }
  | .insertGenesisRef genesis =>
      { node := { node with txBlockRef := node.txBlockRef.insert genesis [] } }
  | .minerState author choice newParent =>
      node.read (.panic .globState) (node.globState.lookup newParent) fun currState =>
        let draft : Draft := { author, choice, newParent, currState }
        [if author = .attacker then .minerRef draft else .selectTransactions draft]
  | .selectTransactions draft =>
      node.read (.panic .vector)
        (SimplifiedPrism.selectTransactions node.txPool draft.currState draft.choice.txOrder 0)
        fun transBlockContent => [.minerRef { draft with transBlockContent }]
  | .minerRef draft =>
      node.read (.panic .txBlockRef) (node.txBlockRef.lookup draft.newParent)
        fun pointedTxBlocks =>
          let draft := { draft with pointedTxBlocks }
          [if draft.author = .attacker then .transactionDifficulty draft else .selectRefs draft]
  | .selectRefs draft =>
      { node, next := .ok [.transactionDifficulty { draft with
          propsBlockContent :=
            SimplifiedPrism.selectRefs draft.pointedTxBlocks draft.choice.txBlockOrder 0 }] }
  | .transactionDifficulty draft =>
      node.read (.panic .blocks) (node.blockchain.blocks.lookup draft.newParent) fun block =>
        [.proposerDifficulty draft block.header.transactionDifficulty]
  | .proposerDifficulty draft difficulty =>
      match node.blockchain.blocks.lookup draft.newParent with
      | none => { node, next := .error (.panic .blocks) }
      | some block =>
          node.read (.panic .arithmetic)
            (draft.header crypto difficulty block.header.proposerDifficulty)
            fun header => draft.mined crypto header
  | .publishRef author newBlock concatenated currState =>
      { node := { node with
          txBlockRef := node.txBlockRef.insert (newBlock.hash crypto) concatenated }
        next := .ok
          [if author = .attacker then
            .insertState author newBlock currState
          else
            apply author newBlock currState newBlock.content.proposerContent] }
  | .insertKey addr key =>
      { node := { node with myAddrKey := node.myAddrKey.insert addr key }
        next := .ok [.pushAddr addr] }
  | .countCoins genesisHash =>
      { node, next := .ok [coins genesisHash ∅ 0 node.allAddr.length] }
  | .readCoin genesisHash icoState i left =>
      node.read (.panic .vector) node.allAddr[i]? fun addr =>
        [coins genesisHash (icoState.insert (H256.zero, UInt32.ofNat i) (1000, addr)) (i + 1) left]
  | .generatorState tip draws =>
      node.read (.panic .globState) (node.globState.lookup tip) fun currentState =>
        draws.filterMap fun draw => (currentState.lookup draw.outpoint).map (.testOwned draw)
  | .testOwned draw coin =>
      { node, next := .ok
          (if coin.2 ∈ node.myAddrKey ∧ coin.1 ≠ 0 then [.countAddr draw coin] else []) }
  | .countAddr draw coin =>
      if node.allAddr.length = 0 then
        { node, next := .error (.panic .arithmetic) }
      else
        { node, next := .ok [.pickAddr draw coin (draw.dest.toNat % node.allAddr.length)] }
  | .pickAddr draw coin destIdx =>
      node.read (.panic .vector) node.allAddr[destIdx]? fun dest => [.readKey draw coin dest]
  | .readKey draw coin dest =>
      -- the destination is chosen, so that the choice is among one address
      node.read .myAddrKey (node.myAddrKey.lookup coin.2) fun key =>
        (buildTransaction crypto [dest] key draw coin).toList.map .insertGenerated
  | .insertGenerated newTrans =>
      { node := { node with txPool := node.txPool.insert (newTrans.hash crypto) newTrans }
        sent := [.broadcast (.newTransactionHashes [newTrans.hash crypto])] }
  | .inspectState tip => node.read (.panic .globState) (node.globState.lookup tip) fun _ => []

end Section

/-! ## Handlers -/

/-- What a thread can turn to when it is idle: a worker to a message, the miner to
its start or an iteration, the generator to an address, a control signal or a
round. -/
inductive Handler
  | receive (message : Message)
  | startMiner
  | mine (choice : MinerChoice)
  | mineAttacker (choice : MinerChoice)
  | generateAddress (key : KeyPair)
  | ico
  | generate (draws : List Draw)
  | inspect
deriving DecidableEq

def Message.sections : Message → List Section
  | .newAddr addrVec => addrVec.map .testAddr
  | .ico genesisHash icoState => [.testState genesisHash icoState]
  | .newTransactionHashes hashVec => hashVec.map .announcedTransaction
  | .getTransactions hashVec => hashVec.map .requestedTransaction
  | .transactions transactionVec => [.readTip (.transactions transactionVec)]
  | .newTransactionBlockHashes hashVec => hashVec.map .announcedTransactionBlock
  | .getTransactionBlocks hashVec => hashVec.map .requestedTransactionBlock
  | .transactionBlocks txBlockVec => txBlockVec.map .testTransactionBlock
  | .newProposerBlockHashes hashVec => hashVec.map .announcedProposerBlock
  | .getProposerBlocks hashVec => hashVec.map .requestedProposerBlock
  | .proposerBlocks proposerBlockVec => proposerBlockVec.map .testBlock

def Handler.sections : Handler → List Section
  | .receive message => message.sections
  | .startMiner => [.readTip .startMiner]
  | .mine choice => [.readTip (.mine choice)]
  | .mineAttacker choice => [.readTip (.mineAttacker choice)]
  | .generateAddress key =>
      let addr := addressOf crypto (crypto.publicKey key)
      [.insertKey addr key]
  | .ico => [.readTip .ico]
  | .generate draws => [.readTip (.generate draws)]
  | .inspect => [.readTip .inspect]

/-! ## Threads -/

/-- Where a thread stands. -/
inductive Status
  | running (todo : List Section)
  | stopped (stop : Stop)
deriving DecidableEq

/-- Where a thread stands after a section, with what was left of its handler. -/
def Passed.status (passed : Passed) (rest : List Section) : Status :=
  match passed.next with
  | .ok todo => .running (todo ++ rest)
  | .error stop => .stopped stop

/-- The shared maps and the threads on them. -/
structure Threads (Thread : Type*) where
  node : Node
  status : Thread → Status

namespace Threads

variable {Thread : Type*}

/-- All handlers have finished. -/
def Idle (threads : Threads Thread) : Prop :=
  ∀ thread, threads.status thread = .running []

/-- A thread turns to a handler or runs its next section. -/
inductive Event (Thread : Type*)
  | handle (thread : Thread) (handler : Handler)
  | run (thread : Thread)
deriving DecidableEq

instance Event.inhabited [Inhabited Thread] : Inhabited (Event Thread) :=
  ⟨.run default⟩

variable [DecidableEq Thread]

def step (threads : Threads Thread) : Event Thread → Option (Threads Thread)
  | .handle thread handler =>
      if threads.status thread = .running [] then
        some { threads with
          status := Function.update threads.status thread (.running (handler.sections crypto)) }
      else
        none
  | .run thread =>
      match threads.status thread with
      | .running (current :: rest) =>
          if Section.Possible threads.node current then
            let passed := Section.run crypto threads.node current
            some { node := passed.node
                   status := Function.update threads.status thread (passed.status rest) }
          else
            none
      | _ => none

variable {crypto} in
theorem step_cases {threads after : Threads Thread} {event : Event Thread}
    (stepped : threads.step crypto event = some after) :
    (∃ thread handler, event = .handle thread handler ∧ threads.status thread = .running [] ∧
        after.node = threads.node ∧
        after.status =
          Function.update threads.status thread (.running (handler.sections crypto))) ∨
      ∃ thread current rest, event = .run thread ∧
        threads.status thread = .running (current :: rest) ∧
        after.node = (current.run crypto threads.node).node ∧
        after.status = Function.update threads.status thread
          ((current.run crypto threads.node).status rest) := by
  cases event with
  | handle thread handler =>
      simp only [step, Option.ite_none_right_eq_some, Option.some.injEq] at stepped
      obtain ⟨idle, rfl⟩ := stepped
      exact .inl ⟨thread, handler, rfl, idle, rfl, rfl⟩
  | run thread =>
      simp only [step] at stepped
      split at stepped
      · next current rest running =>
          simp only [Option.ite_none_right_eq_some, Option.some.injEq] at stepped
          obtain ⟨-, rfl⟩ := stepped
          exact .inr ⟨thread, current, rest, rfl, running, rfl, rfl⟩
      · cases stepped

variable {crypto} in
/-- A loop over a map in a section that was run took one of the possible orders. -/
theorem possible_of_step {threads after : Threads Thread} {thread : Thread} {current : Section}
    {rest : List Section} (running : threads.status thread = .running (current :: rest))
    (stepped : threads.step crypto (.run thread) = some after) :
    Section.Possible threads.node current := by
  simp only [step, running, Option.ite_none_right_eq_some] at stepped
  exact stepped.1

end Threads

end SimplifiedPrism
