import SimplifiedPrism.Derivation
import SimplifiedPrism.ExactReferences
import SimplifiedPrism.WriteOnce

/-!
# The ledgers of concurrent threads

A thread reads the ledger of a parent under one lock, each transaction block under
another, and writes the ledger of the block under a third; in between other threads
write theirs, and may even write the same block.  What blocks derive for a hash does
not depend on the state of the maps.  Every ledger that a thread has in hand is on
the way to the derived one, so that the entries of the tree are those that a single
thread would have made, and never change.
-/

namespace SimplifiedPrism

variable {crypto : Crypto} {blocks : List ProposerBlock} {txBlocks : List TXBlock}
variable {offered : Ledger}

/-! ## What blocks derive -/

/-- Proposer blocks under their hashes, on top of their parents, down to genesis. -/
def blockTree (crypto : Crypto) : Parenting ProposerBlock H256 where
  key := ProposerBlock.hash crypto
  parent block := block.header.proposerParent
  root := genesisHash crypto

theorem Determined.separated (determined : Determined crypto blocks) :
    (blockTree crypto).Separated {block | block ∈ blocks} where
  injective := determined.injective
  topmost := by
    intro block member atRoot
    have genesis : block = genesisBlock crypto :=
      determined.injective member determined.genesis atRoot
    subst genesis
    exact ⟨fun same => determined.notFake _ determined.genesis same.symm, determined.notFake⟩

/-- A pool that has some of the transaction blocks, under their hashes. -/
def PoolOf (crypto : Crypto) (txBlocks : List TXBlock) (pool : HashMap H256 TXBlock) : Prop :=
  ∀ ref txBlock, pool.lookup ref = some txBlock → txBlock ∈ txBlocks ∧ txBlock.hash crypto = ref

/-- The ledger after the transaction blocks of some references. -/
def AppliesRefs (crypto : Crypto) (txBlocks : List TXBlock) (refs : List H256)
    (before after : Ledger) : Prop :=
  ∃ pool txs, PoolOf crypto txBlocks pool ∧ referenced pool refs = some txs ∧
    applyTransactions crypto before txs = some after

/-- The height that the blocks derive for a hash. -/
abbrev Heights (crypto : Crypto) (blocks : List ProposerBlock) : H256 → UInt32 → Prop :=
  (blockTree crypto).Derives {block | block ∈ blocks} 0 fun _ height next => next = height + 1

/-- The ledger that the blocks derive for a hash from an offering. -/
abbrev Ledgers (crypto : Crypto) (blocks : List ProposerBlock) (txBlocks : List TXBlock)
    (offered : Ledger) : H256 → Ledger → Prop :=
  (blockTree crypto).Derives {block | block ∈ blocks} offered fun block before after =>
    AppliesRefs crypto txBlocks block.content.proposerContent before after

section Derived

variable {refs : List H256} {before after : Ledger} {pool : HashMap H256 TXBlock}

theorem PoolOf.lookup_eq (distinct : Set.InjOn (TXBlock.hash crypto) {txBlock | txBlock ∈ txBlocks})
    {other : HashMap H256 TXBlock} (isPool : PoolOf crypto txBlocks pool)
    (isPoolToo : PoolOf crypto txBlocks other) {ref : H256} (present : ref ∈ pool)
    (presentToo : ref ∈ other) : pool.lookup ref = other.lookup ref := by
  obtain ⟨txBlock, found⟩ := HashMap.lookup_of_mem present
  obtain ⟨otherBlock, foundToo⟩ := HashMap.lookup_of_mem presentToo
  obtain ⟨among, hash⟩ := isPool ref txBlock found
  obtain ⟨amongToo, hashToo⟩ := isPoolToo ref otherBlock foundToo
  have same : txBlock = otherBlock := distinct among amongToo (hash.trans hashToo.symm)
  rw [found, foundToo, same]

theorem AppliesRefs.of_pool
    (distinct : Set.InjOn (TXBlock.hash crypto) {txBlock | txBlock ∈ txBlocks})
    (applies : AppliesRefs crypto txBlocks refs before after)
    (isPool : PoolOf crypto txBlocks pool) (present : ∀ ref ∈ refs, ref ∈ pool) :
    ∃ txs, referenced pool refs = some txs ∧ applyTransactions crypto before txs = some after := by
  obtain ⟨other, txs, isPoolToo, collected, applied⟩ := applies
  refine ⟨txs, ?_, applied⟩
  rw [← collected]
  apply referenced_congr
  intro ref member
  exact isPool.lookup_eq distinct isPoolToo (present ref member)
    (mem_pool_of_referenced collected ref member)

theorem AppliesRefs.unique
    (distinct : Set.InjOn (TXBlock.hash crypto) {txBlock | txBlock ∈ txBlocks}) {other : Ledger}
    (applies : AppliesRefs crypto txBlocks refs before after)
    (again : AppliesRefs crypto txBlocks refs before other) : after = other := by
  obtain ⟨pool, txs, isPool, collected, applied⟩ := applies
  obtain ⟨txsToo, collectedToo, appliedToo⟩ :=
    again.of_pool distinct isPool (mem_pool_of_referenced collected)
  rw [collected, Option.some.injEq] at collectedToo
  subst collectedToo
  exact Option.some.inj (applied.symm.trans appliedToo)

theorem AppliesRefs.nil (before : Ledger) : AppliesRefs crypto txBlocks [] before before :=
  ⟨∅, [], fun ref txBlock found => by simp at found, rfl, applyTransactions_nil before⟩

theorem AppliesRefs.concat
    (distinct : Set.InjOn (TXBlock.hash crypto) {txBlock | txBlock ∈ txBlocks})
    (applies : AppliesRefs crypto txBlocks refs before after)
    (isPool : PoolOf crypto txBlocks pool) (present : ∀ ref ∈ refs, ref ∈ pool) {ref : H256}
    {txBlock : TXBlock} (found : pool.lookup ref = some txBlock) {next : Ledger}
    (applied : applyTransactions crypto after txBlock.content.transactionContent = some next) :
    AppliesRefs crypto txBlocks (refs ++ [ref]) before next := by
  obtain ⟨txs, collected, earlier⟩ := applies.of_pool distinct isPool present
  refine ⟨pool, txs ++ (txBlock.content.transactionContent ++ []), isPool, ?_, ?_⟩
  · rw [referenced_append, collected, referenced_cons.mpr ⟨txBlock, [], found, rfl, rfl⟩]
    rfl
  · rw [List.append_nil, applyTransactions_append, earlier, Option.bind_some, applied]

theorem Heights.unique (determined : Determined crypto blocks) {hash : H256}
    {height other : UInt32} (heights : Heights crypto blocks hash height)
    (again : Heights crypto blocks hash other) : height = other :=
  Parenting.Derives.unique determined.separated
    (fun _ _ _ _ _ first second => first.trans second.symm) heights again

theorem Ledgers.unique (determined : Determined crypto blocks)
    (distinct : Set.InjOn (TXBlock.hash crypto) {txBlock | txBlock ∈ txBlocks}) {hash : H256}
    {ledger other : Ledger} (ledgers : Ledgers crypto blocks txBlocks offered hash ledger)
    (again : Ledgers crypto blocks txBlocks offered hash other) : ledger = other :=
  Parenting.Derives.unique determined.separated
    (fun _ _ _ _ _ first second => first.unique distinct second) ledgers again

end Derived

/-! ## The maps -/

/-- Heights and ledgers of a node are those that the blocks derive, and it has the
transaction blocks that its tree refers to. -/
structure Node.Replayed (crypto : Crypto) (blocks : List ProposerBlock) (txBlocks : List TXBlock)
    (offered : Ledger) (node : Node) : Prop where
  heights : ∀ hash height, node.blockchain.heights.lookup hash = some height →
    Heights crypto blocks hash height
  states : ∀ hash ledger, node.globState.lookup hash = some ledger →
    Ledgers crypto blocks txBlocks offered hash ledger
  offered : genesisHash crypto ∈ node.globState
  pool : PoolOf crypto txBlocks node.txBlockPool
  pooled : ∀ hash block, node.blockchain.blocks.lookup hash = some block →
    hash ≠ genesisHash crypto → ∀ ref ∈ block.content.proposerContent, ref ∈ node.txBlockPool

/-- A ledger on the way from that of the parent to that of the block: some of the
references are applied, and the node has them. -/
structure Halfway (crypto : Crypto) (blocks : List ProposerBlock) (txBlocks : List TXBlock)
    (offered : Ledger) (node : Node) (each : ProposerBlock) (done : List H256)
    (currState : Ledger) : Prop where
  applies : ∃ parentLedger,
    Ledgers crypto blocks txBlocks offered each.header.proposerParent parentLedger ∧
      AppliesRefs crypto txBlocks done parentLedger currState
  pooled : ∀ ref ∈ done, ref ∈ node.txBlockPool

/-- The ledger that a thread has in hand before it runs a section.  The node has taken
over the offering, and no other is made. -/
def Section.Prices (crypto : Crypto) (blocks : List ProposerBlock) (txBlocks : List TXBlock)
    (offered : Ledger) (node : Node) : Section → Prop
  | .readTip use => use ≠ .ico
  | .countCoins _ | .readCoin _ _ _ _ | .insertIco _ _ => False
  | .applyRef _ each currState ref refs => ∃ done,
      each.content.proposerContent = done ++ ref :: refs ∧
        Halfway crypto blocks txBlocks offered node each done currState
  | .prunePool _ each currState | .insertState _ each currState =>
      Halfway crypto blocks txBlocks offered node each each.content.proposerContent currState
  | .insertBlock _ each => ∀ ref ∈ each.content.proposerContent, ref ∈ node.txBlockPool
  | .publishRef author newBlock _ currState =>
      Ledgers crypto blocks txBlocks offered newBlock.header.proposerParent currState ∧
        (author = .attacker → newBlock.content.proposerContent = [])
  | .selectTransactions draft | .minerRef draft | .transactionDifficulty draft
  | .proposerDifficulty draft _ =>
      Ledgers crypto blocks txBlocks offered draft.newParent draft.currState ∧
        (draft.author = .attacker → draft.propsBlockContent = [])
  | .selectRefs draft =>
      Ledgers crypto blocks txBlocks offered draft.newParent draft.currState ∧
        draft.author ≠ .attacker
  | _ => True

/-- The transaction block that a section puts into the pool. -/
def Section.pooledTX : Section → List TXBlock
  | .insertTransactionBlock each => [each]
  | _ => []

section Sections

variable {node after : Node} {current next : Section} {todo : List Section}
variable {each : ProposerBlock}

/-- Transaction blocks come into the pool in one section only. -/
theorem txBlockPool_of_run : (current.run crypto node).node.txBlockPool = node.txBlockPool ∨
    ∃ txBlock, current.pooledTX = [txBlock] ∧
      (current.run crypto node).node.txBlockPool =
        node.txBlockPool.insert (txBlock.hash crypto) txBlock := by
  cases current with
  | insertTransactionBlock each => exact .inr ⟨each, rfl, rfl⟩
  | giveTransaction _ | checkTransaction _ _ | giveTransactionBlock _ | giveProposerBlock _
  | applyRef _ _ _ _ _ | proposerDifficulty _ _ | countAddr _ _ | prunePool _ _ _
  | insertBlock _ _ =>
      left
      rw [Section.run]
      split
      all_goals simp
  | _ =>
      left
      simp [Section.run]

theorem mem_pool_of_run {ref : H256} (present : ref ∈ node.txBlockPool) :
    ref ∈ (current.run crypto node).node.txBlockPool := by
  rcases @txBlockPool_of_run crypto node current with same | ⟨txBlock, -, inserted⟩
  · rwa [same]
  · rw [inserted, Finmap.mem_insert]
    exact .inr present

theorem Halfway.mono {done : List H256} {currState : Ledger}
    (halfway : Halfway crypto blocks txBlocks offered node each done currState)
    (grows : ∀ ref ∈ node.txBlockPool, ref ∈ after.txBlockPool) :
    Halfway crypto blocks txBlocks offered after each done currState :=
  ⟨halfway.applies, fun ref member => grows ref (halfway.pooled ref member)⟩

theorem Section.Prices.mono (prices : current.Prices crypto blocks txBlocks offered node)
    (grows : ∀ ref ∈ node.txBlockPool, ref ∈ after.txBlockPool) :
    current.Prices crypto blocks txBlocks offered after := by
  cases current with
  | applyRef _ _ _ _ _ =>
      obtain ⟨done, content, halfway⟩ := prices
      exact ⟨done, content, halfway.mono grows⟩
  | prunePool _ _ _ | insertState _ _ _ => exact Halfway.mono prices grows
  | insertBlock _ _ => exact fun ref member => grows ref (prices ref member)
  | _ => exact prices

theorem prices_verify (each : ProposerBlock) (refs : List H256) :
    (Section.verify each refs).Prices crypto blocks txBlocks offered node := by
  cases refs <;> trivial

theorem prices_apply {author : Author} {done refs : List H256} {currState : Ledger}
    (content : each.content.proposerContent = done ++ refs)
    (halfway : Halfway crypto blocks txBlocks offered node each done currState) :
    (Section.apply author each currState refs).Prices crypto blocks txBlocks offered node := by
  cases refs with
  | nil =>
      rw [List.append_nil] at content
      exact (content ▸ halfway : Halfway crypto blocks txBlocks offered node each
        each.content.proposerContent currState)
  | cons ref refs => exact ⟨done, content, halfway⟩

theorem Section.Beside.prices (beside : next.Beside) (keeps : ¬ next.HandsOut) :
    next.Prices crypto blocks txBlocks offered node := by
  cases next with
  | insertIco _ _ | countCoins _ | readCoin _ _ _ _ => exact absurd trivial keeps
  | testAddr _ | pushAddr _ | relayAddr | giveTransaction _ | insertTransaction _
  | giveTransactionBlock _ | testPooled _ | removePooled _ | insertTransactionBlock _
  | testOwned _ _ | countAddr _ _ | pickAddr _ _ _ | readKey _ _ _ | insertGenerated _ => trivial
  | _ => cases beside

theorem Section.Prices.keeps (prices : current.Prices crypto blocks txBlocks offered node) :
    ¬ current.HandsOut := by
  cases current with
  | insertIco _ _ | countCoins _ | readCoin _ _ _ _ => exact prices.elim
  | _ => exact id

/-- The ledger that a section hands on is on the way to that of the block. -/
theorem Section.Prices.leads
    (distinct : Set.InjOn (TXBlock.hash crypto) {txBlock | txBlock ∈ txBlocks})
    (replayed : node.Replayed crypto blocks txBlocks offered)
    (prices : current.Prices crypto blocks txBlocks offered node)
    (leads : Leads crypto node current after next) :
    next.Prices crypto blocks txBlocks offered node := by
  cases leads with
  | beside _ _ _ enters =>
      apply enters.beside.prices
      intro handsOut
      rcases enters.unoffered handsOut with earlier | none
      · exact prices.keeps earlier
      · have known := replayed.offered
        rw [none] at known
        exact Finmap.notMem_empty known
  | tip use next member =>
      cases use with
      | ico => exact absurd rfl prices
      | transactions transactionVec =>
          obtain ⟨tx, -, rfl⟩ := List.mem_map.mp member
          trivial
      | startMiner | mine _ | mineAttacker _ | generate _ | inspect =>
          rw [List.mem_singleton.mp member]
          trivial
  | rooted each _ | signed each _ _ | release _ _ each _ => exact prices_verify each _
  | base each currState found =>
      exact prices_apply (List.nil_append _).symm
        ⟨⟨currState, replayed.states _ _ found, .nil currState⟩, by simp⟩
  | apply author each currState ledger ref refs txBlock found applied =>
      obtain ⟨done, content, ⟨parentLedger, ledgers, applies⟩, pooled⟩ := prices
      apply prices_apply (content.trans (List.append_cons done ref refs))
      refine ⟨⟨parentLedger, ledgers, ?_⟩, ?_⟩
      · exact applies.concat distinct replayed.pool pooled found applied
      · intro other inside
        rcases List.mem_append.mp inside with earlier | last
        · exact pooled other earlier
        · rw [List.mem_singleton.mp last]
          exact Finmap.mem_of_lookup_eq_some found
  | state author each currState => exact prices.pooled
  | attack author choice newParent currState found
  | draft author choice newParent currState found =>
      exact ⟨replayed.states _ _ found, fun _ => rfl⟩
  | prune _ _ _ _ | transactions _ _ | unselected _ _ _ _ | threshold _ _ => exact prices
  | pointed draft _ honest _ => exact ⟨prices.1, honest⟩
  | refs draft => exact ⟨prices.1, fun attacks => absurd attacks prices.2⟩
  | mined draft difficulty header parent => exact ⟨parent.symm ▸ prices.1, prices.2⟩
  | copy author newBlock concatenated currState attacks =>
      obtain ⟨ledgers, empty⟩ := prices
      change Halfway crypto blocks txBlocks offered node newBlock
        newBlock.content.proposerContent currState
      rw [empty attacks]
      exact ⟨⟨currState, ledgers, .nil currState⟩, by simp⟩
  | own author newBlock concatenated currState =>
      exact prices_apply (List.nil_append _).symm ⟨⟨currState, prices.1, .nil currState⟩, by simp⟩
  | _ => trivial

/-- What a section writes is what the blocks derive. -/
theorem Node.Replayed.run (replayed : node.Replayed crypto blocks txBlocks offered)
    (referenced : node.Referenced crypto blocks) (inHand : current.InHand crypto blocks node)
    (prices : current.Prices crypto blocks txBlocks offered node)
    (pools : ∀ txBlock ∈ current.pooledTX, txBlock ∈ txBlocks) :
    (current.run crypto node).node.Replayed crypto blocks txBlocks offered := by
  have writes : Writes crypto node current (current.run crypto node).node := writes_of_run
  have tree := writes.blockchain_cases referenced.chain (by
    rintro author each rfl
    exact inHand.1.2)
  constructor
  case heights =>
    intro hash height found
    rcases tree with same | ⟨author, each, rfl, inserted⟩
    · exact replayed.heights hash height (same ▸ found)
    · obtain ⟨parentHeight, parent, -, heights, -⟩ := Blockchain.insert_ok inserted
      rw [heights, HashMap.lookup_insert_ite] at found
      split at found
      · next same =>
          cases found
          rw [same]
          exact .child inHand.1.1 (replayed.heights _ _ parent) rfl
      · exact replayed.heights hash height found
  case states =>
    intro hash ledger found
    generalize (current.run crypto node).node = after at writes found
    cases writes with
    | beside _ _ _ _ globState _ => exact replayed.states hash ledger (globState ▸ found)
    | ico _ _ => exact prices.elim
    | state author each currState =>
        rw [HashMap.lookup_insert_ite] at found
        split at found
        · next same =>
            cases found
            obtain ⟨parentLedger, ledgers, applies⟩ := prices.applies
            rw [same]
            exact .child inHand.1.1 ledgers applies
        · exact replayed.states hash ledger found
    | push _ _ _ | create _ | release _ _ | genesisRef _ | ref _ _ | ownRef _ _ _ _ | block _ _ _ _
    | half _ _ _ _ => exact replayed.states hash ledger found
  case offered => exact writes.extends.globState _ replayed.offered
  case pool =>
    intro ref txBlock found
    rcases @txBlockPool_of_run crypto node current with same | ⟨added, isAdded, inserted⟩
    · exact replayed.pool ref txBlock (same ▸ found)
    · rw [inserted, HashMap.lookup_insert_ite] at found
      split at found
      · next same =>
          cases found
          exact ⟨pools txBlock (by simp [isAdded]), same.symm⟩
      · exact replayed.pool ref txBlock found
  case pooled =>
    intro hash block found notGenesis ref member
    apply mem_pool_of_run
    rcases tree with same | ⟨author, each, rfl, inserted⟩
    · exact replayed.pooled hash block (same ▸ found) notGenesis ref member
    · obtain ⟨_, -, stored, -⟩ := Blockchain.insert_ok inserted
      rw [stored, HashMap.lookup_insert_ite] at found
      split at found
      · cases found
        exact prices ref member
      · exact replayed.pooled hash block found notGenesis ref member

end Sections

/-! ## What a tree derives -/

section Trees

variable {node later : Node} {hash : H256}

/-- The entries of a tree whose maps hold what the blocks derive are those that a single
thread makes. -/
theorem settled_of_replayed (determined : Determined crypto blocks)
    (distinct : Set.InjOn (TXBlock.hash crypto) {txBlock | txBlock ∈ txBlocks})
    (ordered : node.Ordered crypto) (referenced : node.Referenced crypto blocks)
    (replayed : node.Replayed crypto blocks txBlocks offered) : Settled crypto node := by
  intro hash block found
  obtain ⟨inBlocks, own⟩ := referenced.stored hash block found
  subst own
  rcases referenced.chain.parents _ block found with genesis | parentKnown
  · exact .inl genesis
  right
  have known : block.hash crypto ∈ node.blockchain.blocks := Finmap.mem_of_lookup_eq_some found
  constructor
  · obtain ⟨parentHeight, parent⟩ :=
      HashMap.lookup_of_mem ((referenced.chain.heights _).mpr parentKnown)
    obtain ⟨height, lookup⟩ := HashMap.lookup_of_mem ((referenced.chain.heights _).mpr known)
    refine ⟨parentHeight, parent, ?_⟩
    rw [lookup]
    have derived : Heights crypto blocks (block.hash crypto) (parentHeight + 1) :=
      .child inBlocks (replayed.heights _ _ parent) rfl
    rw [(replayed.heights _ _ lookup).unique determined derived]
  · obtain ⟨parentRef, parent⟩ := HashMap.lookup_of_mem (ordered.published _ parentKnown).2
    obtain ⟨refs, lookup⟩ := HashMap.lookup_of_mem (ordered.published _ known).2
    refine ⟨parentRef, parent, ?_⟩
    rw [lookup]
    have derived : References crypto blocks (block.hash crypto)
        (mergeRef parentRef block.content.proposerContent) :=
      .child inBlocks (referenced.entries _ _ parent)
    rw [(referenced.entries _ _ lookup).unique determined derived]
  · obtain ⟨parentLedger, parent⟩ := HashMap.lookup_of_mem (ordered.published _ parentKnown).1
    obtain ⟨ledger, lookup⟩ := HashMap.lookup_of_mem (ordered.published _ known).1
    have parentLedgers := replayed.states _ _ parent
    have notGenesis : block.hash crypto ≠ genesisHash crypto :=
      parentLedgers.key_ne_root determined.separated inBlocks
    obtain ⟨before, beforeLedgers, applies⟩ :=
      (replayed.states _ _ lookup).of_block determined.separated inBlocks notGenesis
    obtain rfl := Ledgers.unique determined distinct beforeLedgers parentLedgers
    obtain ⟨txs, collected, applied⟩ :=
      applies.of_pool distinct replayed.pool (replayed.pooled _ block found notGenesis)
    exact ⟨txs, before, ledger, collected, parent, applied, lookup⟩

/-- Two states of the maps that hold what the blocks derive have the same entries at a
block that is in both trees. -/
theorem sameEntries_of_replayed (determined : Determined crypto blocks)
    (distinct : Set.InjOn (TXBlock.hash crypto) {txBlock | txBlock ∈ txBlocks})
    (ordered : node.Ordered crypto) (orderedLater : later.Ordered crypto)
    (referenced : node.Referenced crypto blocks) (referencedLater : later.Referenced crypto blocks)
    (replayed : node.Replayed crypto blocks txBlocks offered)
    (replayedLater : later.Replayed crypto blocks txBlocks offered)
    (known : hash ∈ node.blockchain.blocks) (knownLater : hash ∈ later.blockchain.blocks) :
    SameEntries node later hash := by
  constructor
  · obtain ⟨block, found⟩ := HashMap.lookup_of_mem known
    obtain ⟨other, foundLater⟩ := HashMap.lookup_of_mem knownLater
    obtain ⟨member, own⟩ := referenced.stored hash block found
    obtain ⟨memberLater, ownLater⟩ := referencedLater.stored hash other foundLater
    rw [found, foundLater, determined.injective memberLater member (ownLater.trans own.symm)]
  · obtain ⟨height, found⟩ := HashMap.lookup_of_mem ((referenced.chain.heights _).mpr known)
    obtain ⟨other, foundLater⟩ :=
      HashMap.lookup_of_mem ((referencedLater.chain.heights _).mpr knownLater)
    rw [found, foundLater, (replayedLater.heights _ _ foundLater).unique determined
      (replayed.heights _ _ found)]
  · obtain ⟨ledger, found⟩ := HashMap.lookup_of_mem (ordered.published hash known).1
    obtain ⟨other, foundLater⟩ := HashMap.lookup_of_mem (orderedLater.published hash knownLater).1
    rw [found, foundLater, (replayedLater.states _ _ foundLater).unique determined distinct
      (replayed.states _ _ found)]
  · obtain ⟨refs, found⟩ := HashMap.lookup_of_mem (ordered.published hash known).2
    obtain ⟨other, foundLater⟩ := HashMap.lookup_of_mem (orderedLater.published hash knownLater).2
    rw [found, foundLater, (referencedLater.entries _ _ foundLater).unique determined
      (referenced.entries _ _ found)]

end Trees

/-! ## Runs -/

namespace Threads

variable {Thread : Type*}

/-- The miner has started, the node has taken over an offering, and its pool of
transaction blocks is empty. -/
structure TookOver (crypto : Crypto) (offered : Ledger) (threads : Threads Thread) : Prop where
  started : threads.MinerStarted crypto
  globState : threads.node.globState =
    (∅ : HashMap H256 Ledger).insert (genesisHash crypto) offered
  txBlockPool : threads.node.txBlockPool = ∅

/-- The transaction block that an event puts into the pool. -/
def pooledTX (threads : Threads Thread) : Event Thread → List TXBlock
  | .handle _ _ => []
  | .run thread =>
      match threads.status thread with
      | .running (current :: _) => current.pooledTX
      | _ => []

/-- The event neither starts the miner once more nor makes another offering. -/
def StartsNothing (_ : Threads Thread) : Event Thread → Prop
  | .handle _ handler => handler ≠ .startMiner ∧ handler ≠ .ico
  | .run _ => True

instance (threads : Threads Thread) : DecidablePred threads.StartsNothing
  | .handle _ handler => inferInstanceAs (Decidable (handler ≠ .startMiner ∧ handler ≠ .ico))
  | .run _ => inferInstanceAs (Decidable True)

/-- The maps are in order and hold what the blocks derive, and every thread has
ledgers in hand that are on the way to derived ones. -/
structure Replayed (crypto : Crypto) (blocks : List ProposerBlock) (txBlocks : List TXBlock)
    (offered : Ledger) (threads : Threads Thread) : Prop where
  ordered : threads.Ordered crypto
  referenced : threads.Referenced crypto blocks
  node : threads.node.Replayed crypto blocks txBlocks offered
  prices : ∀ thread todo, threads.status thread = .running todo →
    ∀ current ∈ todo, current.Prices crypto blocks txBlocks offered threads.node

variable {threads : Threads Thread}

theorem TookOver.start (tookOver : threads.TookOver crypto offered) : threads.Start crypto where
  blockchain := tookOver.started.blockchain
  waiting := by simp [tookOver.started.orphanHandler]
  globState := by
    rw [tookOver.globState, Finmap.mem_insert]
    exact .inl rfl
  txBlockRef := by
    rw [tookOver.started.txBlockRef, Finmap.mem_insert]
    exact .inl rfl
  idle := tookOver.started.idle

theorem TookOver.replayed (tookOver : threads.TookOver crypto offered)
    (genesis : genesisBlock crypto ∈ blocks) :
    threads.Replayed crypto blocks txBlocks offered where
  ordered := tookOver.start.ordered
  referenced := tookOver.started.referenced genesis
  node :=
    { heights := by
        intro hash height found
        rw [tookOver.started.blockchain, Blockchain.new, HashMap.lookup_insert_ite] at found
        split at found
        · next same =>
            cases found
            rw [same]
            exact .root
        · simp at found
      states := by
        intro hash ledger found
        rw [tookOver.globState, HashMap.lookup_insert_ite] at found
        split at found
        · next same =>
            cases found
            rw [same]
            exact .root
        · simp at found
      offered := tookOver.start.globState
      pool := by
        intro ref txBlock found
        simp [tookOver.txBlockPool] at found
      pooled := by
        intro hash block found notGenesis
        rw [tookOver.started.blockchain, Blockchain.new, HashMap.lookup_insert_ite] at found
        split at found
        · next same => exact absurd same notGenesis
        · simp at found }
  prices := by
    intro thread todo running
    rw [tookOver.started.idle thread] at running
    cases running
    simp

theorem prices_sections {node : Node} {handler : Handler} (notIco : handler ≠ .ico) :
    ∀ current ∈ handler.sections crypto,
      current.Prices crypto blocks txBlocks offered node := by
  intro current member
  cases handler with
  | ico => exact absurd rfl notIco
  | receive message =>
      cases message with
      | ico _ _ | transactions _ =>
          rw [List.mem_singleton.mp member]
          simp [Section.Prices]
      | newAddr _ | newTransactionHashes _ | getTransactions _ | newTransactionBlockHashes _
      | getTransactionBlocks _ | transactionBlocks _ | newProposerBlockHashes _
      | getProposerBlocks _ | proposerBlocks _ =>
          obtain ⟨each, -, rfl⟩ := List.mem_map.mp member
          trivial
  | startMiner | mine _ | mineAttacker _ | generateAddress _ | generate _ | inspect =>
      rw [List.mem_singleton.mp member]
      simp [Section.Prices]

theorem StartsNothing.startsNoMiner {event : Event Thread} (nothing : threads.StartsNothing event) :
    threads.StartsNoMiner event := by
  cases event with
  | handle thread handler => exact nothing.1
  | run thread => trivial

variable [DecidableEq Thread]

theorem Replayed.step {after : Threads Thread} {event : Event Thread}
    (distinct : Set.InjOn (TXBlock.hash crypto) {txBlock | txBlock ∈ txBlocks})
    (replayed : threads.Replayed crypto blocks txBlocks offered)
    (known : ∀ block ∈ threads.brought event, block ∈ blocks)
    (pools : ∀ txBlock ∈ threads.pooledTX event, txBlock ∈ txBlocks)
    (nothing : threads.StartsNothing event) (stepped : threads.step crypto event = some after) :
    after.Replayed crypto blocks txBlocks offered := by
  refine ⟨replayed.ordered.step stepped,
    replayed.referenced.step known nothing.startsNoMiner stepped, ?_, ?_⟩
  all_goals rcases step_cases stepped with ⟨thread, handler, rfl, -, sameNode, statuses⟩ |
    ⟨thread, current, rest, rfl, running, afterNode, statuses⟩
  · rw [sameNode]
    exact replayed.node
  · rw [afterNode]
    refine replayed.node.run replayed.referenced.node ?_ ?_ ?_
    · exact replayed.referenced.inHand thread _ running current List.mem_cons_self
    · exact replayed.prices thread _ running current List.mem_cons_self
    · simpa [pooledTX, running] using pools
  · intro other todo status
    rw [sameNode]
    rw [statuses, Function.update_apply] at status
    split at status
    · cases status
      exact prices_sections nothing.2
    · exact replayed.prices other todo status
  · intro other todo status next member
    have prices := replayed.prices thread _ running
    have grows : ∀ ref ∈ threads.node.txBlockPool, ref ∈ after.node.txBlockPool := by
      rw [afterNode]
      exact fun ref => mem_pool_of_run
    apply Section.Prices.mono ?_ grows
    rw [statuses, Function.update_apply] at status
    split at status
    · rw [Passed.status] at status
      split at status
      · next new continues =>
          cases status
          rcases List.mem_append.mp member with isNew | left
          · exact (prices current List.mem_cons_self).leads distinct replayed.node
              (leads_of_run continues isNew)
          · exact prices next (List.mem_cons_of_mem _ left)
      · cases status
    · exact replayed.prices other todo status next member

theorem grows_of_step {after : Threads Thread} {event : Event Thread}
    (stepped : threads.step crypto event = some after) : threads.node.Grows after.node := by
  rcases step_cases stepped with ⟨_, _, -, -, sameNode, -⟩ | ⟨_, current, _, -, -, afterNode, -⟩
  · rw [sameNode]
    exact fun _ member => member
  · have writes : Writes crypto threads.node current after.node := by
      rw [afterNode]
      exact writes_of_run
    exact writes.extends.grows

theorem grows_of_sections {start : Threads Thread → Prop}
    (run : Run (@step crypto Thread _) start) {index later : Nat} (ordered : index ≤ later)
    (bound : later ≤ run.length) : (run.states index).node.Grows (run.states later).node := by
  induction later, ordered using Nat.le_induction with
  | base => exact fun _ member => member
  | succ later ordered ih =>
      intro hash member
      exact grows_of_step (run.steps later (by omega)) hash (ih (by omega) hash member)

/-- The transaction blocks that come into the pool over a run. -/
def broughtTXBlocks {start : Threads Thread → Prop} (run : Run (@step crypto Thread _) start) :
    List TXBlock :=
  (List.range run.length).flatMap fun index => (run.states index).pooledTX (run.actions index)

theorem tookOver_sample :
    TookOver Crypto.sample (icoState [.sample])
      (⟨State.sample.node, fun _ => .running []⟩ : Threads Bool) where
  started :=
    { blockchain := rfl
      orphanHandler := rfl
      txBlockRef := rfl
      idle := fun _ => rfl }
  globState := by decide +kernel
  txBlockPool := rfl

/-- Two workers accept one block: the second has its ledger in hand before the first
begins, and writes it when the first is done. -/
def twiceAcceptedRun : Run (@step Crypto.sample Bool _)
    (TookOver Crypto.sample (icoState [.sample])) :=
  Run.ofActions _ tookOver_sample
    (.handle false (.receive (.transactionBlocks [paymentBlock .sample 1000])) ::
      List.replicate 3 (.run false) ++
      .handle false (.receive (.proposerBlocks [paymentProposal])) ::
      .handle true (.receive (.proposerBlocks [paymentProposal])) ::
      List.replicate 8 (.run true) ++ List.replicate 11 (.run false) ++
      List.replicate 3 (.run true))
    (by decide +kernel)

end Threads

end SimplifiedPrism
