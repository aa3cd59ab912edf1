import SimplifiedPrism.LongestChain
import SimplifiedPrism.PublicationOrder
import SimplifiedPrism.ReferenceLists

/-!
# The references of a chain

A worker merges the references of a block into the list of its parent, in
`worker_loop` and in `new_parent`; the miner appends what it has selected to a
list that it read several locks earlier.  When a hash stands for one block, what
is derived for a hash from the blocks alone, with no state of the maps in it, can
never change.  Every list that is written anywhere is the derived one, so that a
list read long ago is still that of its block.
-/

namespace SimplifiedPrism

variable {crypto : Crypto} {blocks : List ProposerBlock}

/-! ## What blocks derive -/

/-- Among these blocks a hash stands for one block with its content, and none has
the fake hash that is the parent of genesis. -/
structure Determined (crypto : Crypto) (blocks : List ProposerBlock) : Prop where
  genesis : genesisBlock crypto ∈ blocks
  injective : Set.InjOn (ProposerBlock.hash crypto) {block | block ∈ blocks}
  notFake : ∀ block ∈ blocks, block.hash crypto ≠ fakeRoot crypto

instance (blocks : List ProposerBlock) : Decidable (Determined crypto blocks) :=
  decidable_of_iff
    (genesisBlock crypto ∈ blocks ∧
      (∀ block ∈ blocks, ∀ other ∈ blocks,
        block.hash crypto = other.hash crypto → block = other) ∧
      ∀ block ∈ blocks, block.hash crypto ≠ fakeRoot crypto)
    ⟨fun determined => ⟨determined.1,
        fun block member other otherMember => determined.2.1 block member other otherMember,
        determined.2.2⟩,
      fun determined => ⟨determined.genesis,
        fun _ member _ otherMember => determined.injective member otherMember,
        determined.notFake⟩⟩

/-- The list of references that the blocks derive for a hash. -/
inductive References (crypto : Crypto) (blocks : List ProposerBlock) : H256 → List H256 → Prop
  | genesis : References crypto blocks (genesisHash crypto) []
  | child {refs : List H256} {block : ProposerBlock} (member : block ∈ blocks)
      (parent : References crypto blocks block.header.proposerParent refs) :
      References crypto blocks (block.hash crypto)
        (mergeRef refs block.content.proposerContent)

section Derived

variable {hash : H256} {refs other : List H256}

theorem References.cases_hash (references : References crypto blocks hash refs) :
    hash = genesisHash crypto ∧ refs = [] ∨
      ∃ block ∈ blocks, block.hash crypto = hash ∧ ∃ parentRefs,
        References crypto blocks block.header.proposerParent parentRefs ∧
          refs = mergeRef parentRefs block.content.proposerContent := by
  cases references with
  | genesis => exact .inl ⟨rfl, rfl⟩
  | @child parentRefs block member parent => exact .inr ⟨block, member, rfl, _, parent, rfl⟩

theorem References.nodup (references : References crypto blocks hash refs) : refs.Nodup := by
  induction references with
  | genesis => exact List.nodup_nil
  | child _ _ ih => exact mergeRef_nodup ih

theorem References.ne_fakeRoot (determined : Determined crypto blocks)
    (references : References crypto blocks hash refs) : hash ≠ fakeRoot crypto := by
  rcases references.cases_hash with ⟨rfl, -⟩ | ⟨block, member, rfl, -⟩
  · exact determined.notFake _ determined.genesis
  · exact determined.notFake block member

theorem References.ne_genesisHash (determined : Determined crypto blocks) {block : ProposerBlock}
    (member : block ∈ blocks)
    (parent : References crypto blocks block.header.proposerParent refs) :
    block.hash crypto ≠ genesisHash crypto := by
  intro same
  have genesis : block = genesisBlock crypto :=
    determined.injective member determined.genesis same
  subst genesis
  exact parent.ne_fakeRoot determined rfl

/-- The blocks derive at most one list for a hash. -/
theorem References.unique (determined : Determined crypto blocks)
    (references : References crypto blocks hash refs)
    (again : References crypto blocks hash other) : refs = other := by
  induction references generalizing other with
  | genesis =>
      rcases again.cases_hash with ⟨-, empty⟩ | ⟨block, member, same, parentRefs, parent, -⟩
      · exact empty.symm
      · exact absurd same (parent.ne_genesisHash determined member)
  | @child parentRefs block member parent ih =>
      rcases again.cases_hash with ⟨same, -⟩ | ⟨stored, storedMember, same, _, parentAgain, rfl⟩
      · exact absurd same (parent.ne_genesisHash determined member)
      · have sameBlock : stored = block := determined.injective storedMember member same
        subst sameBlock
        rw [ih parentAgain]

end Derived

/-! ## What a tree says -/

/-- A block on the path, other than genesis, has the reference in its content. -/
def Blockchain.RefersTo (crypto : Crypto) (chain : Blockchain) (path : List H256)
    (ref : H256) : Prop :=
  ∃ hash ∈ path, hash ≠ genesisHash crypto ∧ ∃ block,
    chain.blocks.lookup hash = some block ∧ ref ∈ block.content.proposerContent

section Paths

variable {chain : Blockchain} {path : List H256} {hash ref : H256} {refs : List H256}

theorem Blockchain.not_refersTo_genesis :
    ¬ chain.RefersTo crypto [genesisHash crypto] ref := by
  rintro ⟨hash, member, notGenesis, -⟩
  exact notGenesis (List.mem_singleton.mp member)

theorem Blockchain.refersTo_concat {block : ProposerBlock}
    (stored : chain.blocks.lookup hash = some block) (notGenesis : hash ≠ genesisHash crypto) :
    chain.RefersTo crypto (path ++ [hash]) ref ↔
      chain.RefersTo crypto path ref ∨ ref ∈ block.content.proposerContent := by
  constructor
  · rintro ⟨each, member, other, found, lookup, inside⟩
    rw [List.mem_append, List.mem_singleton] at member
    rcases member with earlier | rfl
    · exact .inl ⟨each, earlier, other, found, lookup, inside⟩
    · rw [stored, Option.some.injEq] at lookup
      exact .inr (lookup ▸ inside)
  · rintro (⟨each, member, other, found, lookup, inside⟩ | inside)
    · exact ⟨each, List.mem_append_left _ member, other, found, lookup, inside⟩
    · exact ⟨hash, by simp, notGenesis, block, stored, inside⟩

/-- The derived list holds the references in the contents on the path, and
nothing else. -/
theorem Blockchain.Path.mem_iff (determined : Determined crypto blocks)
    (stored : ∀ hash block, chain.blocks.lookup hash = some block →
      block ∈ blocks ∧ block.hash crypto = hash)
    (reaches : Path crypto chain path hash) (references : References crypto blocks hash refs) :
    ref ∈ refs ↔ chain.RefersTo crypto path ref := by
  induction reaches generalizing refs with
  | genesis =>
      have empty : refs = [] := references.unique determined .genesis
      subst empty
      exact iff_of_false List.not_mem_nil not_refersTo_genesis
  | @child path hash block lookup notGenesis parent ih =>
      obtain ⟨member, own⟩ := stored hash block lookup
      rcases references.cases_hash with ⟨same, -⟩ | ⟨other, otherMember, same, _, parentRefs, rfl⟩
      · exact absurd same notGenesis
      · have sameBlock : other = block :=
          determined.injective otherMember member (same.trans own.symm)
        subst sameBlock
        rw [mem_mergeRef, ih parentRefs, refersTo_concat lookup notGenesis]

theorem References.exists_path (determined : Determined crypto blocks)
    (formed : chain.WellFormed crypto)
    (known : ∀ hash block, chain.blocks.lookup hash = some block → block ∈ blocks)
    (references : References crypto blocks hash refs) (member : hash ∈ chain.blocks) :
    ∃ path, Blockchain.Path crypto chain path hash := by
  induction references with
  | genesis => exact ⟨_, .genesis⟩
  | @child parentRefs block inBlocks parent ih =>
      obtain ⟨stored, lookup⟩ := HashMap.lookup_of_mem member
      have same : stored = block :=
        determined.injective (known _ _ lookup) inBlocks (formed.stored _ _ lookup)
      subst same
      have notGenesis := parent.ne_genesisHash determined inBlocks
      rcases formed.parents _ _ lookup with genesis | parentKnown
      · exact absurd (congrArg (ProposerBlock.hash crypto) genesis) notGenesis
      · obtain ⟨path, reaches⟩ := ih parentKnown
        exact ⟨_, .child lookup notGenesis reaches⟩

end Paths

/-! ## The maps -/

/-- Blocks and lists of references of a node are among those that the blocks
derive. -/
structure Node.Referenced (crypto : Crypto) (blocks : List ProposerBlock) (node : Node) :
    Prop where
  chain : node.blockchain.WellFormed crypto
  known : ∀ hash block, node.blockchain.blocks.lookup hash = some block → block ∈ blocks
  waiting : ∀ parent bucket, node.orphanHandler.lookup parent = some bucket →
    ∀ block ∈ bucket, block.header.proposerParent = parent ∧ block ∈ blocks
  entries : ∀ hash refs, node.txBlockRef.lookup hash = some refs →
    References crypto blocks hash refs
  published : ∀ hash ∈ node.blockchain.blocks, hash ∈ node.txBlockRef

/-- The list of references of a block: each reference once, those of the parent
first, and exactly those in the contents on the path. -/
structure ExactRefs (crypto : Crypto) (node : Node) (hash : H256) (path refs : List H256) :
    Prop where
  reaches : Blockchain.Path crypto node.blockchain path hash
  txBlockRef : node.txBlockRef.lookup hash = some refs
  nodup : refs.Nodup
  parent : ∀ block, node.blockchain.blocks.lookup hash = some block →
    hash ≠ genesisHash crypto → ∃ parentRefs,
      node.txBlockRef.lookup block.header.proposerParent = some parentRefs ∧ parentRefs <+: refs
  content : ∀ ref, ref ∈ refs ↔ node.blockchain.RefersTo crypto path ref

/-- Content for a block on top of `newParent`, selected against the list of its
references: no reference twice, and none that is in the list. -/
structure Selects (crypto : Crypto) (blocks : List ProposerBlock) (newParent : H256)
    (pointedTxBlocks content : List H256) : Prop where
  references : References crypto blocks newParent pointedTxBlocks
  nodup : content.Nodup
  unpointed : ∀ ref ∈ content, ref ∉ pointedTxBlocks

/-- The block extends one of the tree and references no transaction block twice
and none that its parent or an ancestor of it references. -/
structure OnlyNewRefs (crypto : Crypto) (node : Node) (newBlock : ProposerBlock) : Prop where
  parent : newBlock.header.proposerParent ∈ node.blockchain.blocks
  nodup : newBlock.content.proposerContent.Nodup
  unreferenced : ∀ path,
    Blockchain.Path crypto node.blockchain path newBlock.header.proposerParent →
      ∀ ref ∈ newBlock.content.proposerContent, ¬ node.blockchain.RefersTo crypto path ref

section Maps

variable {node : Node} {hash : H256}

theorem Node.Referenced.stored (referenced : node.Referenced crypto blocks) :
    ∀ hash block, node.blockchain.blocks.lookup hash = some block →
      block ∈ blocks ∧ block.hash crypto = hash :=
  fun hash block lookup =>
    ⟨referenced.known hash block lookup, referenced.chain.stored hash block lookup⟩

theorem Node.Referenced.exactRefs (determined : Determined crypto blocks)
    (referenced : node.Referenced crypto blocks) (member : hash ∈ node.blockchain.blocks) :
    ∃ path refs, ExactRefs crypto node hash path refs := by
  obtain ⟨refs, lookup⟩ := HashMap.lookup_of_mem (referenced.published hash member)
  have references := referenced.entries hash refs lookup
  obtain ⟨path, reaches⟩ :=
    references.exists_path determined referenced.chain referenced.known member
  refine ⟨path, refs, reaches, lookup, references.nodup, fun block stored notGenesis => ?_,
    fun ref => reaches.mem_iff determined referenced.stored references⟩
  obtain ⟨inBlocks, own⟩ := referenced.stored hash block stored
  have parentKnown : block.header.proposerParent ∈ node.blockchain.blocks := by
    refine (referenced.chain.parents hash block stored).resolve_left fun genesis => ?_
    rw [genesis] at own
    exact notGenesis own.symm
  obtain ⟨parentRefs, parentLookup⟩ := HashMap.lookup_of_mem (referenced.published _ parentKnown)
  refine ⟨parentRefs, parentLookup, ?_⟩
  have derived : References crypto blocks hash
      (mergeRef parentRefs block.content.proposerContent) :=
    own ▸ .child inBlocks (referenced.entries _ _ parentLookup)
  rw [references.unique determined derived]
  exact prefix_mergeRef parentRefs _

theorem Selects.onlyNewRefs (determined : Determined crypto blocks)
    (referenced : node.Referenced crypto blocks) {newBlock : ProposerBlock}
    {pointedTxBlocks : List H256}
    (parent : newBlock.header.proposerParent ∈ node.blockchain.blocks)
    (selects : Selects crypto blocks newBlock.header.proposerParent pointedTxBlocks
      newBlock.content.proposerContent) :
    OnlyNewRefs crypto node newBlock where
  parent := parent
  nodup := selects.nodup
  unreferenced := by
    intro path reaches ref member refers
    apply selects.unpointed ref member
    exact (reaches.mem_iff determined referenced.stored selects.references).mpr refers

end Maps

/-! ## What a thread has in hand -/

/-- What a thread has in hand before it runs a section: blocks that are among the
given ones, on top of one in the tree, and lists of references that they derive.
The miner has made its first write. -/
def Section.InHand (crypto : Crypto) (blocks : List ProposerBlock) (node : Node) :
    Section → Prop
  | .readTip use => use ≠ .startMiner
  | .insertGenesisRef _ => False
  | .testBlock each | .testParent each | .testBucket each | .pushOrphan each
  | .insertOrphan each => each ∈ blocks
  | .verifyRef each _ _ | .readRef each =>
      each ∈ blocks ∧ each.header.proposerParent ∈ node.blockchain.blocks
  | .insertRef each newRef =>
      (each ∈ blocks ∧ each.header.proposerParent ∈ node.blockchain.blocks) ∧
        References crypto blocks (each.hash crypto) newRef
  | .readState each | .applyRef _ each _ _ _ | .prunePool _ each _ | .insertState _ each _
  | .insertBlock _ each =>
      (each ∈ blocks ∧ each.header.proposerParent ∈ node.blockchain.blocks) ∧
        each.hash crypto ∈ node.txBlockRef
  | .testWaiting hash | .cloneWaiting hash => hash ∈ node.blockchain.blocks
  | .removeWaiting hash vec => hash ∈ node.blockchain.blocks ∧
      ∀ each ∈ vec, each.header.proposerParent = hash ∧ each ∈ blocks
  | .minerState _ _ newParent => newParent ∈ node.blockchain.blocks
  | .selectTransactions draft | .minerRef draft =>
      draft.newParent ∈ node.blockchain.blocks ∧ draft.propsBlockContent = []
  | .selectRefs draft => draft.newParent ∈ node.blockchain.blocks ∧
      References crypto blocks draft.newParent draft.pointedTxBlocks
  | .transactionDifficulty draft | .proposerDifficulty draft _ =>
      draft.newParent ∈ node.blockchain.blocks ∧
        Selects crypto blocks draft.newParent draft.pointedTxBlocks draft.propsBlockContent
  | .publishRef _ newBlock concatenated _ =>
      newBlock.header.proposerParent ∈ node.blockchain.blocks ∧ ∃ pointedTxBlocks,
        concatenated = pointedTxBlocks ++ newBlock.content.proposerContent ∧
        Selects crypto blocks newBlock.header.proposerParent pointedTxBlocks
          newBlock.content.proposerContent
  | _ => True

/-- The blocks that a section brings into the maps for the first time: those the
miner has built. -/
def Section.mined : Section → List ProposerBlock
  | .publishRef _ newBlock _ _ => [newBlock]
  | _ => []

section Sections

variable {node after : Node} {current next : Section}

theorem Section.InHand.mono (inHand : current.InHand crypto blocks node)
    (kept : node.Extends after) : current.InHand crypto blocks after := by
  cases current with
  | verifyRef _ _ _ | readRef _ => exact ⟨inHand.1, kept.grows _ inHand.2⟩
  | insertRef _ _ => exact ⟨⟨inHand.1.1, kept.grows _ inHand.1.2⟩, inHand.2⟩
  | readState _ | applyRef _ _ _ _ _ | prunePool _ _ _ | insertState _ _ _ | insertBlock _ _ =>
      exact ⟨⟨inHand.1.1, kept.grows _ inHand.1.2⟩, kept.txBlockRef _ inHand.2⟩
  | testWaiting _ | cloneWaiting _ | minerState _ _ _ => exact kept.grows _ inHand
  | removeWaiting _ _ | selectTransactions _ | minerRef _ | selectRefs _
  | transactionDifficulty _ | proposerDifficulty _ _ | publishRef _ _ _ _ =>
      exact ⟨kept.grows _ inHand.1, inHand.2⟩
  | _ => exact inHand

/-- A section writes only blocks that are known and lists that they derive. -/
theorem Node.Referenced.writes (referenced : node.Referenced crypto blocks)
    (inHand : current.InHand crypto blocks node) (mined : ∀ block ∈ current.mined, block ∈ blocks)
    (writes : Writes crypto node current after) : after.Referenced crypto blocks := by
  have kept := writes.extends
  have tree := writes.blockchain_cases referenced.chain (by
    rintro author each rfl
    exact inHand.1.2)
  constructor
  case chain =>
    rcases tree with same | ⟨_, each, -, inserted⟩
    · rw [same]
      exact referenced.chain
    · exact referenced.chain.insert inserted
  case known =>
    intro hash block lookup
    rcases tree with same | ⟨_, each, rfl, inserted⟩
    · exact referenced.known hash block (same ▸ lookup)
    · obtain ⟨_, -, stored, -⟩ := Blockchain.insert_ok inserted
      rw [stored, HashMap.lookup_insert_ite] at lookup
      split at lookup
      · cases lookup
        exact inHand.1.1
      · exact referenced.known hash block lookup
  case waiting =>
    refine writes.waiting referenced.waiting fun each enters => ⟨rfl, ?_⟩
    rcases enters with rfl | rfl
    · exact inHand
    · exact inHand
  case entries =>
    intro hash refs found
    have list (key : H256) (written : List H256) (references : References crypto blocks key written)
        (inserted : (node.txBlockRef.insert key written).lookup hash = some refs) :
        References crypto blocks hash refs := by
      rw [HashMap.lookup_insert_ite] at inserted
      split at inserted
      · next same =>
          cases inserted
          exact same ▸ references
      · exact referenced.entries hash refs inserted
    cases writes with
    | beside _ _ _ _ _ txBlockRef => exact referenced.entries hash refs (txBlockRef ▸ found)
    | genesisRef _ => exact inHand.elim
    | ref each newRef => exact list _ newRef inHand.2 found
    | ownRef _ newBlock concatenated _ =>
        obtain ⟨-, pointedTxBlocks, rfl, selects⟩ := inHand
        refine list _ _ ?_ found
        rw [← mergeRef_eq_append selects.nodup selects.unpointed]
        exact .child (mined newBlock (List.mem_singleton_self _)) selects.references
    | ico _ _ | push _ _ _ | create _ | release _ _ | state _ _ _ | block _ _ _ _
    | half _ _ _ _ => exact referenced.entries hash refs found
  case published =>
    intro hash member
    rcases tree with same | ⟨_, each, rfl, inserted⟩
    · exact kept.txBlockRef hash (referenced.published hash (same ▸ member))
    · obtain ⟨_, -, stored, -⟩ := Blockchain.insert_ok inserted
      rw [stored, Finmap.mem_insert] at member
      rcases member with rfl | earlier
      · exact kept.txBlockRef _ inHand.2
      · exact kept.txBlockRef hash (referenced.published hash earlier)

theorem inHand_verify {each : ProposerBlock} (member : each ∈ blocks)
    (parent : each.header.proposerParent ∈ node.blockchain.blocks) (refs : List H256) :
    (Section.verify each refs).InHand crypto blocks node := by
  cases refs with
  | nil => exact ⟨member, parent⟩
  | cons ref refs => exact ⟨member, parent⟩

theorem inHand_apply {each : ProposerBlock}
    (known : each ∈ blocks ∧ each.header.proposerParent ∈ node.blockchain.blocks)
    (hasRef : each.hash crypto ∈ node.txBlockRef) (author : Author) (currState : Ledger)
    (refs : List H256) : (Section.apply author each currState refs).InHand crypto blocks node := by
  cases refs with
  | nil => exact ⟨known, hasRef⟩
  | cons ref refs => exact ⟨known, hasRef⟩

theorem Section.Beside.inHand (beside : next.Beside) (node : Node) :
    next.InHand crypto blocks node := by
  cases next with
  | testAddr _ | pushAddr _ | relayAddr | insertIco _ _ | giveTransaction _ | insertTransaction _
  | giveTransactionBlock _ | testPooled _ | removePooled _ | insertTransactionBlock _
  | countCoins _ | readCoin _ _ _ _ | testOwned _ _ | countAddr _ _ | pickAddr _ _ _
  | readKey _ _ _ | insertGenerated _ => trivial
  | _ => exact beside.elim

/-- Every section hands on what the ones after it need. -/
theorem Section.InHand.leads (inHand : current.InHand crypto blocks node)
    (referenced : node.Referenced crypto blocks) (mined : ∀ block ∈ current.mined, block ∈ blocks)
    (possible : Section.Possible node current) (leads : Leads crypto node current after next) :
    next.InHand crypto blocks after := by
  cases leads with
  | beside _ _ _ enters => exact enters.beside.inHand after
  | tip use next member =>
      cases use with
      | startMiner => exact absurd rfl inHand
      | transactions transactionVec =>
          obtain ⟨tx, -, rfl⟩ := List.mem_map.mp member
          trivial
      | mine _ | mineAttacker _ =>
          rw [List.mem_singleton.mp member]
          exact referenced.chain.tip
      | ico | generate _ | inspect =>
          rw [List.mem_singleton.mp member]
          trivial
  | check _ _ | give _ _ => trivial
  | new _ | orphan _ | push _ | make _ | prune _ _ _ _ | state _ _ _ | waits _ | transactions _ _
  | threshold _ _ => exact inHand
  | rooted each parent => exact inHand_verify inHand parent _
  | signed each ref refs => exact inHand_verify inHand.1 inHand.2 refs
  | merge each parentRef found =>
      exact ⟨inHand, .child inHand.1 (referenced.entries _ _ found)⟩
  | ref each newRef => exact ⟨inHand.1, Finmap.mem_insert.mpr (.inl rfl)⟩
  | base each currState _ => exact inHand_apply inHand.1 inHand.2 _ _ _
  | apply author each currState ledger ref refs _ _ _ =>
      exact inHand_apply inHand.1 inHand.2 _ _ _
  | block author each blockchain inserted =>
      obtain ⟨_, -, stored, -⟩ := Blockchain.insert_ok inserted
      change each.hash crypto ∈ blockchain.blocks
      rw [stored, Finmap.mem_insert]
      exact .inl rfl
  | clone hash vec waiting => exact ⟨inHand, referenced.waiting hash vec waiting⟩
  | release hash vec each member =>
      obtain ⟨parent, inBlocks⟩ := inHand.2 each member
      apply inHand_verify inBlocks
      rw [parent]
      exact inHand.1
  | attack _ _ _ _ _ | draft _ _ _ _ _ => exact ⟨inHand, rfl⟩
  | pointed draft pointedTxBlocks _ found => exact ⟨inHand.1, referenced.entries _ _ found⟩
  | unselected draft pointedTxBlocks _ found =>
      -- the attacker's draft has no references
      obtain ⟨known, empty⟩ := inHand
      refine ⟨known, referenced.entries _ _ found, ?_, ?_⟩
      · rw [empty]
        exact List.nodup_nil
      · rw [empty]
        simp
  | refs draft =>
      exact ⟨inHand.1, inHand.2, (selectRefs_sublist _ _ _).nodup possible.nodup,
        fun ref selected => not_pointed_of_selectRefs selected⟩
  | mined draft difficulty header parent =>
      obtain ⟨known, selects⟩ := inHand
      rw [← parent] at known selects
      exact ⟨known, draft.pointedTxBlocks, rfl, selects⟩
  | copy author newBlock concatenated currState _ =>
      exact ⟨⟨mined newBlock (List.mem_singleton_self _), inHand.1⟩,
        Finmap.mem_insert.mpr (.inl rfl)⟩
  | own author newBlock concatenated currState =>
      apply inHand_apply
      · exact ⟨mined newBlock (List.mem_singleton_self _), inHand.1⟩
      · exact Finmap.mem_insert.mpr (.inl rfl)

end Sections

/-! ## Runs -/

namespace Threads

variable {Thread : Type*}

/-- The tree holds genesis alone, to which the miner has given an empty list of
references when it started; nothing waits and every thread is idle. -/
structure MinerStarted (crypto : Crypto) (threads : Threads Thread) : Prop where
  blockchain : threads.node.blockchain = Blockchain.new crypto
  orphanHandler : threads.node.orphanHandler = ∅
  txBlockRef : threads.node.txBlockRef =
    (∅ : HashMap H256 (List H256)).insert (genesisHash crypto) []
  idle : threads.Idle

/-- The proposer blocks that an event brings to the node: those of a received
message, and the one that a miner is about to publish. -/
def brought (threads : Threads Thread) : Event Thread → List ProposerBlock
  | .handle _ (.receive (.proposerBlocks proposerBlockVec)) => proposerBlockVec
  | .handle _ _ => []
  | .run thread =>
      match threads.status thread with
      | .running (current :: _) => current.mined
      | _ => []

/-- The event does not start the miner once more. -/
def StartsNoMiner (_ : Threads Thread) : Event Thread → Prop
  | .handle _ handler => handler ≠ .startMiner
  | .run _ => True

instance (threads : Threads Thread) : DecidablePred threads.StartsNoMiner
  | .handle _ handler => inferInstanceAs (Decidable (handler ≠ .startMiner))
  | .run _ => inferInstanceAs (Decidable True)

/-- The maps hold what the blocks derive, and so does every thread. -/
structure Referenced (crypto : Crypto) (blocks : List ProposerBlock)
    (threads : Threads Thread) : Prop where
  node : threads.node.Referenced crypto blocks
  inHand : ∀ thread todo, threads.status thread = .running todo →
    ∀ current ∈ todo, current.InHand crypto blocks threads.node

variable {threads : Threads Thread}

theorem MinerStarted.referenced (started : threads.MinerStarted crypto)
    (genesis : genesisBlock crypto ∈ blocks) : threads.Referenced crypto blocks where
  node :=
    { chain := by
        rw [started.blockchain]
        exact .new
      known := by
        intro hash block found
        rw [started.blockchain, Blockchain.new, HashMap.lookup_insert_ite] at found
        split at found
        · cases found
          exact genesis
        · simp at found
      waiting := by simp [started.orphanHandler]
      entries := by
        intro hash refs found
        rw [started.txBlockRef, HashMap.lookup_insert_ite] at found
        split at found
        · next same =>
            cases found
            rw [same]
            exact .genesis
        · simp at found
      published := by
        intro hash member
        rw [started.blockchain, Blockchain.new, Finmap.mem_insert] at member
        rw [started.txBlockRef, Finmap.mem_insert]
        rcases member with same | impossible
        · exact .inl same
        · exact absurd impossible Finmap.notMem_empty }
  inHand := by
    intro thread todo running
    rw [started.idle thread] at running
    cases running
    simp

theorem inHand_sections {node : Node} {handler : Handler} (notStart : handler ≠ .startMiner)
    (known : ∀ vec, handler = .receive (.proposerBlocks vec) → ∀ block ∈ vec, block ∈ blocks) :
    ∀ current ∈ handler.sections crypto, current.InHand crypto blocks node := by
  intro current member
  cases handler with
  | startMiner => exact absurd rfl notStart
  | receive message =>
      cases message with
      | proposerBlocks vec =>
          obtain ⟨each, inVec, rfl⟩ := List.mem_map.mp member
          exact known vec rfl each inVec
      | ico _ _ | transactions _ =>
          rw [List.mem_singleton.mp member]
          simp [Section.InHand]
      | newAddr _ | newTransactionHashes _ | getTransactions _ | newTransactionBlockHashes _
      | getTransactionBlocks _ | transactionBlocks _ | newProposerBlockHashes _
      | getProposerBlocks _ =>
          obtain ⟨each, -, rfl⟩ := List.mem_map.mp member
          trivial
  | mine _ | mineAttacker _ | generateAddress _ | ico | generate _ | inspect =>
      rw [List.mem_singleton.mp member]
      simp [Section.InHand]

variable [DecidableEq Thread]

theorem Referenced.step {after : Threads Thread} {event : Event Thread}
    (referenced : threads.Referenced crypto blocks)
    (known : ∀ block ∈ threads.brought event, block ∈ blocks)
    (once : threads.StartsNoMiner event) (stepped : threads.step crypto event = some after) :
    after.Referenced crypto blocks := by
  rcases step_cases stepped with ⟨thread, handler, rfl, -, sameNode, statuses⟩ |
    ⟨thread, current, rest, rfl, running, afterNode, statuses⟩
  · refine ⟨sameNode ▸ referenced.node, fun other todo status => ?_⟩
    rw [sameNode]
    rw [statuses, Function.update_apply] at status
    split at status
    · cases status
      refine inHand_sections once ?_
      rintro vec rfl
      exact known
    · exact referenced.inHand other todo status
  · have inHand := referenced.inHand thread _ running
    have own := inHand current List.mem_cons_self
    have mined : ∀ block ∈ current.mined, block ∈ blocks := by
      simpa [brought, running] using known
    have writes : Writes crypto threads.node current after.node := by
      rw [afterNode]
      exact writes_of_run
    have possible := possible_of_step running stepped
    refine ⟨referenced.node.writes own mined writes, fun other todo status => ?_⟩
    rw [statuses, Function.update_apply] at status
    split at status
    · rw [Passed.status] at status
      split at status
      · next new continues =>
          cases status
          intro next member
          rcases List.mem_append.mp member with isNew | left
          · rw [afterNode]
            exact own.leads referenced.node mined possible (leads_of_run continues isNew)
          · exact (inHand next (List.mem_cons_of_mem _ left)).mono writes.extends
      · cases status
    · exact fun next member => (referenced.inHand other todo status next member).mono
        writes.extends

/-- Genesis and the blocks brought to the node over a run. -/
def broughtBlocks {start : Threads Thread → Prop} (run : Run (@step crypto Thread _) start) :
    List ProposerBlock :=
  genesisBlock crypto ::
    (List.range run.length).flatMap fun index => (run.states index).brought (run.actions index)

/-- When a hash stands for one block, the list of references of every block of the
tree is exact, whatever the order of the sections; and a miner that is about to
publish a block has selected only references that are new on its chain. -/
theorem exactRefs_of_sections (run : Run (@step crypto Thread _) (MinerStarted crypto))
    (determined : Determined crypto (broughtBlocks run)) (once : run.Meets StartsNoMiner) :
    ∀ index ≤ run.length,
      (∀ hash ∈ (run.states index).node.blockchain.blocks, ∃ path refs,
        ExactRefs crypto (run.states index).node hash path refs) ∧
      ∀ thread author newBlock concatenated currState rest,
        (run.states index).status thread =
            .running (.publishRef author newBlock concatenated currState :: rest) →
          OnlyNewRefs crypto (run.states index).node newBlock := by
  have brings : run.Meets fun threads event =>
      (∀ block ∈ threads.brought event, block ∈ broughtBlocks run) ∧
        threads.StartsNoMiner event := by
    intro index bound
    refine ⟨fun block member => List.mem_cons_of_mem _ ?_, once index bound⟩
    exact List.mem_flatMap.mpr ⟨index, List.mem_range.mpr bound, member⟩
  have invariant := run.invariant_of_meets brings (Referenced crypto (broughtBlocks run))
    (fun _ started => started.referenced determined.genesis)
    (fun _ _ _ referenced ⟨known, once⟩ stepped => referenced.step known once stepped)
  intro index bound
  have referenced := invariant index bound
  refine ⟨fun hash member => referenced.node.exactRefs determined member, ?_⟩
  intro thread author newBlock concatenated currState rest running
  obtain ⟨parent, pointedTxBlocks, -, selects⟩ :=
    referenced.inHand thread _ running _ List.mem_cons_self
  exact selects.onlyNewRefs determined referenced.node parent

/-- The sample node with the block of the payment in its pool. -/
def poolNode : Node :=
  { State.sample.node with
    txBlockPool := State.sample.node.txBlockPool.insert (sampleHash 0x2001)
      (paymentBlock .sample 1000) }

theorem minerStarted_poolNode :
    MinerStarted Crypto.sample (⟨poolNode, fun _ => .running []⟩ : Threads Bool) where
  blockchain := rfl
  orphanHandler := rfl
  txBlockRef := rfl
  idle := fun _ => rfl

/-- The miner reads the list of genesis, a worker accepts a block that makes a
reference twice, and then the miner publishes. -/
def snapshotRun : Run (@step Crypto.sample Bool _) (MinerStarted Crypto.sample) :=
  Run.ofActions _ minerStarted_poolNode
    (.handle true (.mine ⟨[], [sampleHash 0x2001], 3, 0⟩) :: List.replicate 7 (.run true) ++
      .handle false (.receive (.proposerBlocks [twiceProposal])) ::
        List.replicate 13 (.run false) ++ List.replicate 5 (.run true))
    (by decide +kernel)

theorem exactRefs_snapshotRun :
    (snapshotRun.states 27).node.txBlockRef.lookup (sampleHash 2) = some [sampleHash 0x2001] ∧
      (snapshotRun.states 27).node.txBlockRef.lookup (sampleHash 3) = some [sampleHash 0x2001] ∧
      (∃ path refs, ExactRefs Crypto.sample (snapshotRun.states 27).node (sampleHash 2) path refs) ∧
      ∃ path refs,
        ExactRefs Crypto.sample (snapshotRun.states 27).node (sampleHash 3) path refs := by
  have determined : Determined Crypto.sample (broughtBlocks snapshotRun) := by decide +kernel
  have once : snapshotRun.Meets StartsNoMiner := by
    change ∀ index < 27, _
    decide +kernel
  have exactRefs :=
    (exactRefs_of_sections snapshotRun determined once 27 (by decide)).1
  exact ⟨by decide +kernel, by decide +kernel, exactRefs _ (by decide +kernel),
    exactRefs _ (by decide +kernel)⟩

end Threads

end SimplifiedPrism
