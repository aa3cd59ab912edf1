import Mathlib.Data.List.Find
import SimplifiedPrism.Blockchain
import SimplifiedPrism.TransitionSystem

/-!
# The block tree over its insertions

The worker and the miner insert a block only after they have seen its parent in
the tree.  This file follows a tree through any such sequence of insertions.
The height map is written without a look at what it held, so the argument has
to know that a header determines its hash and its parent: a block inserted
again gets the height it has, and the tip stays with the block that reached the
greatest height first.
-/

namespace SimplifiedPrism

variable (crypto : Crypto)

namespace Blockchain

/-- The insertion of a block whose parent is present. -/
def attach (chain : Blockchain) (block : ProposerBlock) : Option Blockchain :=
  if block.header.proposerParent ∈ chain.blocks then
    (chain.insert crypto block).toOption
  else
    none

/-- A block stands at the height of the tip. -/
def Highest (chain : Blockchain) (block : ProposerBlock) : Prop :=
  chain.heights.lookup (block.hash crypto) = some chain.longest

instance (chain : Blockchain) : DecidablePred (chain.Highest crypto) :=
  fun _ => inferInstanceAs (Decidable (_ = _))

/-- What the tree says about the blocks inserted so far, in the order of their
insertion, genesis first. -/
structure Records (crypto : Crypto) (inserted : List ProposerBlock)
    (chain : Blockchain) : Prop where
  keys : ∀ hash, hash ∈ chain.heights ↔ hash ∈ chain.blocks
  stored : ∀ hash block, chain.blocks.lookup hash = some block → block.hash crypto = hash
  known : ∀ hash block, chain.blocks.lookup hash = some block → block ∈ inserted
  kept : ∀ block ∈ inserted, block.hash crypto ∈ chain.blocks
  start : genesisBlock crypto ∈ inserted
  genesis : chain.heights.lookup (genesisHash crypto) = some 0
  parents : ∀ hash block, chain.blocks.lookup hash = some block →
    hash = genesisHash crypto ∨
    block.header.proposerParent ∈ chain.blocks ∧
    ∃ parentHeight height,
      chain.heights.lookup block.header.proposerParent = some parentHeight ∧
      chain.heights.lookup hash = some height ∧ height.toNat = parentHeight.toNat + 1
  longest : chain.Longest
  tip : (inserted.find? fun block => chain.Highest crypto block).map
    (ProposerBlock.hash crypto) = some chain.tip

variable {crypto}

/-- What is assumed of the headers that are inserted: they have different hashes
and none of them hashes to the fake parent of genesis. -/
structure Distinct (crypto : Crypto) (inserted : List ProposerBlock) : Prop where
  injective : Set.InjOn (Header.hash crypto)
    {header | ∃ block ∈ inserted, block.header = header}
  notFake : ∀ block ∈ inserted, block.hash crypto ≠ fakeRoot crypto

instance (inserted : List ProposerBlock) : Decidable (Distinct crypto inserted) :=
  decidable_of_iff
    ((∀ block ∈ inserted, ∀ other ∈ inserted,
        block.hash crypto = other.hash crypto → block.header = other.header) ∧
      ∀ block ∈ inserted, block.hash crypto ≠ fakeRoot crypto)
    ⟨fun distinct => ⟨by
        rintro _ ⟨block, member, rfl⟩ _ ⟨other, otherMember, rfl⟩ same
        exact distinct.1 block member other otherMember same, distinct.2⟩,
      fun distinct => ⟨fun block member other otherMember same =>
        distinct.injective ⟨block, member, rfl⟩ ⟨other, otherMember, rfl⟩ same,
        distinct.notFake⟩⟩

theorem Distinct.header_eq {inserted : List ProposerBlock}
    (distinct : Distinct crypto inserted) {block other : ProposerBlock}
    (member : block ∈ inserted) (otherMember : other ∈ inserted)
    (same : block.hash crypto = other.hash crypto) : block.header = other.header :=
  distinct.injective ⟨block, member, rfl⟩ ⟨other, otherMember, rfl⟩ same

theorem Records.new : Records crypto [genesisBlock crypto] (new crypto) where
  keys := WellFormed.new.heights
  stored := WellFormed.new.stored
  known := by
    intro hash block found
    rw [Blockchain.new, HashMap.lookup_insert_ite] at found
    split at found
    · cases found
      exact List.mem_singleton_self _
    · simp at found
  kept := by
    intro block member
    rw [List.mem_singleton] at member
    rw [member]
    exact WellFormed.new.genesis
  start := List.mem_singleton_self _
  genesis := by simp [Blockchain.new]
  parents := by
    intro hash block found
    rw [Blockchain.new, HashMap.lookup_insert_ite] at found
    split at found
    · next same => exact .inl same
    · simp at found
  longest := .new
  tip := by
    have highest : (Blockchain.new crypto).Highest crypto (genesisBlock crypto) := by
      simp [Highest, Blockchain.new, genesisHash]
    rw [List.find?_singleton, if_pos (decide_eq_true highest)]
    rfl

section Insert

variable {inserted : List ProposerBlock} {chain after : Blockchain} {block : ProposerBlock}

/-- No block on top of a known one has the hash of genesis, whose parent is fake. -/
theorem Distinct.ne_genesisHash (distinct : Distinct crypto (inserted ++ [block]))
    (start : genesisBlock crypto ∈ inserted)
    (stored : ∀ hash block, chain.blocks.lookup hash = some block → block.hash crypto = hash)
    (known : ∀ hash block, chain.blocks.lookup hash = some block → block ∈ inserted)
    (parent : block.header.proposerParent ∈ chain.blocks) :
    block.hash crypto ≠ genesisHash crypto := by
  intro same
  have sameHeader : block.header = (genesisBlock crypto).header :=
    distinct.header_eq (by simp) (List.mem_append_left _ start) same
  obtain ⟨parentBlock, lookup⟩ := HashMap.lookup_of_mem parent
  apply distinct.notFake parentBlock (List.mem_append_left _ (known _ _ lookup))
  rw [stored _ _ lookup, sameHeader]
  rfl

theorem Records.ne_genesisHash (records : Records crypto inserted chain)
    (distinct : Distinct crypto (inserted ++ [block]))
    (parent : block.header.proposerParent ∈ chain.blocks) :
    block.hash crypto ≠ genesisHash crypto :=
  distinct.ne_genesisHash records.start records.stored records.known parent

theorem Records.height_of_known (records : Records crypto inserted chain)
    (distinct : Distinct crypto (inserted ++ [block])) {parentHeight : UInt32}
    (found : chain.heights.lookup block.header.proposerParent = some parentHeight)
    (known : block.hash crypto ∈ chain.blocks) :
    chain.heights.lookup (block.hash crypto) = some (parentHeight + 1) := by
  obtain ⟨stored, lookup⟩ := HashMap.lookup_of_mem known
  have sameHeader : stored.header = block.header :=
    distinct.header_eq (List.mem_append_left _ (records.known _ _ lookup)) (by simp)
      (records.stored _ _ lookup)
  have parent : block.header.proposerParent ∈ chain.blocks :=
    (records.keys _).mp (Finmap.mem_of_lookup_eq_some found)
  rcases records.parents _ _ lookup with genesis | ⟨-, height, own, parentFound, ownFound, next⟩
  · exact absurd genesis (records.ne_genesisHash distinct parent)
  · rw [sameHeader, found] at parentFound
    cases parentFound
    have sameHeight : own = parentHeight + 1 := by
      apply UInt32.toNat_inj.mp
      have bound := own.toNat_lt
      rw [UInt32.toNat_add, UInt32.toNat_one, Nat.mod_eq_of_lt (by omega), next]
    rw [ownFound, sameHeight]

theorem Records.heights_kept (records : Records crypto inserted chain)
    (distinct : Distinct crypto (inserted ++ [block]))
    (insertion : chain.insert crypto block = .ok after) :
    ∀ hash ∈ chain.heights, after.heights.lookup hash = chain.heights.lookup hash := by
  intro hash known
  obtain ⟨parentHeight, found, -, heights, -, -⟩ := insert_ok insertion
  rw [heights, HashMap.lookup_insert_ite]
  split
  · next same =>
      subst same
      exact (records.height_of_known distinct found ((records.keys _).mp known)).symm
  · rfl

/-- The first block of greatest height after an insertion: the new block when it
is higher than all before it, the old tip otherwise. -/
theorem Records.tip_insert (records : Records crypto inserted chain)
    (distinct : Distinct crypto (inserted ++ [block]))
    (insertion : chain.insert crypto block = .ok after) :
    ((inserted ++ [block]).find? fun block => after.Highest crypto block).map
      (ProposerBlock.hash crypto) = some after.tip := by
  have heightsKept := records.heights_kept distinct insertion
  obtain ⟨parentHeight, found, -, heights, longest, tip⟩ := insert_ok insertion
  have sameHeight : ∀ earlier ∈ inserted,
      after.heights.lookup (earlier.hash crypto) =
        chain.heights.lookup (earlier.hash crypto) := fun earlier member =>
    heightsKept _ ((records.keys _).mpr (records.kept earlier member))
  rw [Blockchain.tip, tip]
  split
  · next higher =>
      rw [if_pos higher] at longest
      have noneBefore : inserted.find? (fun block => after.Highest crypto block) = none := by
        rw [List.find?_eq_none]
        intro earlier member highest
        have atTop := of_decide_eq_true highest
        rw [Highest, sameHeight earlier member, longest] at atTop
        have bound := records.longest.bound _ _ atTop
        exact absurd higher (UInt32.not_lt.mpr bound)
      have highest : after.Highest crypto block := by
        rw [Highest, heights, Finmap.lookup_insert, longest]
      rw [List.find?_append, noneBefore, Option.none_or,
        List.find?_singleton, if_pos (decide_eq_true highest), Option.map_some]
  · next notHigher =>
      rw [if_neg notHigher] at longest
      have sameFirst : inserted.find? (fun block => after.Highest crypto block) =
          inserted.find? fun block => chain.Highest crypto block := by
        apply List.find?_congr
        intro earlier member
        apply decide_eq_decide.mpr
        rw [Highest, Highest, sameHeight earlier member, longest]
      obtain ⟨first, found, hash⟩ := Option.map_eq_some_iff.mp records.tip
      rw [List.find?_append, sameFirst, found, Option.some_or, Option.map_some, hash,
        Blockchain.tip]

theorem Records.insert (records : Records crypto inserted chain)
    (distinct : Distinct crypto (inserted ++ [block]))
    (fits : ∀ height, chain.heights.lookup block.header.proposerParent = some height →
      height.toNat + 1 < 2 ^ 32)
    (insertion : chain.insert crypto block = .ok after) :
    Records crypto (inserted ++ [block]) after := by
  have heightsKept := records.heights_kept distinct insertion
  have tip := records.tip_insert distinct insertion
  obtain ⟨parentHeight, found, blocks, heights, -, -⟩ := insert_ok insertion
  have parent : block.header.proposerParent ∈ chain.blocks :=
    (records.keys _).mp (Finmap.mem_of_lookup_eq_some found)
  have stays : ∀ hash ∈ chain.blocks, hash ∈ after.blocks := fun hash member => by
    rw [blocks, Finmap.mem_insert]
    exact .inr member
  constructor
  case keys =>
    intro hash
    rw [blocks, heights, Finmap.mem_insert, Finmap.mem_insert, records.keys]
  case stored =>
    intro hash stored lookup
    rw [blocks, HashMap.lookup_insert_ite] at lookup
    split at lookup
    · next same =>
        cases lookup
        exact same.symm
    · exact records.stored hash stored lookup
  case known =>
    intro hash stored lookup
    rw [blocks, HashMap.lookup_insert_ite] at lookup
    split at lookup
    · cases lookup
      exact List.mem_append_right _ (List.mem_singleton_self _)
    · exact List.mem_append_left _ (records.known hash stored lookup)
  case kept =>
    intro earlier member
    rcases List.mem_append.mp member with before | last
    · exact stays _ (records.kept earlier before)
    · rw [List.mem_singleton.mp last, blocks, Finmap.mem_insert]
      exact .inl rfl
  case start => exact List.mem_append_left _ records.start
  case genesis =>
    rw [heightsKept _ (Finmap.mem_of_lookup_eq_some records.genesis), records.genesis]
  case parents =>
    intro hash stored lookup
    rw [blocks, HashMap.lookup_insert_ite] at lookup
    split at lookup
    · next same =>
        cases lookup
        subst same
        refine .inr ⟨stays _ parent, parentHeight, parentHeight + 1, ?_, ?_, ?_⟩
        · rw [heightsKept _ (Finmap.mem_of_lookup_eq_some found), found]
        · rw [heights, Finmap.lookup_insert]
        · have small := fits _ found
          rw [UInt32.toNat_add, UInt32.toNat_one, Nat.mod_eq_of_lt small]
    · rcases records.parents hash stored lookup with genesis | old
      · exact .inl genesis
      · obtain ⟨oldParent, height, own, parentFound, ownFound, next⟩ := old
        refine .inr ⟨stays _ oldParent, height, own, ?_, ?_, next⟩
        · rw [heightsKept _ (Finmap.mem_of_lookup_eq_some parentFound), parentFound]
        · rw [heightsKept _ (Finmap.mem_of_lookup_eq_some ownFound), ownFound]
  case longest => exact records.longest.insert insertion heightsKept
  case tip => exact tip

theorem Records.insert_known (records : Records crypto inserted chain)
    (distinct : Distinct crypto inserted)
    (known : chain.blocks.lookup (block.hash crypto) = some block)
    (parent : block.header.proposerParent ∈ chain.blocks) :
    chain.insert crypto block = .ok chain := by
  have again : Distinct crypto (inserted ++ [block]) := by
    have member := records.known _ _ known
    have same : ∀ other, other ∈ inserted ++ [block] ↔ other ∈ inserted := by
      intro other
      simp only [List.mem_append, List.mem_singleton]
      constructor
      · rintro (before | rfl)
        · exact before
        · exact member
      · exact .inl
    constructor
    · simpa only [same] using distinct.injective
    · simpa only [same] using distinct.notFake
  obtain ⟨after, insertion⟩ := insert_isOk crypto ((records.keys _).mpr parent)
  obtain ⟨parentHeight, found, blocks, heights, longest, tip⟩ := insert_ok insertion
  have height := records.height_of_known again found (Finmap.mem_of_lookup_eq_some known)
  have notHigher : ¬ chain.longest < parentHeight + 1 :=
    UInt32.not_lt.mpr (records.longest.bound _ _ height)
  rw [HashMap.insert_lookup_self known] at blocks
  rw [HashMap.insert_lookup_self height] at heights
  rw [if_neg notHigher] at longest tip
  rw [insertion]
  cases after
  cases chain
  simp only at blocks heights longest tip
  rw [blocks, heights, longest, tip]

end Insert

/-! ## Runs of insertions -/

/-- The blocks inserted before a state of a run, in order, genesis first. -/
def insertions (run : Run (attach crypto) (· = new crypto)) (index : Nat) :
    List ProposerBlock :=
  genesisBlock crypto :: (List.range index).map run.actions

theorem insertions_succ (run : Run (attach crypto) (· = new crypto)) (index : Nat) :
    insertions run (index + 1) = insertions run index ++ [run.actions index] := by
  simp [insertions, List.range_succ]

theorem attach_ok {chain after : Blockchain} {block : ProposerBlock}
    (attached : chain.attach crypto block = some after) :
    block.header.proposerParent ∈ chain.blocks ∧ chain.insert crypto block = .ok after := by
  unfold attach at attached
  split at attached
  · next parent =>
      cases result : chain.insert crypto block with
      | error chain => simp [result, Except.toOption] at attached
      | ok inserted =>
          simp only [result, Except.toOption, Option.some.injEq] at attached
          exact ⟨parent, by rw [attached]⟩
  · cases attached

theorem Distinct.mono {inserted more : List ProposerBlock} (distinct : Distinct crypto more)
    (sub : inserted ⊆ more) : Distinct crypto inserted where
  injective := distinct.injective.mono fun _ found =>
    found.imp fun _ within => ⟨sub within.1, within.2⟩
  notFake := fun block member => distinct.notFake block (sub member)

theorem insertions_subset (run : Run (attach crypto) (· = new crypto)) {index later : Nat}
    (order : index ≤ later) : insertions run index ⊆ insertions run later := by
  apply List.cons_subset_cons
  apply List.map_subset
  intro earlier member
  simp only [List.mem_range] at member ⊢
  omega

/-- In every state of every sequence of insertions below known parents, the tree
records its blocks: keys, heights, parents, the greatest height and the first
block that reached it.  Whenever the parent of a block is present its insertion
succeeds, and it changes nothing when the block is known. -/
theorem records_of_insertions (run : Run (attach crypto) (· = new crypto))
    (distinct : Distinct crypto (insertions run run.length))
    (fits : ∀ index < run.length, ∀ height,
      (run.states index).heights.lookup (run.actions index).header.proposerParent =
        some height → height.toNat + 1 < 2 ^ 32) :
    ∀ index ≤ run.length,
      Records crypto (insertions run index) (run.states index) ∧
      ∀ block : ProposerBlock, block.header.proposerParent ∈ (run.states index).blocks →
        ((run.states index).insert crypto block).isOk = true ∧
        ((run.states index).blocks.lookup (block.hash crypto) = some block →
          (run.states index).insert crypto block = .ok (run.states index)) := by
  intro index bound
  have records : Records crypto (insertions run index) (run.states index) := by
    induction index with
    | zero =>
        rw [run.starts]
        exact .new
    | succ index ih =>
        have attached := run.steps index (by omega)
        have soFar := distinct.mono (insertions_subset run bound)
        rw [insertions_succ] at soFar ⊢
        exact (ih (by omega)).insert soFar (fits index (by omega)) (attach_ok attached).2
  refine ⟨records, fun block parent => ⟨?_, fun known => ?_⟩⟩
  · obtain ⟨after, inserted⟩ := insert_isOk crypto ((records.keys _).mpr parent)
    rw [inserted]
    rfl
  · exact records.insert_known (distinct.mono (insertions_subset run bound)) known parent

/-- A block with a nonce and a parent of one's choice. -/
def forkBlock (nonce : UInt32) (parent : H256) : ProposerBlock where
  header :=
    { proposerParent := parent
      nonce := nonce
      timestamp := 0
      transactionDifficulty := genesisTransactionDifficulty
      proposerDifficulty := genesisProposerDifficulty
      merkleTransaction := H256.zero
      merkleProposer := H256.zero }
  content := ⟨[]⟩

instance : Inhabited ProposerBlock :=
  ⟨genesisBlock Crypto.sample⟩

/-- Two blocks on genesis, the first of them once more, and a block on the
second that overtakes the first. -/
def forkRun : Run (attach Crypto.sample) (· = new Crypto.sample) :=
  let first := forkBlock 2 (genesisHash Crypto.sample)
  let second := forkBlock 3 (genesisHash Crypto.sample)
  Run.ofActions (new Crypto.sample) rfl
    [first, second, first, forkBlock 4 (second.hash Crypto.sample)] (by decide +kernel)

theorem records_forkRun :
    Records Crypto.sample (insertions forkRun 4) (forkRun.states 4) ∧
      (forkRun.states 3).tip = (forkBlock 2 (genesisHash Crypto.sample)).hash Crypto.sample ∧
      (forkRun.states 4).longest = 2 := by
  have distinct : Distinct Crypto.sample (insertions forkRun forkRun.length) := by
    decide +kernel
  have fits : ∀ index < forkRun.length, ∀ height,
      (forkRun.states index).heights.lookup
          (forkRun.actions index).header.proposerParent = some height →
        height.toNat + 1 < 2 ^ 32 := by
    change ∀ index < 4, ∀ height, _ = some height → _
    simp only [← Option.mem_def]
    decide +kernel
  exact ⟨(records_of_insertions forkRun distinct fits 4 (by decide)).1,
    by decide +kernel, by decide +kernel⟩

end Blockchain

end SimplifiedPrism
