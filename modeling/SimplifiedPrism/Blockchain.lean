import SimplifiedPrism.FiniteMap
import SimplifiedPrism.Merkle

/-!
# The block tree

`Blockchain` stores every accepted proposer block under its header hash, with
its height, and follows the first block that reached the greatest height.
-/

namespace SimplifiedPrism

structure Blockchain where
  blocks : HashMap H256 ProposerBlock
  heights : HashMap H256 UInt32
  longest : UInt32
  tipNodeHash : H256
deriving DecidableEq

variable (crypto : Crypto)

/-- `MerkleTree::new(&vec![H256([0;32])]).root()`, the fake hash in genesis. -/
def fakeRoot : H256 :=
  ((MerkleTree.new crypto (H256.hash crypto) [H256.zero]).get
    (by simp)).root

def genesisTransactionDifficulty : H256 :=
  .fill 255 [127]

def genesisProposerDifficulty : H256 :=
  .fill 255 [15]

/-- The genesis block; most of its header is fake. -/
def genesisBlock : ProposerBlock where
  header :=
    { proposerParent := fakeRoot crypto
      nonce := 1
      timestamp := 1
      transactionDifficulty := genesisTransactionDifficulty
      proposerDifficulty := genesisProposerDifficulty
      merkleTransaction := fakeRoot crypto
      merkleProposer := fakeRoot crypto }
  content := ⟨[H256.zero]⟩

def genesisHash : H256 :=
  (genesisBlock crypto).hash crypto

namespace Blockchain

/-- A new blockchain, only containing the genesis block. -/
def new : Blockchain where
  blocks := (∅ : HashMap H256 ProposerBlock).insert (genesisHash crypto) (genesisBlock crypto)
  heights := (∅ : HashMap H256 UInt32).insert (genesisHash crypto) 0
  longest := 0
  tipNodeHash := genesisHash crypto

/-- Insert a block.  The block is stored before the height of its parent is
looked up, so a panicking lookup leaves it behind (`.error`).  Heights wrap
around as `u32` sums do without overflow checks. -/
def insert (chain : Blockchain) (block : ProposerBlock) :
    Except Blockchain Blockchain :=
  let hash := block.hash crypto
  let chain := { chain with blocks := chain.blocks.insert hash block }
  match chain.heights.lookup block.header.proposerParent with
  | none => .error chain
  | some parentHeight =>
      let currHeight := parentHeight + 1
      let chain := { chain with heights := chain.heights.insert hash currHeight }
      if chain.longest < currHeight then
        .ok { chain with longest := currHeight, tipNodeHash := hash }
      else
        .ok chain

/-- The hash of the last block of the longest chain. -/
def tip (chain : Blockchain) : H256 :=
  chain.tipNodeHash

variable {crypto}

/-- What a successful insertion does to the tree. -/
theorem insert_ok {chain after : Blockchain} {block : ProposerBlock}
    (inserted : chain.insert crypto block = .ok after) :
    ∃ parentHeight,
      chain.heights.lookup block.header.proposerParent = some parentHeight ∧
      after.blocks = chain.blocks.insert (block.hash crypto) block ∧
      after.heights = chain.heights.insert (block.hash crypto) (parentHeight + 1) ∧
      after.longest =
        (if chain.longest < parentHeight + 1 then parentHeight + 1 else chain.longest) ∧
      after.tipNodeHash =
        if chain.longest < parentHeight + 1 then block.hash crypto else chain.tipNodeHash := by
  simp only [insert] at inserted
  split at inserted
  · cases inserted
  · next parentHeight found =>
      refine ⟨parentHeight, found, ?_⟩
      split at inserted
      · next less =>
          cases inserted
          exact ⟨rfl, rfl, (if_pos less).symm, (if_pos less).symm⟩
      · next notLess =>
          cases inserted
          exact ⟨rfl, rfl, (if_neg notLess).symm, (if_neg notLess).symm⟩

theorem blocks_of_insert_error {chain after : Blockchain} {block : ProposerBlock}
    (failed : chain.insert crypto block = .error after) :
    after.blocks = chain.blocks.insert (block.hash crypto) block := by
  simp only [insert] at failed
  split at failed
  · cases failed
    rfl
  · split at failed
    · cases failed
    · cases failed

/-- What every block tree satisfies: blocks are stored under their own hash and
have a height, genesis and the tip are in the tree, and so is the parent of
every other block. -/
structure WellFormed (crypto : Crypto) (chain : Blockchain) : Prop where
  stored : ∀ hash block, chain.blocks.lookup hash = some block → block.hash crypto = hash
  heights : ∀ hash, hash ∈ chain.heights ↔ hash ∈ chain.blocks
  genesis : genesisHash crypto ∈ chain.blocks
  tip : chain.tip ∈ chain.blocks
  parents : ∀ hash block, chain.blocks.lookup hash = some block →
    block = genesisBlock crypto ∨ block.header.proposerParent ∈ chain.blocks

theorem WellFormed.new : (new crypto).WellFormed crypto where
  stored := by
    intro hash block found
    rw [Blockchain.new, HashMap.lookup_insert_ite] at found
    split at found
    · next same =>
        cases found
        exact same.symm
    · simp at found
  heights := by
    intro hash
    simp [Blockchain.new, Finmap.notMem_empty]
  genesis := by simp [Blockchain.new]
  tip := by simp [Blockchain.new, Blockchain.tip]
  parents := by
    intro hash block found
    rw [Blockchain.new, HashMap.lookup_insert_ite] at found
    split at found
    · cases found
      exact .inl rfl
    · simp at found

theorem WellFormed.insert {chain after : Blockchain} {block : ProposerBlock}
    (formed : chain.WellFormed crypto) (inserted : chain.insert crypto block = .ok after) :
    after.WellFormed crypto := by
  obtain ⟨parentHeight, found, blocks, heights, -, tip⟩ := insert_ok inserted
  have parent : block.header.proposerParent ∈ chain.blocks :=
    (formed.heights _).mp (Finmap.mem_of_lookup_eq_some found)
  constructor
  · intro hash stored lookup
    rw [blocks, HashMap.lookup_insert_ite] at lookup
    split at lookup
    · next same =>
        cases lookup
        exact same.symm
    · exact formed.stored hash stored lookup
  · intro hash
    rw [blocks, heights, Finmap.mem_insert, Finmap.mem_insert, formed.heights]
  · rw [blocks, Finmap.mem_insert]
    exact .inr formed.genesis
  · rw [Blockchain.tip, blocks, tip, Finmap.mem_insert]
    split
    · exact .inl rfl
    · exact .inr formed.tip
  · intro hash stored lookup
    rw [blocks, HashMap.lookup_insert_ite] at lookup
    rw [blocks, Finmap.mem_insert]
    split at lookup
    · cases lookup
      exact .inr (.inr parent)
    · rcases formed.parents hash stored lookup with genesis | member
      · exact .inl genesis
      · exact .inr (.inr member)

/-- `longest` is the greatest height of the tree. -/
structure Longest (chain : Blockchain) : Prop where
  bound : ∀ hash height, chain.heights.lookup hash = some height → height ≤ chain.longest
  attained : ∃ hash, chain.heights.lookup hash = some chain.longest

theorem Longest.new : (new crypto).Longest where
  bound := by
    intro hash height found
    rw [Blockchain.new, HashMap.lookup_insert_ite] at found
    split at found
    · cases found
      exact UInt32.le_refl 0
    · simp at found
  attained := ⟨genesisHash crypto, by simp [Blockchain.new]⟩

theorem Longest.eq_of_heights {chain other : Blockchain} (longest : chain.Longest)
    (otherLongest : other.Longest) (same : chain.heights = other.heights) :
    chain.longest = other.longest := by
  obtain ⟨hash, found⟩ := longest.attained
  obtain ⟨otherHash, otherFound⟩ := otherLongest.attained
  rw [same] at found
  rw [← same] at otherFound
  apply UInt32.le_antisymm
  · exact otherLongest.bound hash _ found
  · exact longest.bound otherHash _ otherFound

/-- An insertion that changes no height keeps the greatest one. -/
theorem Longest.insert {chain after : Blockchain} {block : ProposerBlock}
    (longest : chain.Longest) (inserted : chain.insert crypto block = .ok after)
    (kept : ∀ hash ∈ chain.heights, after.heights.lookup hash = chain.heights.lookup hash) :
    after.Longest := by
  obtain ⟨parentHeight, -, -, heights, greatest, -⟩ := insert_ok inserted
  constructor
  · intro hash height found
    rw [heights, HashMap.lookup_insert_ite] at found
    rw [greatest]
    split at found
    · cases found
      split
      · exact UInt32.le_refl _
      · next notLess => exact UInt32.not_lt.mp notLess
    · have bound := longest.bound hash height found
      split
      · next less => exact UInt32.le_trans bound (UInt32.le_of_lt less)
      · exact bound
  · rw [greatest]
    split
    · exact ⟨block.hash crypto, by rw [heights, Finmap.lookup_insert]⟩
    · obtain ⟨hash, found⟩ := longest.attained
      exact ⟨hash, by rw [kept hash (Finmap.mem_of_lookup_eq_some found), found]⟩

variable (crypto) in
theorem insert_isOk {chain : Blockchain} {block : ProposerBlock}
    (present : block.header.proposerParent ∈ chain.heights) :
    ∃ after, chain.insert crypto block = .ok after := by
  obtain ⟨parentHeight, found⟩ := HashMap.lookup_of_mem present
  simp only [insert, found]
  split
  · exact ⟨_, rfl⟩
  · exact ⟨_, rfl⟩

end Blockchain

end SimplifiedPrism
