import SimplifiedPrism.BlockTree
import SimplifiedPrism.Ledger

/-!
# Listing the longest chain

`all_blocks_in_longest_chain` walks from the tip to its parents, as many times as
the height of the tip says, with lookups that panic.  Every block of a tree has
one path from genesis, and the height of a block is the number of steps of its
path, up to the range of `u32`.  The tip is a block whose path is as long as its
height says, so that the walk reads exactly this path.
-/

namespace SimplifiedPrism

namespace Blockchain

/-- The passes of the loop of `all_blocks_in_longest_chain`. -/
def walk (blocks : HashMap H256 ProposerBlock) :
    Nat → H256 → List H256 → Except Panic (List H256)
  | 0, _, result => .ok result
  | count + 1, currNode, result => do
      let block ← index .blocks (blocks.lookup currNode)
      walk blocks count block.header.proposerParent (result ++ [currNode])

def allBlocksInLongestChain (chain : Blockchain) : Except Panic (List H256) := do
  if chain.longest = 0 then
    return [chain.tipNodeHash]
  let result ← walk chain.blocks (chain.longest.toNat + 1) chain.tipNodeHash []
  return result.reverse

/-! ## Paths -/

/-- The hashes from genesis to a block, each the parent of the next. -/
inductive Path (crypto : Crypto) (chain : Blockchain) : List H256 → H256 → Prop
  | genesis : Path crypto chain [genesisHash crypto] (genesisHash crypto)
  | child {path : List H256} {hash : H256} {block : ProposerBlock}
      (stored : chain.blocks.lookup hash = some block)
      (notGenesis : hash ≠ genesisHash crypto)
      (parent : Path crypto chain path block.header.proposerParent) :
      Path crypto chain (path ++ [hash]) hash

section Paths

variable {crypto : Crypto} {chain after : Blockchain} {path other : List H256} {hash : H256}

theorem Path.length_pos (reaches : Path crypto chain path hash) : 0 < path.length := by
  cases reaches with
  | genesis => simp
  | child _ _ _ => simp

theorem Path.getLast (reaches : Path crypto chain path hash) : path.getLast? = some hash := by
  cases reaches with
  | genesis => rfl
  | child _ _ _ => simp

theorem Path.head (reaches : Path crypto chain path hash) :
    path.head? = some (genesisHash crypto) := by
  induction reaches with
  | genesis => rfl
  | child _ _ _ ih => rw [List.head?_append, ih, Option.some_or]

theorem Path.unique (reaches : Path crypto chain path hash)
    (again : Path crypto chain other hash) : path = other := by
  induction reaches generalizing other with
  | genesis =>
      cases again with
      | genesis => rfl
      | child _ notGenesis _ => exact absurd rfl notGenesis
  | child stored notGenesis parent ih =>
      cases again with
      | genesis => exact absurd rfl notGenesis
      | child storedAgain _ parentAgain =>
          rw [stored, Option.some.injEq] at storedAgain
          subst storedAgain
          rw [ih parentAgain]

theorem Path.mem (reaches : Path crypto chain path hash)
    (genesis : genesisHash crypto ∈ chain.blocks) : hash ∈ chain.blocks := by
  cases reaches with
  | genesis => exact genesis
  | child stored _ _ => exact Finmap.mem_of_lookup_eq_some stored

theorem Path.mono (reaches : Path crypto chain path hash)
    (kept : ∀ hash block, chain.blocks.lookup hash = some block → ∃ stored,
      after.blocks.lookup hash = some stored ∧
        stored.header.proposerParent = block.header.proposerParent) :
    Path crypto after path hash := by
  induction reaches with
  | genesis => exact .genesis
  | child stored notGenesis parent ih =>
      obtain ⟨block, found, same⟩ := kept _ _ stored
      exact .child found notGenesis (same ▸ ih)

/-- Each hash of a path but the first is that of a block on top of the one
before. -/
theorem Path.parents (reaches : Path crypto chain path hash) :
    ∀ i (bound : i + 1 < path.length), ∃ block,
      chain.blocks.lookup path[i + 1] = some block ∧
        block.header.proposerParent = path[i] := by
  induction reaches with
  | genesis =>
      intro i bound
      simp at bound
  | @child path hash block stored notGenesis parent ih =>
      intro i bound
      have within : i < path.length := by
        simp only [List.length_append, List.length_singleton] at bound
        omega
      by_cases atEnd : i + 1 = path.length
      · refine ⟨block, ?_, ?_⟩
        · rw [List.getElem_append_right (by omega), List.getElem_singleton]
          exact stored
        · have last := parent.getLast
          rw [List.getLast?_eq_getElem?, List.getElem?_eq_getElem (by omega),
            Option.some.injEq] at last
          rw [List.getElem_append_left within, ← last]
          congr 1
          omega
      · obtain ⟨earlier, found, same⟩ := ih i (by omega)
        refine ⟨earlier, ?_, ?_⟩
        · rw [List.getElem_append_left (by omega)]
          exact found
        · rw [List.getElem_append_left within]
          exact same

/-- Every element of a path ends a shorter path. -/
theorem Path.take (reaches : Path crypto chain path hash) :
    ∀ i (bound : i < path.length), Path crypto chain (path.take (i + 1)) path[i] := by
  induction reaches with
  | genesis =>
      intro i bound
      obtain rfl : i = 0 := by
        simp only [List.length_singleton] at bound
        omega
      exact .genesis
  | @child path hash block stored notGenesis parent ih =>
      intro i bound
      by_cases atEnd : i = path.length
      · subst atEnd
        rw [List.take_of_length_le (by simp)]
        simpa using Path.child stored notGenesis parent
      · have within : i < path.length := by
          simp only [List.length_append, List.length_singleton] at bound
          omega
        rw [List.take_append_of_le_length (by omega), List.getElem_append_left within]
        exact ih i within

/-- The walk from the end of a path, with as many passes as it has elements,
reads it backwards. -/
theorem Path.walk (reaches : Path crypto chain path hash)
    (genesis : genesisHash crypto ∈ chain.blocks) (result : List H256) :
    walk chain.blocks path.length hash result = .ok (result ++ path.reverse) := by
  induction reaches generalizing result with
  | genesis =>
      obtain ⟨block, found⟩ := HashMap.lookup_of_mem genesis
      rw [List.length_singleton, Blockchain.walk, found, index_some, ok_bind]
      rfl
  | child stored notGenesis parent ih =>
      rw [List.length_append, List.length_singleton, Blockchain.walk, stored, index_some, ok_bind,
        ih]
      simp

end Paths

/-! ## The tree over its insertions -/

/-- Every block of the tree has a path, which gives its height, and the path of
the tip is as long as its height says.  Heights wrap around, so that a path
beyond their range only bounds the greatest height by the greatest `u32`. -/
structure Branches (crypto : Crypto) (inserted : List ProposerBlock) (chain : Blockchain) :
    Prop where
  formed : chain.WellFormed crypto
  start : genesisBlock crypto ∈ inserted
  known : ∀ hash block, chain.blocks.lookup hash = some block → block ∈ inserted
  reached : ∀ hash ∈ chain.blocks, ∃ path, Path crypto chain path hash
  heights : ∀ path hash, Path crypto chain path hash →
    chain.heights.lookup hash = some (UInt32.ofNat (path.length - 1))
  bound : ∀ path hash, Path crypto chain path hash →
    min path.length (2 ^ 32) ≤ chain.longest.toNat + 1
  tip : ∃ path, Path crypto chain path chain.tip ∧ path.length = chain.longest.toNat + 1

section Insert

variable {crypto : Crypto} {inserted : List ProposerBlock} {chain after : Blockchain}
  {block : ProposerBlock}

theorem Path.new {path : List H256} {hash : H256} (reaches : Path crypto (new crypto) path hash) :
    path = [genesisHash crypto] ∧ hash = genesisHash crypto := by
  cases reaches with
  | genesis => exact ⟨rfl, rfl⟩
  | child stored notGenesis _ =>
      rw [Blockchain.new, HashMap.lookup_insert_ite, if_neg notGenesis] at stored
      simp at stored

theorem Branches.new : Branches crypto [genesisBlock crypto] (new crypto) where
  formed := .new
  start := List.mem_singleton_self _
  known := Records.new.known
  reached := by
    intro hash member
    rw [Blockchain.new, Finmap.mem_insert] at member
    rcases member with rfl | impossible
    · exact ⟨_, .genesis⟩
    · exact absurd impossible Finmap.notMem_empty
  heights := by
    intro path hash reaches
    obtain ⟨rfl, rfl⟩ := reaches.new
    simp [Blockchain.new]
  bound := by
    intro path hash reaches
    obtain ⟨rfl, rfl⟩ := reaches.new
    simp [Blockchain.new]
  tip := ⟨_, .genesis, rfl⟩

/-- What an insertion makes of the paths: those of the known blocks stay, and the
block continues the path of its parent. -/
theorem Branches.paths_insert (branches : Branches crypto inserted chain)
    (distinct : Distinct crypto (inserted ++ [block]))
    (insertion : chain.insert crypto block = .ok after) :
    (∀ path hash, Path crypto chain path hash → Path crypto after path hash) ∧
      ∃ path, Path crypto chain path block.header.proposerParent ∧
        Path crypto after (path ++ [block.hash crypto]) (block.hash crypto) := by
  obtain ⟨parentHeight, found, blocks, -⟩ := insert_ok insertion
  have parent : block.header.proposerParent ∈ chain.blocks :=
    (branches.formed.heights _).mp (Finmap.mem_of_lookup_eq_some found)
  have keeps : ∀ path hash, Path crypto chain path hash → Path crypto after path hash := by
    intro path hash reaches
    refine reaches.mono fun other stored lookup => ?_
    rw [blocks, HashMap.lookup_insert_ite]
    split
    · next same =>
        subst same
        have sameHeader : stored.header = block.header :=
          distinct.header_eq (List.mem_append_left _ (branches.known _ _ lookup)) (by simp)
            (branches.formed.stored _ _ lookup)
        exact ⟨block, rfl, by rw [sameHeader]⟩
    · exact ⟨stored, lookup, rfl⟩
  refine ⟨keeps, ?_⟩
  obtain ⟨path, reaches⟩ := branches.reached _ parent
  refine ⟨path, reaches, .child ?_ ?_ (keeps _ _ reaches)⟩
  · rw [blocks, Finmap.lookup_insert]
  · exact distinct.ne_genesisHash branches.start branches.formed.stored branches.known parent

theorem Branches.height_succ {path : List H256} {parent : H256} {parentHeight : UInt32}
    (branches : Branches crypto inserted chain) (reaches : Path crypto chain path parent)
    (found : chain.heights.lookup parent = some parentHeight) :
    parentHeight + 1 = UInt32.ofNat path.length := by
  have parentFound := branches.heights _ _ reaches
  have positive := reaches.length_pos
  rw [found, Option.some.injEq] at parentFound
  rw [parentFound, ← UInt32.ofNat_one, ← UInt32.ofNat_add]
  congr 1
  omega

/-- A path after an insertion is the one to the block or was there before. -/
theorem Branches.path_cases {parentPath path : List H256} {hash : H256}
    (branches : Branches crypto inserted chain)
    (insertion : chain.insert crypto block = .ok after)
    (keeps : ∀ path hash, Path crypto chain path hash → Path crypto after path hash)
    (reachesBlock : Path crypto after (parentPath ++ [block.hash crypto]) (block.hash crypto))
    (reaches : Path crypto after path hash) :
    hash = block.hash crypto ∧ path = parentPath ++ [block.hash crypto] ∨
      hash ≠ block.hash crypto ∧ Path crypto chain path hash := by
  by_cases same : hash = block.hash crypto
  · subst same
    exact .inl ⟨rfl, reaches.unique reachesBlock⟩
  · obtain ⟨_, -, blocks, -⟩ := insert_ok insertion
    have member := reaches.mem (branches.formed.insert insertion).genesis
    rw [blocks, Finmap.mem_insert] at member
    obtain ⟨earlier, reachesEarlier⟩ := branches.reached hash (member.resolve_left same)
    rw [reaches.unique (keeps _ _ reachesEarlier)]
    exact .inr ⟨same, reachesEarlier⟩

theorem Branches.insert (branches : Branches crypto inserted chain)
    (distinct : Distinct crypto (inserted ++ [block]))
    (insertion : chain.insert crypto block = .ok after) :
    Branches crypto (inserted ++ [block]) after := by
  obtain ⟨keeps, parentPath, parentReaches, reaches⟩ := branches.paths_insert distinct insertion
  obtain ⟨parentHeight, found, blocks, heights, longest, tip⟩ := insert_ok insertion
  have height := branches.height_succ parentReaches found
  have higher : chain.longest < parentHeight + 1 ↔
      chain.longest.toNat < parentPath.length % 2 ^ 32 := by
    rw [UInt32.lt_iff_toNat_lt, height, UInt32.toNat_ofNat']
  have longestNat : after.longest.toNat =
      max chain.longest.toNat (parentPath.length % 2 ^ 32) := by
    rw [longest]
    split
    · next less =>
        have := higher.mp less
        rw [height, UInt32.toNat_ofNat']
        omega
    · next notLess =>
        have := higher.not.mp notLess
        omega
  have cases : ∀ path hash, Path crypto after path hash →
      hash = block.hash crypto ∧ path = parentPath ++ [block.hash crypto] ∨
        hash ≠ block.hash crypto ∧ Path crypto chain path hash :=
    fun _ _ => branches.path_cases insertion keeps reaches
  have parentBound := branches.bound _ _ parentReaches
  have range := chain.longest.toNat_lt
  constructor
  case formed => exact branches.formed.insert insertion
  case start => exact List.mem_append_left _ branches.start
  case known =>
    intro hash stored lookup
    rw [blocks, HashMap.lookup_insert_ite] at lookup
    split at lookup
    · cases lookup
      exact List.mem_append_right _ (List.mem_singleton_self _)
    · exact List.mem_append_left _ (branches.known hash stored lookup)
  case reached =>
    intro hash member
    rw [blocks, Finmap.mem_insert] at member
    rcases member with rfl | member
    · exact ⟨_, reaches⟩
    · obtain ⟨path, reachesHash⟩ := branches.reached hash member
      exact ⟨path, keeps _ _ reachesHash⟩
  case heights =>
    intro path hash reachesHash
    rw [heights, HashMap.lookup_insert_ite]
    rcases cases path hash reachesHash with ⟨rfl, rfl⟩ | ⟨other, earlier⟩
    · rw [if_pos rfl, height, List.length_append, List.length_singleton, Nat.add_sub_cancel]
    · rw [if_neg other]
      exact branches.heights path hash earlier
  case bound =>
    intro path hash reachesHash
    rcases cases path hash reachesHash with ⟨rfl, rfl⟩ | ⟨-, earlier⟩
    · rw [List.length_append, List.length_singleton]
      omega
    · have before := branches.bound path hash earlier
      omega
  case tip =>
    rw [Blockchain.tip, tip]
    split
    · next less =>
        have := higher.mp less
        refine ⟨_, reaches, ?_⟩
        rw [List.length_append, List.length_singleton]
        omega
    · next notLess =>
        have := higher.not.mp notLess
        obtain ⟨path, reachesTip, length⟩ := branches.tip
        exact ⟨path, keeps _ _ reachesTip, by omega⟩

/-- The list of the hashes from genesis to the tip. -/
structure ListsLongest (crypto : Crypto) (chain : Blockchain) (path : List H256) : Prop where
  length : path.length = chain.longest.toNat + 1
  nodup : path.Nodup
  first : path.head? = some (genesisHash crypto)
  last : path.getLast? = some chain.tip
  parents : ∀ i (bound : i + 1 < path.length), ∃ block,
    chain.blocks.lookup path[i + 1] = some block ∧ block.header.proposerParent = path[i]
  heights : ∀ i (bound : i < path.length),
    chain.heights.lookup path[i] = some (UInt32.ofNat i)

/-- The walk reads the path of the tip. -/
theorem Branches.allBlocksInLongestChain (branches : Branches crypto inserted chain) :
    ∃ path, chain.allBlocksInLongestChain = .ok path ∧ ListsLongest crypto chain path := by
  obtain ⟨path, reaches, length⟩ := branches.tip
  have heights : ∀ i (bound : i < path.length),
      chain.heights.lookup path[i] = some (UInt32.ofNat i) := by
    intro i bound
    rw [branches.heights _ _ (reaches.take i bound), List.length_take, Nat.min_eq_left (by omega),
      Nat.add_sub_cancel]
  refine ⟨path, ?_, length, ?_, reaches.head, reaches.getLast, reaches.parents, heights⟩
  · rw [Blockchain.allBlocksInLongestChain]
    split
    · next zero =>
        have last := reaches.getLast
        rw [zero] at length
        obtain ⟨only, rfl⟩ := List.length_eq_one_iff.mp length
        rw [List.getLast?_singleton, Option.some.injEq] at last
        rw [last]
        rfl
    · have walked := reaches.walk branches.formed.genesis []
      rw [length] at walked
      change (walk chain.blocks _ chain.tip [] >>= _) = _
      rw [walked, ok_bind, List.nil_append, List.reverse_reverse]
      rfl
  · rw [List.nodup_iff_pairwise_ne, List.pairwise_iff_getElem]
    intro i j first second less same
    have range := chain.longest.toNat_lt
    have sameHeight := (heights i first).symm.trans (same ▸ heights j second)
    rw [Option.some.injEq, ← UInt32.toNat_inj,
      UInt32.toNat_ofNat_of_lt' (show i < 2 ^ 32 by omega),
      UInt32.toNat_ofNat_of_lt' (show j < 2 ^ 32 by omega)] at sameHeight
    omega

end Insert

/-- After every sequence of insertions below known parents, the longest chain is
listed from genesis to the tip. -/
theorem allBlocksInLongestChain_of_insertions {crypto : Crypto}
    (run : Run (attach crypto) (· = new crypto))
    (distinct : Distinct crypto (insertions run run.length)) :
    ∀ index ≤ run.length, ∃ path,
      (run.states index).allBlocksInLongestChain = .ok path ∧
        ListsLongest crypto (run.states index) path := by
  intro index bound
  have branches : Branches crypto (insertions run index) (run.states index) := by
    induction index with
    | zero =>
        rw [run.starts]
        exact .new
    | succ index ih =>
        have attached := run.steps index (by omega)
        have soFar := distinct.mono (insertions_subset run bound)
        rw [insertions_succ] at soFar ⊢
        exact (ih (by omega)).insert soFar (attach_ok attached).2
  exact branches.allBlocksInLongestChain

theorem longestChain_forkRun :
    (forkRun.states 4).allBlocksInLongestChain = .ok [genesisHash Crypto.sample,
        (forkBlock 3 (genesisHash Crypto.sample)).hash Crypto.sample,
        (forkRun.states 4).tip] ∧
      ∃ path, (forkRun.states 4).allBlocksInLongestChain = .ok path ∧
        ListsLongest Crypto.sample (forkRun.states 4) path := by
  refine ⟨by decide +kernel, ?_⟩
  exact allBlocksInLongestChain_of_insertions forkRun (by decide +kernel) 4 (by decide)

end Blockchain

end SimplifiedPrism
