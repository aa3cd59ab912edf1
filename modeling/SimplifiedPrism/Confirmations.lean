import SimplifiedPrism.LongestChain
import SimplifiedPrism.PublicationOrder

/-!
# Leaving the longest chain

A node leaves its longest chain only for a longer one.  So a block on it that has
others on top of it is given up only for a branch that does without it and is longer
than all of these together, and a tip that has been left does not come back: the
generator makes one round of transactions for a tip.
-/

namespace SimplifiedPrism

variable {crypto : Crypto}

namespace Blockchain

/-! ## Trees that grow -/

/-- A later state of a tree: paths stay, and the tip changes only for a longer chain. -/
structure Follows (crypto : Crypto) (after before : Blockchain) : Prop where
  paths : ∀ path hash, Path crypto before path hash → Path crypto after path hash
  tip : after.tip = before.tip ∧ after.longest = before.longest ∨ before.longest < after.longest

theorem Follows.refl (chain : Blockchain) : chain.Follows crypto chain :=
  ⟨fun _ _ reaches => reaches, .inl ⟨rfl, rfl⟩⟩

theorem Follows.trans {before middle after : Blockchain} (later : after.Follows crypto middle)
    (first : middle.Follows crypto before) : after.Follows crypto before where
  paths := fun path hash reaches => later.paths path hash (first.paths path hash reaches)
  tip := by
    rcases first.tip with ⟨sameTip, same⟩ | longer
    · rcases later.tip with ⟨sameTipToo, sameToo⟩ | longer
      · exact .inl ⟨sameTipToo.trans sameTip, sameToo.trans same⟩
      · exact .inr (same ▸ longer)
    · rcases later.tip with ⟨-, same⟩ | longerToo
      · exact .inr (same ▸ longer)
      · exact .inr (UInt32.lt_trans longer longerToo)

section Branch

variable {inserted : List ProposerBlock} {chain before after : Blockchain} {block : ProposerBlock}
variable {path other : List H256} {hash tip : H256}

theorem Branches.follows (branches : Branches crypto inserted chain)
    (distinct : Distinct crypto (inserted ++ [block]))
    (insertion : chain.insert crypto block = .ok after) : after.Follows crypto chain where
  paths := (branches.paths_insert distinct insertion).1
  tip := by
    obtain ⟨parentHeight, -, -, -, longest, tip⟩ := insert_ok insertion
    by_cases longer : chain.longest < parentHeight + 1
    · rw [if_pos longer] at longest
      exact .inr (longest ▸ longer)
    · rw [if_neg longer] at longest tip
      exact .inl ⟨tip, longest⟩

/-- A block on two paths is as high on the one as on the other, above the same blocks. -/
theorem Path.take_eq (reaches : Path crypto chain path hash) (also : Path crypto chain other tip)
    {i j : Nat} (first : i < path.length) (second : j < other.length)
    (same : path[i] = other[j]) : i = j ∧ path.take (i + 1) = other.take (j + 1) := by
  have one := reaches.take i first
  rw [same] at one
  have prefixes := one.unique (also.take j second)
  have lengths := congrArg List.length prefixes
  rw [List.length_take, List.length_take] at lengths
  exact ⟨by omega, prefixes⟩

/-- Above a block that is not on another path the two paths have nothing in common. -/
theorem Path.notMem_of_notMem (reaches : Path crypto chain path hash)
    (also : Path crypto chain other tip) {position : Nat} (bound : position < path.length)
    (left : path[position] ∉ other) : ∀ each ∈ other.drop position, each ∉ path := by
  intro each member inPath
  obtain ⟨later, within, rfl⟩ := List.getElem_of_mem member
  rw [List.length_drop] at within
  rw [List.getElem_drop] at inPath
  obtain ⟨i, first, same⟩ := List.getElem_of_mem inPath
  obtain ⟨rfl, prefixes⟩ := reaches.take_eq also first (by omega) same
  -- the common part reaches up to the block
  apply left
  have inPrefix : path[position] ∈ path.take (position + later + 1) := by
    rw [List.mem_take_iff_getElem]
    exact ⟨position, by omega, rfl⟩
  rw [prefixes] at inPrefix
  exact List.mem_of_mem_take inPrefix

/-- What replaces a block that is left: blocks that do not descend from it, more than
there were from it up to the tip. -/
structure Replaced (crypto : Crypto) (after : Blockchain) (path other : List H256) (position : Nat)
    (left : H256) (branch : List H256) : Prop where
  suffix : branch <:+ other
  longer : path.length - position < branch.length
  apart : ∀ hash ∈ branch, hash ∉ path
  foreign : ∀ hash ∈ branch, ∃ line, Path crypto after line hash ∧ left ∉ line

theorem Follows.replaced (follows : after.Follows crypto before)
    (reaches : Path crypto before path before.tip)
    (length : path.length = before.longest.toNat + 1)
    (also : Path crypto after other after.tip)
    (lengthToo : other.length = after.longest.toNat + 1) {position : Nat}
    (bound : position < path.length) (left : path[position] ∉ other) :
    ∃ branch, Replaced crypto after path other position path[position] branch := by
  have kept := follows.paths _ _ reaches
  have longer : path.length < other.length := by
    rcases follows.tip with ⟨sameTip, -⟩ | longer
    · rw [sameTip] at also
      exact absurd (kept.unique also ▸ List.getElem_mem bound) left
    · rw [UInt32.lt_iff_toNat_lt] at longer
      omega
  refine ⟨other.drop position, List.drop_suffix _ _, ?_, kept.notMem_of_notMem also bound left, ?_⟩
  · rw [List.length_drop]
    omega
  · intro hash member
    obtain ⟨place, within, rfl⟩ := List.getElem_of_mem (List.mem_of_mem_drop member)
    exact ⟨_, also.take place within, fun inside => left (List.mem_of_mem_take inside)⟩

theorem ListsLongest.path_take (lists : ListsLongest crypto chain path) :
    ∀ i (bound : i < path.length), Path crypto chain (path.take (i + 1)) path[i] := by
  intro i
  induction i with
  | zero =>
      intro bound
      obtain ⟨first, rest, rfl⟩ := List.exists_cons_of_length_pos bound
      obtain rfl : first = genesisHash crypto := by simpa using lists.first
      exact .genesis
  | succ i ih =>
      intro bound
      obtain ⟨block, stored, parent⟩ := lists.parents i bound
      have below := ih (by omega)
      rw [← parent] at below
      rw [List.take_succ_eq_append_getElem bound]
      refine .child stored (fun same => ?_) below
      -- genesis stands at the start and nowhere else
      have start := lists.first
      rw [List.head?_eq_getElem?, List.getElem?_eq_getElem (by omega), Option.some.injEq] at start
      have repeated := (lists.nodup.getElem_inj_iff).mp (same.trans start.symm)
      omega

theorem ListsLongest.reaches (lists : ListsLongest crypto chain path) :
    Path crypto chain path chain.tip := by
  have length := lists.length
  have last := lists.last
  have reaches := lists.path_take (path.length - 1) (by omega)
  rw [List.getLast?_eq_getElem?, List.getElem?_eq_getElem (by omega), Option.some.injEq] at last
  rwa [last, List.take_of_length_le (by omega)] at reaches

theorem Follows.tip_eq {middle : Blockchain} (later : after.Follows crypto middle)
    (first : middle.Follows crypto before) (reaches : Path crypto before path before.tip)
    (length : path.length = before.longest.toNat + 1)
    (also : Path crypto after other after.tip)
    (lengthToo : other.length = after.longest.toNat + 1) (back : after.tip = before.tip) :
    middle.tip = before.tip := by
  have same := (later.trans first).paths _ _ reaches
  rw [back] at also
  rw [same.unique also, lengthToo, Nat.add_right_cancel_iff, UInt32.toNat_inj] at length
  rcases first.tip with ⟨kept, -⟩ | longer
  · exact kept
  · rcases later.tip with ⟨-, sameLength⟩ | longerToo
    · rw [← sameLength, length] at longer
      exact absurd longer (UInt32.lt_irrefl _)
    · rw [length] at longerToo
      exact absurd (UInt32.lt_trans longer longerToo) (UInt32.lt_irrefl _)

end Branch

/-! ## Sequences of trees -/

/-- Each tree is the one before it or comes of it by an insertion. -/
structure Grown (crypto : Crypto) (trees : Nat → Blockchain) (length : Nat) : Prop where
  starts : trees 0 = new crypto
  steps : ∀ index < length, trees (index + 1) = trees index ∨
    ∃ block, (trees index).insert crypto block = .ok (trees (index + 1))

/-- No two blocks of the trees have one hash and different headers, and none has the
hash that genesis names as its parent. -/
structure DistinctTrees (crypto : Crypto) (trees : Nat → Blockchain) (length : Nat) : Prop where
  headers : ∀ index ≤ length, ∀ later ≤ length,
    ∀ entry ∈ (trees index).blocks.entries, ∀ other ∈ (trees later).blocks.entries,
      entry.1 = other.1 → entry.2.header = other.2.header
  notFake : ∀ index ≤ length, fakeRoot crypto ∉ (trees index).blocks

section Grown

variable {trees : Nat → Blockchain} {length : Nat}

theorem DistinctTrees.header_eq (distinct : DistinctTrees crypto trees length) {index later : Nat}
    (bound : index ≤ length) (boundToo : later ≤ length) {hash : H256}
    {block other : ProposerBlock} (found : (trees index).blocks.lookup hash = some block)
    (foundToo : (trees later).blocks.lookup hash = some other) :
    block.header = other.header :=
  distinct.headers index bound later boundToo _ ((HashMap.mem_entries_iff _ _ _).mpr found) _
    ((HashMap.mem_entries_iff _ _ _).mpr foundToo) rfl

/-- The trees hold blocks of a list under their hashes, and those of the list differ. -/
theorem DistinctTrees.of_known {known : List ProposerBlock} (distinct : Distinct crypto known)
    (stored : ∀ index ≤ length, ∀ entry ∈ (trees index).blocks.entries,
      entry.2 ∈ known ∧ entry.2.hash crypto = entry.1) : DistinctTrees crypto trees length where
  headers := by
    intro index bound later boundToo entry member other memberToo same
    obtain ⟨isKnown, hash⟩ := stored index bound entry member
    obtain ⟨isKnownToo, hashToo⟩ := stored later boundToo other memberToo
    exact distinct.header_eq isKnown isKnownToo (hash.trans (same.trans hashToo.symm))
  notFake := by
    intro index bound member
    obtain ⟨block, found⟩ := HashMap.lookup_of_mem member
    obtain ⟨isKnown, hash⟩ :=
      stored index bound ⟨_, block⟩ ((HashMap.mem_entries_iff _ _ _).mpr found)
    exact distinct.notFake block isKnown hash

/-- The blocks that the trees up to an index hold. -/
def Held (crypto : Crypto) (trees : Nat → Blockchain) (index : Nat) (block : ProposerBlock) :
    Prop :=
  ∃ earlier ≤ index, (trees earlier).blocks.lookup (block.hash crypto) = some block

theorem DistinctTrees.distinct (distinct : DistinctTrees crypto trees length)
    {inserted : List ProposerBlock}
    (held : ∀ block ∈ inserted, Held crypto trees length block) : Distinct crypto inserted where
  injective := by
    rintro _ ⟨block, member, rfl⟩ _ ⟨other, memberToo, rfl⟩ same
    obtain ⟨index, bound, found⟩ := held block member
    obtain ⟨later, boundToo, foundToo⟩ := held other memberToo
    rw [show other.hash crypto = block.hash crypto from same.symm] at foundToo
    exact distinct.header_eq bound boundToo found foundToo
  notFake := by
    intro block member same
    obtain ⟨index, bound, found⟩ := held block member
    exact distinct.notFake index bound (same ▸ Finmap.mem_of_lookup_eq_some found)

theorem Held.mono {index later : Nat} {block : ProposerBlock}
    (held : Held crypto trees index block) (ordered : index ≤ later) :
    Held crypto trees later block :=
  held.imp fun _ found => ⟨found.1.trans ordered, found.2⟩

theorem held_of_insert {index : Nat} {block : ProposerBlock}
    (insertion : (trees index).insert crypto block = .ok (trees (index + 1))) :
    Held crypto trees (index + 1) block := by
  obtain ⟨_, -, blocks, -⟩ := insert_ok insertion
  exact ⟨index + 1, le_refl _, by rw [blocks, Finmap.lookup_insert]⟩

theorem Grown.branches (grown : Grown crypto trees length)
    (distinct : DistinctTrees crypto trees length) :
    ∀ index ≤ length, ∃ inserted, Branches crypto inserted (trees index) ∧
      ∀ block ∈ inserted, Held crypto trees index block := by
  intro index
  induction index with
  | zero =>
      intro _
      rw [grown.starts]
      refine ⟨_, .new, fun block member => ⟨0, le_refl _, ?_⟩⟩
      rw [List.mem_singleton.mp member, grown.starts, Blockchain.new]
      exact Finmap.lookup_insert _
  | succ index ih =>
      intro bound
      obtain ⟨inserted, branches, held⟩ := ih (by omega)
      rcases grown.steps index (by omega) with same | ⟨block, insertion⟩
      · rw [same]
        exact ⟨inserted, branches, fun block member => (held block member).mono (by omega)⟩
      · have heldToo : ∀ each ∈ inserted ++ [block], Held crypto trees (index + 1) each := by
          intro each member
          rcases List.mem_append.mp member with earlier | last
          · exact (held each earlier).mono (by omega)
          · rw [List.mem_singleton.mp last]
            exact held_of_insert insertion
        have apart := distinct.distinct fun each member => (heldToo each member).mono bound
        exact ⟨inserted ++ [block], branches.insert apart insertion, heldToo⟩

theorem Grown.follows_succ (grown : Grown crypto trees length)
    (distinct : DistinctTrees crypto trees length) {index : Nat} (bound : index < length) :
    (trees (index + 1)).Follows crypto (trees index) := by
  obtain ⟨inserted, branches, held⟩ := grown.branches distinct index (by omega)
  rcases grown.steps index bound with same | ⟨block, insertion⟩
  · rw [same]
    exact .refl _
  · refine branches.follows (distinct.distinct fun each member => ?_) insertion
    rcases List.mem_append.mp member with earlier | last
    · exact (held each earlier).mono (by omega)
    · rw [List.mem_singleton.mp last]
      exact (held_of_insert insertion).mono bound

theorem Grown.follows (grown : Grown crypto trees length)
    (distinct : DistinctTrees crypto trees length) {index later : Nat} (ordered : index ≤ later)
    (bound : later ≤ length) : (trees later).Follows crypto (trees index) := by
  induction later, ordered using Nat.le_induction with
  | base => exact .refl _
  | succ later ordered ih =>
      exact (grown.follows_succ distinct bound).trans (ih (by omega))

theorem Grown.replaced (grown : Grown crypto trees length)
    (distinct : DistinctTrees crypto trees length) {index later : Nat} (ordered : index ≤ later)
    (bound : later ≤ length) :
    ∃ path other, (trees index).allBlocksInLongestChain = .ok path ∧
      ListsLongest crypto (trees index) path ∧
      (trees later).allBlocksInLongestChain = .ok other ∧
      ListsLongest crypto (trees later) other ∧
      ∀ position (inside : position < path.length), path[position] ∉ other →
        ∃ branch, Replaced crypto (trees later) path other position path[position] branch := by
  obtain ⟨_, branches, -⟩ := grown.branches distinct index (by omega)
  obtain ⟨_, branchesToo, -⟩ := grown.branches distinct later bound
  obtain ⟨path, listed, lists⟩ := branches.allBlocksInLongestChain
  obtain ⟨other, listedToo, listsToo⟩ := branchesToo.allBlocksInLongestChain
  refine ⟨path, other, listed, lists, listedToo, listsToo, fun position inside left => ?_⟩
  have follows := grown.follows distinct ordered bound
  exact follows.replaced lists.reaches lists.length listsToo.reaches listsToo.length inside left

/-- A tip that comes back has been the tip all the time. -/
theorem Grown.tip_eq (grown : Grown crypto trees length)
    (distinct : DistinctTrees crypto trees length) {index middle later : Nat}
    (ordered : index ≤ middle) (orderedToo : middle ≤ later) (bound : later ≤ length)
    (back : (trees later).tip = (trees index).tip) :
    (trees middle).tip = (trees index).tip := by
  obtain ⟨_, branches, -⟩ := grown.branches distinct index (by omega)
  obtain ⟨_, branchesToo, -⟩ := grown.branches distinct later bound
  obtain ⟨path, reaches, long⟩ := branches.tip
  obtain ⟨other, reachesToo, longToo⟩ := branchesToo.tip
  have follows := grown.follows distinct ordered (by omega)
  have followsToo := grown.follows distinct orderedToo bound
  exact followsToo.tip_eq follows reaches long reachesToo longToo back

end Grown

end Blockchain

/-! ## The sections of the threads -/

namespace Threads

variable {Thread : Type*} [DecidableEq Thread]

theorem Ordered.blockchain_cases {threads after : Threads Thread} {event : Event Thread}
    (ordered : threads.Ordered crypto) (stepped : threads.step crypto event = some after) :
    after.node.blockchain = threads.node.blockchain ∨
      ∃ block, threads.node.blockchain.insert crypto block = .ok after.node.blockchain := by
  rcases step_cases stepped with ⟨_, _, -, -, sameNode, -⟩ |
    ⟨thread, current, rest, -, running, afterNode, -⟩
  · exact .inl (by rw [sameNode])
  · have own := ordered.accounted thread _ running current List.mem_cons_self
    have writes : Writes crypto threads.node current after.node := by
      rw [afterNode]
      exact writes_of_run
    have parent : ∀ author each, current = .insertBlock author each →
        each.header.proposerParent ∈ threads.node.blockchain.blocks := by
      rintro author each rfl
      exact own.1
    rcases writes.blockchain_cases ordered.node.chain parent with same | ⟨_, block, -, inserted⟩
    · exact .inl same
    · exact .inr ⟨block, inserted⟩

theorem grown_of_sections (run : Run (@step crypto Thread _) (Start crypto)) :
    Blockchain.Grown crypto (fun index => (run.states index).node.blockchain) run.length where
  starts := run.starts.blockchain
  steps := by
    intro index bound
    have ordered := run.invariant (Ordered crypto) (fun _ start => start.ordered)
      (fun _ _ _ ordered stepped => ordered.step stepped) index (by omega)
    exact ordered.blockchain_cases (run.steps index bound)

/-- Whatever the order of the sections of however many threads: a node gives a block of
its longest chain up only for a branch without it, which is longer than all that was on
top of it. -/
theorem reversals_of_sections (run : Run (@step crypto Thread _) (Start crypto))
    (distinct : Blockchain.DistinctTrees crypto
      (fun index => (run.states index).node.blockchain) run.length) :
    ∀ index later, index ≤ later → later ≤ run.length →
      ∃ path other,
        (run.states index).node.blockchain.allBlocksInLongestChain = .ok path ∧
        Blockchain.ListsLongest crypto (run.states index).node.blockchain path ∧
        (run.states later).node.blockchain.allBlocksInLongestChain = .ok other ∧
        Blockchain.ListsLongest crypto (run.states later).node.blockchain other ∧
        ∀ position (inside : position < path.length), path[position] ∉ other →
          ∃ branch, Blockchain.Replaced crypto (run.states later).node.blockchain path other
            position path[position] branch := by
  intro index later ordered bound
  exact (grown_of_sections run).replaced distinct ordered bound

/-- A block on genesis beside `parentBlock`, and one on top of it. -/
def overtakingBlocks : List ProposerBlock :=
  [⟨Header.sample 3 (genesisHash Crypto.sample), ⟨[]⟩⟩, ⟨Header.sample 4 (sampleHash 3), ⟨[]⟩⟩]

/-- The blocks of the two sample runs. -/
def reorganizedBlocks : List ProposerBlock :=
  genesisBlock Crypto.sample :: parentBlock :: overtakingBlocks

/-- One worker accepts a block while the other accepts two on another branch, section by
section in turns. -/
def reorganizedRun : Run (@step Crypto.sample Bool _) (Start Crypto.sample) :=
  Run.ofActions _ start_sample
    (.handle false (.receive (.proposerBlocks [parentBlock])) ::
      .handle true (.receive (.proposerBlocks overtakingBlocks)) ::
        (List.replicate 9 [.run false, .run true]).flatten ++ List.replicate 8 (.run true))
    (by decide +kernel)

theorem reversals_reorganizedRun :
    ∃ path other,
      (reorganizedRun.states 20).node.blockchain.allBlocksInLongestChain = .ok path ∧
      (reorganizedRun.states 28).node.blockchain.allBlocksInLongestChain = .ok other ∧
      path = [genesisHash Crypto.sample, sampleHash 2] ∧
      ∀ position (inside : position < path.length), path[position] ∉ other →
        ∃ branch, Blockchain.Replaced Crypto.sample (reorganizedRun.states 28).node.blockchain
          path other position path[position] branch := by
  have distinct : Blockchain.DistinctTrees Crypto.sample
      (fun index => (reorganizedRun.states index).node.blockchain) reorganizedRun.length := by
    have apart : Blockchain.Distinct Crypto.sample reorganizedBlocks := by decide +kernel
    refine .of_known apart ?_
    change ∀ index ≤ 28, _
    decide +kernel
  obtain ⟨path, other, listed, -, listedToo, -, replaced⟩ :=
    reversals_of_sections reorganizedRun distinct 20 28 (by decide) (by decide)
  have first : (reorganizedRun.states 20).node.blockchain.allBlocksInLongestChain =
      .ok [genesisHash Crypto.sample, sampleHash 2] := by
    decide +kernel
  exact ⟨path, other, listed, listedToo, Except.ok.inj (listed.symm.trans first), replaced⟩

end Threads

/-! ## The rounds of the generator -/

/-- The step is a round of the generator: the tip is another than the one it saw last. -/
def State.Rounds (state : State) (action : Action) : Prop :=
  ∃ draws, action = .generate draws ∧ state.lastState ≠ state.node.blockchain.tip

section Rounds

variable {before after : State} {action : Action}

theorem State.WellFormed.blockchain_cases (formed : before.WellFormed crypto)
    (stepped : before.step crypto action = some after) :
    after.node.blockchain = before.node.blockchain ∨
      ∃ block, before.node.blockchain.insert crypto block = .ok after.node.blockchain := by
  cases formed.cases stepped with
  | receive _ _ | looked _ _ | ico _ => exact .inl rfl
  | generated _ _ _ _ _ _ generated => exact .inl (by rw [generated.onlyPool])
  | minerPanicked _ _ _ failure => exact .inl (by rw [failure.onlyRefs])
  | panicked _ _ _ next failure =>
      exact .inl (by rw [failure.onlyRefs formed.node (formed.grounded next)])
  | mined _ _ _ mined =>
      cases mined with
      | nothing | transaction _ _ _ _ _ _ _ _ _ _ => exact .inl rfl
      | proposer _ _ _ _ _ _ _ _ _ _ accepts => exact .inr ⟨_, accepts.inserted⟩
  | ran _ _ _ _ _ effect =>
      cases effect with
      | buffer each _ _ _ => exact .inl (by rw [bufferOrphan_eq])
      | accept _ each _ _ _ applied =>
          obtain ⟨_, _, _, accepts⟩ := accepts_of_apply applied
          exact .inr ⟨each, accepts.inserted⟩
      | _ => exact .inl rfl

theorem grown_of_run (run : Run (State.step crypto) (Initial crypto)) :
    Blockchain.Grown crypto (fun index => (run.states index).node.blockchain) run.length where
  starts := by
    obtain ⟨-, -, _, _, node⟩ := run.starts
    rw [node]
    rfl
  steps := fun index bound =>
    (wellFormed_of_run run index (by omega)).blockchain_cases (run.steps index bound)

/-- What the generator saw last is kept except by a round, which notes the tip. -/
theorem lastState_of_step (stepped : before.step crypto action = some after) :
    after.lastState = before.lastState ∧ ¬ before.Rounds action ∨
      before.Rounds action ∧ after.lastState = before.node.blockchain.tip := by
  cases action with
  | generate draws =>
      simp only [State.step, Option.ite_none_right_eq_some] at stepped
      obtain ⟨-, stepped⟩ := stepped
      split at stepped
      · next same =>
          cases stepped
          refine .inl ⟨rfl, ?_⟩
          rintro ⟨_, -, changed⟩
          exact changed same
      · next changed =>
          cases stepped
          exact .inr ⟨⟨draws, rfl, changed⟩, rfl⟩
  | work =>
      rw [State.step] at stepped
      split at stepped
      · cases stepped
      · split at stepped
        all_goals
          cases stepped
          exact .inl ⟨rfl, by rintro ⟨_, ⟨⟩, _⟩⟩
  | receive _ | mine _ | mineAttacker _ | ico =>
      simp only [State.step, Option.ite_none_right_eq_some, Option.some.injEq] at stepped
      obtain ⟨-, rfl⟩ := stepped
      exact .inl ⟨rfl, by rintro ⟨_, ⟨⟩, _⟩⟩

theorem lastState_eq_tip (run : Run (State.step crypto) (Initial crypto)) {index later : Nat}
    (round : (run.states index).Rounds (run.actions index)) (ordered : index < later)
    (bound : later ≤ run.length) {tip : H256}
    (stays : ∀ middle, index ≤ middle → middle < later →
      (run.states middle).node.blockchain.tip = tip) :
    (run.states later).lastState = tip := by
  induction later, ordered using Nat.le_induction with
  | base =>
      rcases lastState_of_step (run.steps index (by omega)) with ⟨-, noRound⟩ | ⟨-, noted⟩
      · exact absurd round noRound
      · rw [noted, stays index (le_refl _) (by omega)]
  | succ later ordered ih =>
      rcases lastState_of_step (run.steps later (by omega)) with ⟨kept, -⟩ | ⟨-, noted⟩
      · rw [kept, ih (by omega) fun middle first second => stays middle first (by omega)]
      · rw [noted, stays later (by omega) (by omega)]

/-- Whatever the peers send and whatever is mined, the generator makes at most one round
of transactions for a tip: no two of its rounds start from the same one. -/
theorem rounds_of_run (run : Run (State.step crypto) (Initial crypto))
    (distinct : Blockchain.DistinctTrees crypto
      (fun index => (run.states index).node.blockchain) run.length) :
    ∀ index later, index < later → later < run.length →
      (run.states index).Rounds (run.actions index) →
      (run.states later).Rounds (run.actions later) →
      (run.states later).node.blockchain.tip ≠ (run.states index).node.blockchain.tip := by
  intro index later ordered bound round again back
  have stays : ∀ middle, index ≤ middle → middle < later →
      (run.states middle).node.blockchain.tip = (run.states index).node.blockchain.tip :=
    fun middle first second =>
      (grown_of_run run).tip_eq distinct first (by omega) (by omega) back
  obtain ⟨_, -, changed⟩ := again
  exact changed ((lastState_eq_tip run round ordered (by omega) stays).trans back.symm)

/-- A round on genesis, an iteration that finds the tip unchanged, three blocks with a
change of the branch, and a round on the new tip. -/
def roundsRun : Run (State.step Crypto.sample) (Initial Crypto.sample) :=
  Run.sampleStart
    ([.ico, .generate [⟨(H256.zero, 0), 0, 299⟩], .generate [⟨(H256.zero, 0), 0, 299⟩],
      .receive (.proposerBlocks (parentBlock :: Threads.overtakingBlocks))] ++
      List.replicate 6 .work ++ [.generate [⟨(H256.zero, 0), 0, 299⟩]])
    (by decide +kernel)

theorem rounds_roundsRun :
    (roundsRun.states 10).node.blockchain.tip ≠ (roundsRun.states 1).node.blockchain.tip := by
  have distinct : Blockchain.DistinctTrees Crypto.sample
      (fun index => (roundsRun.states index).node.blockchain) roundsRun.length := by
    have apart : Blockchain.Distinct Crypto.sample Threads.reorganizedBlocks := by decide +kernel
    refine .of_known apart ?_
    change ∀ index ≤ 11, _
    decide +kernel
  exact rounds_of_run roundsRun distinct 1 10 (by decide) (by decide)
    ⟨_, rfl, by decide +kernel⟩ ⟨_, rfl, by decide +kernel⟩

end Rounds

end SimplifiedPrism
