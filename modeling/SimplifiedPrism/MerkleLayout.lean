import Mathlib.Data.List.Basic
import Mathlib.Data.List.GetD
import SimplifiedPrism.Merkle
import SimplifiedPrism.PerfectTree

/-!
# The layout of a Merkle tree

The two loops of `MerkleTree::new` append to the vector they read from, and find the
level below by the length that the vector had before.  What they build is the flat
array of the perfect tree over the padded data.  The powers of two that count the
nodes of a level are taken in `u32`, so that this holds for up to `2^31` data and for
no more.
-/

namespace SimplifiedPrism

namespace MerkleTree

variable {crypto : Crypto} {α : Type*} {hash : α → H256} {data : List α}

/-- The hash of an inner node. -/
def combine (crypto : Crypto) (left right : H256) : H256 :=
  crypto.sha256 (left.toBytes ++ right.toBytes)

/-- The height of the tree over some data. -/
def height (data : List α) : Nat :=
  Nat.clog 2 data.length

/-- The flat array of the perfect tree over some leaves. -/
def ofLeaves (crypto : Crypto) (leaves : Nat → H256) (height : Nat) : MerkleTree :=
  ⟨PerfectTree.flat (combine crypto) leaves height height, height⟩

/-- The data padded with copies of the last to the next power of two. -/
def padded (data : List α) : List α :=
  match data.getLast? with
  | none => []
  | some last => data ++ List.replicate (2 ^ height data - data.length) last

/-- The leaves of the tree over some data. -/
def leafHash (hash : α → H256) (data : List α) (i : Nat) : H256 :=
  ((padded data).map hash).getD i H256.zero

/-! ## Padding -/

section Padding

theorem length_le_height (data : List α) : data.length ≤ 2 ^ height data :=
  Nat.le_pow_clog (by omega) _

theorem padded_eq (nonempty : data ≠ []) :
    padded data = data ++ List.replicate (2 ^ height data - data.length)
      (data.getLast nonempty) := by
  rw [padded, List.getLast?_eq_some_getLast nonempty]

theorem length_padded (nonempty : data ≠ []) : (padded data).length = 2 ^ height data := by
  have bound := length_le_height data
  rw [padded_eq nonempty, List.length_append, List.length_replicate]
  omega

theorem leaf_eq (nonempty : data ≠ []) {i : Nat} (inside : i < 2 ^ height data) :
    leaf hash data i = some (leafHash hash data i) := by
  have positive := List.length_pos_of_ne_nil nonempty
  have found : (padded data)[i]? =
      if i < data.length then data[i]? else data[data.length - 1]? := by
    rw [padded_eq nonempty]
    split
    · next within => rw [List.getElem?_append_left within]
    · next beyond =>
        rw [List.getElem?_append_right (by omega), List.getElem?_replicate, if_pos (by omega),
          List.getLast_eq_getElem, List.getElem?_eq_getElem]
  have length := length_padded nonempty
  have present : i < ((padded data).map hash).length := by
    rw [List.length_map]
    omega
  have read : some (leafHash hash data i) = (padded data)[i]?.map hash := by
    rw [leafHash, List.getD_eq_getElem _ _ present, ← List.getElem?_eq_getElem present,
      List.getElem?_map]
  rw [read, found, leaf]
  split <;> rfl

theorem leafHash_eq (hash : α → H256) {i : Nat} (bound : i < data.length) :
    leafHash hash data i = hash data[i] := by
  have nonempty : data ≠ [] := List.ne_nil_of_length_pos (by omega)
  have padding := length_le_height data
  have found : leaf hash data i = some (leafHash hash data i) := leaf_eq nonempty (by omega)
  rw [leaf, if_pos bound, List.getElem?_eq_getElem bound, Option.map_some,
    Option.some.injEq] at found
  exact found.symm

/-- The leaves of the perfect tree are the hashes of the padded data. -/
theorem leaves_padded (nonempty : data ≠ []) :
    (PerfectTree.subtree (leafHash hash data) (height data) 0).leaves =
      (padded data).map hash := by
  have length := length_padded nonempty
  rw [PerfectTree.leaves_subtree]
  apply List.ext_getElem
  · simp [length]
  · intro i first second
    rw [List.getElem_map, List.getElem_range, Nat.zero_mul, Nat.zero_add, leafHash,
      List.getD_eq_getElem _ _ second]

theorem leafHash_mem (nonempty : data ≠ []) {i : Nat} (inside : i < 2 ^ height data) :
    leafHash hash data i ∈ data.map hash := by
  have found : leaf hash data i = some (leafHash hash data i) := leaf_eq nonempty inside
  unfold leaf at found
  split at found
  all_goals
    obtain ⟨datum, member, same⟩ := Option.map_eq_some_iff.mp found
    exact List.mem_map.mpr ⟨datum, List.mem_of_getElem? member, same⟩

end Padding

/-! ## The loops of the construction -/

theorem powU32_of_lt {exponent : Nat} (bound : exponent < 32) :
    powU32 exponent = some (2 ^ exponent) :=
  if_pos (Nat.pow_lt_pow_right (by omega) bound)

theorem powU32_of_le {exponent : Nat} (bound : 32 ≤ exponent) : powU32 exponent = none :=
  if_neg (Nat.not_lt.mpr (Nat.pow_le_pow_right (by omega) bound))

/-- A loop that fails nowhere collects all results. -/
theorem mapM_eq_some {β γ : Type*} {step : β → Option γ} {result : β → γ} {list : List β}
    (succeeds : ∀ element ∈ list, step element = some (result element)) :
    list.mapM step = some (list.map result) := by
  induction list with
  | nil => rfl
  | cons head list ih =>
      rw [List.mapM_cons, succeeds head List.mem_cons_self,
        ih fun element member => succeeds element (List.mem_cons_of_mem _ member)]
      rfl

/-- The inner loop appends the parents of the pairs that it reads. -/
theorem pushParent_loop {offset : Nat} {nodes : List H256} {children : Nat → H256} {count : Nat}
    (pairs : ∀ i < 2 * count, nodes[offset + i]? = some (children i)) :
    (List.range count).foldlM (pushParent crypto offset) nodes =
      some (nodes ++ (List.range count).map fun i =>
        combine crypto (children (2 * i)) (children (2 * i + 1))) := by
  induction count with
  | zero => simp
  | succ count ih =>
      have earlier := ih fun i bound => pairs i (by omega)
      have left := pairs (2 * count) (by omega)
      have right := pairs (2 * count + 1) (by omega)
      have leftInside := (List.getElem?_eq_some_iff.mp left).1
      have rightInside := (List.getElem?_eq_some_iff.mp right).1
      rw [List.range_succ, List.foldlM_append, earlier, List.map_append]
      simp only [List.foldlM_cons, List.foldlM_nil, Option.bind_eq_bind, Option.bind_some,
        pushParent, Nat.mul_comm count, Nat.add_assoc]
      rw [List.getElem?_append_left leftInside, List.getElem?_append_left rightInside, left, right]
      simp [combine]

variable {leaves : Nat → H256}

/-- The outer loop appends level after level, and ends where the next would start. -/
theorem pushLevel_loop {height count : Nat} (small : height < 32) (bound : count ≤ height) :
    (List.range count).foldlM (pushLevel crypto height)
        (0, PerfectTree.flat (combine crypto) leaves height 0) =
      some (PerfectTree.start height count,
        PerfectTree.flat (combine crypto) leaves height count) := by
  induction count with
  | zero => simp
  | succ count ih =>
      have range : powU32 (height - 1 - count) = some (2 ^ (height - 1 - count)) :=
        powU32_of_lt (by omega)
      have twice : 2 ^ (height - count) = 2 * 2 ^ (height - 1 - count) := by
        rw [PerfectTree.two_pow_sub bound, Nat.sub_sub, Nat.add_comm 1]
      have pushed := @pushParent_loop crypto (PerfectTree.start height count)
        (PerfectTree.flat (combine crypto) leaves height count)
        (PerfectTree.level (combine crypto) leaves count) (2 ^ (height - 1 - count))
        fun i inside => PerfectTree.getElem?_flat _ _ (le_refl count) (by omega) (by omega)
      have length := PerfectTree.length_flat (combine crypto) leaves (show count ≤ height by omega)
      rw [List.range_succ, List.foldlM_append, ih (by omega)]
      simp only [List.foldlM_cons, List.foldlM_nil, Option.bind_eq_bind, Option.bind_some,
        pushLevel, range, pushed, length]
      rw [PerfectTree.flat, PerfectTree.levelNodes, show height - (count + 1) = height - 1 - count
        by omega]
      rfl

/-- The construction yields the flat array of the perfect tree over the padded data. -/
theorem new_eq (nonempty : data ≠ []) (small : height data < 32) :
    new crypto hash data = some (ofLeaves crypto (leafHash hash data) (height data)) := by
  have positive := List.length_pos_of_ne_nil nonempty
  have leaves : (List.range (2 ^ height data)).mapM (leaf hash data) =
      some (PerfectTree.flat (combine crypto) (leafHash hash data) (height data) 0) := by
    rw [mapM_eq_some fun i inside => leaf_eq nonempty (List.mem_range.mp inside)]
    rfl
  have levels := @pushLevel_loop crypto (leafHash hash data) _ _ small (le_refl (height data))
  have modHeight : Nat.clog 2 data.length = height data := rfl
  rw [new, if_neg (by omega)]
  simp only [modHeight, powU32_of_lt small, leaves, levels, Option.bind_eq_bind, Option.bind_some]
  rfl

/-- A tree over more data would need `2^32` leaves. -/
theorem new_eq_none (large : 32 ≤ height data) : new crypto hash data = none := by
  have nonempty : data.length ≠ 0 := by
    intro empty
    rw [height, empty] at large
    simp at large
  have modHeight : Nat.clog 2 data.length = height data := rfl
  rw [new, if_neg nonempty]
  simp only [modHeight, powU32_of_le large, Option.bind_eq_bind, Option.bind_none]

theorem height_lt_iff : height data < 32 ↔ data.length ≤ 2 ^ 31 := by
  rw [height, Nat.lt_succ_iff, Nat.clog_le_iff_le_pow (by omega)]

theorem height_of_new {tree : MerkleTree}
    (built : new crypto hash data = some tree) : height data < 32 := by
  by_contra large
  rw [new_eq_none (by omega)] at built
  cases built

/-! ## Levels of the list of all nodes -/

/-- The `i`-th node of a level, by the offset of the level. -/
def node (tree : MerkleTree) (lower i : Nat) : Option H256 :=
  tree.allNodes[2 ^ (tree.modHeight + 1) - 2 ^ (tree.modHeight + 1 - lower) + i]?

/-- The tree over some data as it should be: the leaves are the hashes of the padded
data, every other node is the hash of two nodes of the level below, and the root is
that of the perfect tree over the padded data. -/
structure Laid (crypto : Crypto) (hash : α → H256) (data : List α) (tree : MerkleTree) : Prop where
  modHeight : tree.modHeight = Nat.clog 2 data.length
  length : tree.allNodes.length = 2 ^ (tree.modHeight + 1) - 1
  leaves : ∀ i < 2 ^ tree.modHeight, tree.node 0 i = (padded data)[i]?.map hash
  parents : ∀ lower < tree.modHeight, ∀ i < 2 ^ (tree.modHeight - (lower + 1)),
    ∃ left right, tree.node lower (2 * i) = some left ∧ tree.node lower (2 * i + 1) = some right ∧
      tree.node (lower + 1) i = some (crypto.sha256 (left.toBytes ++ right.toBytes))
  root : ∃ perfect : PerfectTree H256 (Nat.clog 2 data.length),
    perfect.leaves = (padded data).map hash ∧ tree.root = perfect.root (combine crypto)

section Layout

variable {leaves : Nat → H256} {height lower i : Nat}

@[simp]
theorem modHeight_ofLeaves : (ofLeaves crypto leaves height).modHeight = height :=
  rfl

@[simp]
theorem allNodes_ofLeaves :
    (ofLeaves crypto leaves height).allNodes =
      PerfectTree.flat (combine crypto) leaves height height :=
  rfl

theorem node_ofLeaves (below : lower ≤ height) (inside : i < 2 ^ (height - lower)) :
    (ofLeaves crypto leaves height).node lower i =
      some (PerfectTree.level (combine crypto) leaves lower i) :=
  PerfectTree.getElem?_flat _ _ below (le_refl height) inside

theorem root_ofLeaves :
    (ofLeaves crypto leaves height).root = PerfectTree.level (combine crypto) leaves height 0 := by
  rw [root, allNodes_ofLeaves, PerfectTree.getLast?_flat]
  rfl

end Layout

theorem laid_ofLeaves (nonempty : data ≠ []) :
    Laid crypto hash data (ofLeaves crypto (leafHash hash data) (height data)) := by
  constructor
  · rfl
  · have length := PerfectTree.length_flat (combine crypto) (leafHash hash data)
      (le_refl (height data))
    rw [allNodes_ofLeaves, modHeight_ofLeaves, length, PerfectTree.start, Nat.sub_self,
      Nat.pow_zero]
  · intro i inside
    have length := length_padded nonempty
    change i < 2 ^ height data at inside
    have present : i < ((padded data).map hash).length := by simpa [length] using inside
    have read := @node_ofLeaves crypto (leafHash hash data) (height data) 0 i (Nat.zero_le _) inside
    rw [read, PerfectTree.level_zero, ← List.getElem?_map, leafHash,
      List.getD_eq_getElem _ _ present, List.getElem?_eq_getElem present]
  · intro lower below i inside
    change lower < height data at below
    change i < 2 ^ (height data - (lower + 1)) at inside
    have twice := PerfectTree.two_pow_sub below
    exact ⟨_, _, node_ofLeaves (by omega) (by omega), node_ofLeaves (by omega) (by omega),
      node_ofLeaves below inside⟩
  · exact ⟨PerfectTree.subtree (leafHash hash data) (height data) 0, leaves_padded nonempty,
      root_ofLeaves⟩

/-- The construction lays out the tree as it should be, without an index out of range,
exactly for up to `2^31` data. -/
theorem laid_iff (crypto : Crypto) (hash : α → H256) (nonempty : data ≠ []) :
    (∃ tree, new crypto hash data = some tree ∧ Laid crypto hash data tree) ↔
      data.length ≤ 2 ^ 31 := by
  rw [← height_lt_iff]
  constructor
  · rintro ⟨tree, built, -⟩
    exact height_of_new built
  · intro small
    exact ⟨_, new_eq nonempty small, laid_ofLeaves nonempty⟩

theorem laid_three :
    ∃ tree, new Crypto.sample id [H256.zero, H256.zero, H256.zero] = some tree ∧
      Laid Crypto.sample id [H256.zero, H256.zero, H256.zero] tree :=
  (laid_iff Crypto.sample id (List.cons_ne_nil _ _)).mpr (by decide)

/-- One datum more than `2^31` gives no tree. -/
theorem not_laid_large :
    ¬ ∃ tree, new Crypto.sample id (List.replicate (2 ^ 31 + 1) H256.zero) = some tree ∧
      Laid Crypto.sample id (List.replicate (2 ^ 31 + 1) H256.zero) tree := by
  rintro ⟨tree, built, -⟩
  have large : 32 ≤ height (List.replicate (2 ^ 31 + 1) H256.zero) := by
    by_contra small
    have short := height_lt_iff.mp (Nat.lt_of_not_le small)
    rw [List.length_replicate] at short
    omega
  rw [new_eq_none large] at built
  cases built

end MerkleTree

end SimplifiedPrism
