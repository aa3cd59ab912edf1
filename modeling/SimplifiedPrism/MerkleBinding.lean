import SimplifiedPrism.MerkleProofs

/-!
# What a Merkle root commits to

Headers carry Merkle roots as the commitment to the content of a block.  A level that
is not full is padded with copies of the last datum, so that the root commits to the
padded data: a list and the same list with its last datum repeated within the padding
have one root, and nothing else has.
-/

namespace SimplifiedPrism

namespace MerkleTree

variable {crypto : Crypto} {α : Type*} {hash : α → H256} {data first second : List α}

theorem padded_ne_nil (nonempty : data ≠ []) : padded data ≠ [] := by
  apply List.ne_nil_of_length_pos
  rw [length_padded nonempty]
  exact Nat.two_pow_pos _

theorem mem_of_mem_padded {datum : α} (nonempty : data ≠ []) (member : datum ∈ padded data) :
    datum ∈ data := by
  rw [padded_eq nonempty] at member
  rcases List.mem_append.mp member with inside | copied
  · exact inside
  · rw [List.eq_of_mem_replicate copied]
    exact List.getLast_mem nonempty

theorem eq_of_padded_eq (same : padded first = padded second)
    (length : first.length = second.length) : first = second := by
  by_cases empty : first = []
  · subst empty
    exact (List.eq_nil_of_length_eq_zero length.symm).symm
  · have nonempty : second ≠ [] := by
      rintro rfl
      exact empty (List.eq_nil_of_length_eq_zero length)
    rw [padded_eq empty, padded_eq nonempty] at same
    exact (List.append_inj same length).1

theorem height_eq_of_padded_eq (firstNonempty : first ≠ []) (secondNonempty : second ≠ [])
    (same : padded first = padded second) : height first = height second := by
  have lengths := congrArg List.length same
  rw [length_padded firstNonempty, length_padded secondNonempty] at lengths
  exact Nat.pow_right_injective (le_refl 2) lengths

/-- What has been hashed for a tree over some data. -/
def dataInputs (crypto : Crypto) (hash : α → H256) (data : List α) : List (List UInt8) :=
  hashedInputs (ofLeaves crypto (leafHash hash data) (height data)).allNodes

/-- Everything that the perfect tree over the padded data combines has been hashed. -/
theorem input_mem_of_pairs {pair : H256 × H256}
    (member : pair ∈ (PerfectTree.subtree (leafHash hash data) (height data) 0).pairs
      (combine crypto)) : input pair ∈ dataInputs crypto hash data := by
  obtain ⟨lower, below, i, bound, rfl⟩ := PerfectTree.mem_pairs_subtree _ _ member
  rw [Nat.zero_add, Nat.one_mul] at bound
  exact input_mem_ofLeaves below bound

theorem root_cases (nonempty : data ≠ []) :
    (ofLeaves crypto (leafHash hash data) (height data)).root ∈ data.map hash ∨
      ∃ hashed ∈ dataInputs crypto hash data,
        (ofLeaves crypto (leafHash hash data) (height data)).root = crypto.sha256 hashed := by
  rw [root_ofLeaves, dataInputs]
  cases top : height data with
  | zero =>
      left
      exact leafHash_mem nonempty (by rw [top]; exact Nat.one_pos)
  | succ lower => exact .inr ⟨_, input_mem_ofLeaves (Nat.lt_succ_self lower) (by simp), rfl⟩

section Binding

theorem leaves_subset (nonempty : data ≠ []) {leaf : H256}
    (member : leaf ∈ (PerfectTree.subtree (leafHash hash data) (height data) 0).leaves) :
    leaf ∈ data.map hash := by
  rw [leaves_padded nonempty] at member
  obtain ⟨datum, inside, rfl⟩ := List.mem_map.mp member
  exact List.mem_map_of_mem (mem_of_mem_padded nonempty inside)

theorem padded_eq_of_root_eq (injective : Function.Injective hash) (firstNonempty : first ≠ [])
    (secondNonempty : second ≠ [])
    (separates : Separates crypto (first.map hash ++ second.map hash)
      (dataInputs crypto hash first ++ dataInputs crypto hash second))
    (same : (ofLeaves crypto (leafHash hash first) (height first)).root =
      (ofLeaves crypto (leafHash hash second) (height second)).root) :
    padded first = padded second := by
  apply List.map_injective_iff.mpr injective
  rw [← leaves_padded firstNonempty, ← leaves_padded secondNonempty]
  rw [root_ofLeaves, root_ofLeaves] at same
  apply PerfectTree.leaves_eq_of_root_eq separates.injOn _ _ _ _ same
  · exact fun pair member => List.mem_append_left _ (input_mem_of_pairs member)
  · exact fun pair member => List.mem_append_right _ (input_mem_of_pairs member)
  · exact fun leaf member pair involved => separates.apart leaf
      (List.mem_append_left _ (leaves_subset firstNonempty member)) _ involved
  · exact fun leaf member pair involved => separates.apart leaf
      (List.mem_append_right _ (leaves_subset secondNonempty member)) _ involved

theorem root_eq_of_padded_eq (firstNonempty : first ≠ []) (secondNonempty : second ≠ [])
    (same : padded first = padded second) :
    (ofLeaves crypto (leafHash hash first) (height first)).root =
      (ofLeaves crypto (leafHash hash second) (height second)).root := by
  have leaves : leafHash hash first = leafHash hash second := by
    funext i
    rw [leafHash, same, leafHash]
  rw [leaves, height_eq_of_padded_eq firstNonempty secondNonempty same]

theorem root_ne_zero (nonempty : data ≠ []) (leaves : ∀ leaf ∈ data.map hash, leaf ≠ H256.zero)
    (inputs : ∀ hashed ∈ dataInputs crypto hash data, crypto.sha256 hashed ≠ H256.zero) :
    (ofLeaves crypto (leafHash hash data) (height data)).root ≠ H256.zero := by
  rcases @root_cases crypto _ hash data nonempty with leaf | ⟨hashed, member, same⟩
  · exact leaves _ leaf
  · rw [same]
    exact inputs hashed member

end Binding

/-- The trees of two lists have the same root exactly if the lists are the same after
padding; two lists of the same length are then the same. -/
theorem root_eq_iff {firstTree secondTree : MerkleTree} (injective : Function.Injective hash)
    (builtFirst : new crypto hash first = some firstTree)
    (builtSecond : new crypto hash second = some secondTree)
    (separates : Separates crypto (first.map hash ++ second.map hash)
      (hashedInputs firstTree.allNodes ++ hashedInputs secondTree.allNodes))
    (leaves : ∀ leaf ∈ first.map hash ++ second.map hash, leaf ≠ H256.zero)
    (inputs : ∀ hashed ∈ hashedInputs firstTree.allNodes ++ hashedInputs secondTree.allNodes,
      crypto.sha256 hashed ≠ H256.zero) :
    (firstTree.root = secondTree.root ↔ padded first = padded second) ∧
      (firstTree.root = secondTree.root → first.length = second.length → first = second) := by
  suffices commits : firstTree.root = secondTree.root ↔ padded first = padded second from
    ⟨commits, fun same length => eq_of_padded_eq (commits.mp same) length⟩
  by_cases firstEmpty : first = []
  · subst firstEmpty
    cases builtFirst
    by_cases secondEmpty : second = []
    · subst secondEmpty
      cases builtSecond
      exact iff_of_true rfl rfl
    · rw [new_eq secondEmpty (height_of_new builtSecond), Option.some.injEq] at builtSecond
      subst builtSecond
      have nonzero := root_ne_zero secondEmpty leaves inputs
      exact iff_of_false (fun same => nonzero same.symm)
        (fun same => padded_ne_nil secondEmpty same.symm)
  rw [new_eq firstEmpty (height_of_new builtFirst), Option.some.injEq] at builtFirst
  subst builtFirst
  by_cases secondEmpty : second = []
  · subst secondEmpty
    cases builtSecond
    have nonzero := @root_ne_zero crypto _ hash first firstEmpty
      (fun leaf member => leaves leaf (List.mem_append_left _ member))
      (fun hashed member => inputs hashed (List.mem_append_left _ member))
    exact iff_of_false nonzero (padded_ne_nil firstEmpty)
  · rw [new_eq secondEmpty (height_of_new builtSecond), Option.some.injEq] at builtSecond
    subst builtSecond
    exact ⟨padded_eq_of_root_eq injective firstEmpty secondEmpty separates,
      root_eq_of_padded_eq firstEmpty secondEmpty⟩

theorem oneByte_injective : Function.Injective oneByte := by
  intro first second same
  have firstByte := congrArg (fun hash => hash.bytes[0]) same
  simpa [oneByte, H256.fill] using firstByte

theorem root_eq_two :
    (smallTree [1, 2]).root = (smallTree [1, 3]).root ↔
      padded ([1, 2] : List UInt8) = padded [1, 3] := by
  have builtFirst : new mixing oneByte [1, 2] = some (smallTree [1, 2]) :=
    new_eq (by simp) (by decide)
  have builtSecond : new mixing oneByte [1, 3] = some (smallTree [1, 3]) :=
    new_eq (by simp) (by decide)
  have separates : Separates mixing ([1, 2].map oneByte ++ [1, 3].map oneByte)
      (hashedInputs (smallTree [1, 2]).allNodes ++ hashedInputs (smallTree [1, 3]).allNodes) :=
    ⟨by decide +kernel, by decide +kernel⟩
  have leaves : ∀ leaf ∈ [1, 2].map oneByte ++ [1, 3].map oneByte, leaf ≠ H256.zero := by
    decide +kernel
  have inputs : ∀ hashed ∈ hashedInputs (smallTree [1, 2]).allNodes ++
      hashedInputs (smallTree [1, 3]).allNodes, mixing.sha256 hashed ≠ H256.zero := by
    decide +kernel
  exact (root_eq_iff oneByte_injective builtFirst builtSecond separates leaves inputs).1

/-- Three data and the same with the last one repeated have the same root. -/
theorem root_eq_repeated :
    Function.Injective oneByte ∧
      new mixing oneByte [1, 2, 3] = some (smallTree [1, 2, 3]) ∧
      new mixing oneByte [1, 2, 3, 3] = some (smallTree [1, 2, 3, 3]) ∧
      Separates mixing ([1, 2, 3].map oneByte ++ [1, 2, 3, 3].map oneByte)
        (hashedInputs (smallTree [1, 2, 3]).allNodes ++
          hashedInputs (smallTree [1, 2, 3, 3]).allNodes) ∧
      (∀ leaf ∈ [1, 2, 3].map oneByte ++ [1, 2, 3, 3].map oneByte, leaf ≠ H256.zero) ∧
      (∀ hashed ∈ hashedInputs (smallTree [1, 2, 3]).allNodes ++
          hashedInputs (smallTree [1, 2, 3, 3]).allNodes, mixing.sha256 hashed ≠ H256.zero) ∧
      (smallTree [1, 2, 3]).root = (smallTree [1, 2, 3, 3]).root ∧
      ([1, 2, 3] : List UInt8) ≠ [1, 2, 3, 3] :=
  ⟨oneByte_injective, new_eq (by simp) (by decide), new_eq (by simp) (by decide),
    ⟨by decide +kernel, by decide +kernel⟩, by decide +kernel, by decide +kernel,
    by decide +kernel, by decide⟩

end MerkleTree

end SimplifiedPrism
