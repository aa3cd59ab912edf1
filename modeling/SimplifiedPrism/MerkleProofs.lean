import SimplifiedPrism.MerkleLayout

/-!
# Merkle proofs

`MerkleTree::proof` finds the level of a sibling by adding up the sizes of the levels
below, and `verify` decides by the bits of the index on which side the sibling goes.
The proof that is computed from a tree verifies for every datum.  Conversely `verify`
does not look at the number of leaves, so that it also accepts an inner node with its
siblings as a datum; this is the only other thing that it accepts.
-/

namespace SimplifiedPrism

namespace MerkleTree

variable {crypto : Crypto} {α : Type*} {hash : α → H256} {data : List α}

/-! ## Completeness -/

section Completeness

theorem addU32_of_lt {first second : Nat} (bound : first + second < 2 ^ 32) :
    addU32 first second = some (first + second) :=
  if_pos bound

theorem sibling_lt {index count : Nat} (bound : index < 2 ^ (count + 1)) :
    PerfectTree.sibling index < 2 ^ (count + 1) := by
  rw [Nat.pow_succ] at bound ⊢
  unfold PerfectTree.sibling
  split <;> omega

/-- The position of the sibling is within the level, so that no sum leaves the range
of `u32`. -/
theorem siblingPosition_eq {offset index count : Nat} (bound : index < 2 ^ (count + 1))
    (range : offset + 2 ^ (count + 1) < 2 ^ 32) :
    siblingPosition offset index = some (offset + PerfectTree.sibling index) := by
  have inRange : addU32 offset index = some (offset + index) := addU32_of_lt (by omega)
  rw [Nat.pow_succ] at bound range
  rw [siblingPosition, inRange, Option.bind_some, Option.bind_some]
  rcases Nat.mod_two_eq_zero_or_one index with even | odd
  · rw [if_neg (by omega), addU32_of_lt (by omega), PerfectTree.sibling, if_pos even,
      Nat.add_assoc]
  · rw [if_pos (by omega), subU32, if_pos (by omega), PerfectTree.sibling, if_neg (by omega),
      Nat.add_sub_assoc (by omega)]

variable {leaves : Nat → H256} {height index : Nat}

/-- The loop of `proof` reads the siblings at the offsets of their levels. -/
theorem pushSibling_loop (small : height < 32) (inside : index < 2 ^ height) {count : Nat}
    (bound : count ≤ height) :
    (List.range count).foldlM
        (pushSibling (ofLeaves crypto leaves height)) ⟨[], index, 0⟩ =
      some ⟨PerfectTree.siblings (combine crypto) leaves 0 index count, index / 2 ^ count,
        PerfectTree.start height count⟩ := by
  induction count with
  | zero => simp [PerfectTree.siblings]
  | succ count ih =>
      obtain ⟨above, levels⟩ : ∃ above, height - count = above + 1 := ⟨height - count - 1, by omega⟩
      have within : index / 2 ^ count < 2 ^ (above + 1) :=
        levels ▸ PerfectTree.div_two_pow_lt (by omega) inside
      have next : PerfectTree.start height (count + 1) =
          PerfectTree.start height count + 2 ^ (above + 1) := by
        rw [PerfectTree.start_succ (by omega), levels]
      have range : PerfectTree.start height (count + 1) < 2 ^ 32 :=
        lt_of_lt_of_le PerfectTree.start_lt (Nat.pow_le_pow_right (by omega) (by omega))
      have position := siblingPosition_eq within (next ▸ range)
      have read := PerfectTree.getElem?_flat (combine crypto) leaves
        (show count ≤ height by omega) (le_refl height) (levels ▸ sibling_lt within)
      have power : powU32 (height - count) = some (2 ^ (above + 1)) := by
        rw [powU32_of_lt (by omega), levels]
      rw [List.range_succ, List.foldlM_append, ih (by omega)]
      simp only [List.foldlM_cons, List.foldlM_nil, Option.bind_eq_bind, Option.bind_some,
        pushSibling, position, modHeight_ofLeaves, allNodes_ofLeaves, read, power,
        addU32_of_lt (next ▸ range)]
      rw [← next, PerfectTree.siblings_concat, Nat.zero_add, Nat.div_div_eq_div_mul,
        ← Nat.pow_succ]
      rfl

theorem proof_ofLeaves (small : height < 32) (inside : index < 2 ^ height) :
    (ofLeaves crypto leaves height).proof index =
      some (PerfectTree.siblings (combine crypto) leaves 0 index height) := by
  have cut : index % 2 ^ 32 = index :=
    Nat.mod_eq_of_lt (lt_of_lt_of_le inside (Nat.pow_le_pow_right (by omega) (by omega)))
  rw [proof, cut, modHeight_ofLeaves, pushSibling_loop small inside (le_refl height)]
  rfl

theorem verify_iff {root datum : H256} {proof : List H256} {leafSize : Nat} :
    verify crypto root datum proof index leafSize = true ↔
      PerfectTree.climb (combine crypto) datum proof index = root := by
  rw [verify, decide_eq_true_eq, eq_comm]
  suffices climbs : (proof.foldl (verifyStep crypto) (datum, index)).1 =
      PerfectTree.climb (combine crypto) datum proof index by
    rw [climbs]
  induction proof generalizing datum index with
  | nil => rfl
  | cons sibling proof ih =>
      have step : verifyStep crypto (datum, index) sibling =
          (combine crypto (PerfectTree.join index datum sibling).1
            (PerfectTree.join index datum sibling).2, index / 2) := by
        unfold verifyStep PerfectTree.join
        split <;> rfl
      rw [List.foldl_cons, step, ih, PerfectTree.climb]

end Completeness

/-- For every datum the proof reads existing nodes only and verifies, exactly for up to
`2^31` data. -/
theorem verifies_iff (crypto : Crypto) (hash : α → H256) {index : Nat}
    (bound : index < data.length) :
    (∃ tree proof, new crypto hash data = some tree ∧ tree.proof index = some proof ∧
      verify crypto tree.root (hash data[index]) proof index data.length = true) ↔
      data.length ≤ 2 ^ 31 := by
  rw [← height_lt_iff]
  constructor
  · rintro ⟨tree, proof, built, -⟩
    exact height_of_new built
  · intro small
    have nonempty : data ≠ [] := List.ne_nil_of_length_pos (by omega)
    have padding := length_le_height data
    have inside : index < 2 ^ height data := by omega
    refine ⟨_, _, new_eq nonempty small, proof_ofLeaves small inside, ?_⟩
    have climbs := PerfectTree.climb_siblings (combine crypto) (leafHash hash data) 0 index
      (height data)
    rw [PerfectTree.level_zero, leafHash_eq hash bound, Nat.div_eq_of_lt inside,
      Nat.zero_add] at climbs
    rw [verify_iff, climbs, root_ofLeaves]

theorem verifies_three :
    ∃ tree proof, new Crypto.sample id [H256.zero, H256.zero, H256.zero] = some tree ∧
      tree.proof 2 = some proof ∧
      verify Crypto.sample tree.root (id H256.zero) proof 2 3 = true :=
  (verifies_iff Crypto.sample id (show 2 < [H256.zero, H256.zero, H256.zero].length by decide)).mpr
    (by decide)

/-- With one datum more than `2^31` there is no tree to verify against. -/
theorem not_verifies_large :
    ¬ ∃ tree proof, new Crypto.sample id (List.replicate (2 ^ 31 + 1) H256.zero) = some tree ∧
      tree.proof 0 = some proof ∧
      verify Crypto.sample tree.root (id H256.zero) proof 0 (2 ^ 31 + 1) = true := by
  rintro ⟨tree, proof, built, -⟩
  have short := height_lt_iff.mp (height_of_new built)
  rw [List.length_replicate] at short
  omega

/-! ## What is hashed -/

/-- What is hashed for the parent of two nodes. -/
def input (pair : H256 × H256) : List UInt8 :=
  pair.1.toBytes ++ pair.2.toBytes

/-- What the construction has hashed: every level starts at an even position, so that
the children of a node stand at positions `2 * i` and `2 * i + 1`. -/
def hashedInputs : List H256 → List (List UInt8)
  | left :: right :: nodes => input (left, right) :: hashedInputs nodes
  | _ => []

/-- What `verify` hashes. -/
def verifyInputs (crypto : Crypto) (datum : H256) (proof : List H256) (index : Nat) :
    List (List UInt8) :=
  (PerfectTree.climbed (combine crypto) datum proof index).map input

/-- SHA-256 is injective on some inputs, and none of some leaves is the hash of one. -/
structure Separates (crypto : Crypto) (leaves : List H256) (inputs : List (List UInt8)) : Prop where
  injective : ∀ first ∈ inputs, ∀ second ∈ inputs,
    crypto.sha256 first = crypto.sha256 second → first = second
  apart : ∀ leaf ∈ leaves, ∀ hashed ∈ inputs, leaf ≠ crypto.sha256 hashed

theorem input_injective : Function.Injective input := by
  rintro ⟨⟨left⟩, ⟨right⟩⟩ ⟨⟨otherLeft⟩, ⟨otherRight⟩⟩ same
  obtain ⟨sameLeft, sameRight⟩ := List.append_inj same (by simp)
  rw [H256.toBytes, H256.toBytes, Vector.toList_inj] at sameLeft sameRight
  simp only at sameLeft sameRight
  rw [sameLeft, sameRight]

theorem mem_hashedInputs {nodes : List H256} {i : Nat} {left right : H256}
    (leftAt : nodes[2 * i]? = some left) (rightAt : nodes[2 * i + 1]? = some right) :
    input (left, right) ∈ hashedInputs nodes := by
  fun_induction hashedInputs nodes generalizing i with
  | case1 first second nodes ih =>
      cases i with
      | zero =>
          cases leftAt
          cases rightAt
          exact List.mem_cons_self
      | succ i => exact List.mem_cons_of_mem _ (ih leftAt rightAt)
  | case2 nodes short =>
      cases nodes with
      | nil => cases leftAt
      | cons first nodes =>
          cases nodes with
          | nil => simp at rightAt
          | cons second nodes => exact absurd rfl (short first second nodes)

theorem input_mem_ofLeaves {leaves : Nat → H256} {height lower i : Nat} (below : lower < height)
    (inside : i < 2 ^ (height - (lower + 1))) :
    input (PerfectTree.level (combine crypto) leaves lower (2 * i),
        PerfectTree.level (combine crypto) leaves lower (2 * i + 1)) ∈
      hashedInputs (ofLeaves crypto leaves height).allNodes := by
  have twice := PerfectTree.two_pow_sub below
  obtain ⟨half, even⟩ := PerfectTree.exists_start (show lower ≤ height by omega)
  have found := fun i (bound : i < 2 ^ (height - lower)) =>
    PerfectTree.getElem?_flat (combine crypto) leaves (show lower ≤ height by omega)
      (le_refl height) bound
  simp only [even] at found
  apply mem_hashedInputs (i := half + i)
  · rw [Nat.mul_add]
    exact found (2 * i) (by omega)
  · rw [Nat.mul_add, Nat.add_assoc]
    exact found (2 * i + 1) (by omega)

theorem Separates.injOn {leaves : List H256} {inputs : List (List UInt8)}
    (separates : Separates crypto leaves inputs) :
    Set.InjOn (fun pair : H256 × H256 => combine crypto pair.1 pair.2)
      {pair | input pair ∈ inputs} := by
  intro first firstMem second secondMem same
  exact input_injective (separates.injective _ firstMem _ secondMem same)

/-! ## Soundness -/

/-- The datum is an inner node of the tree, as many levels below the root as the proof
is long, and the proof consists of the siblings on the way up from there. -/
structure OpensInner (tree : MerkleTree) (datum : H256) (proof : List H256) (index : Nat) :
    Prop where
  short : proof.length < tree.modHeight
  datum : tree.node (tree.modHeight - proof.length) (index % 2 ^ proof.length) = some datum
  siblings : ∀ step < proof.length,
    tree.node (tree.modHeight - proof.length + step)
      (PerfectTree.sibling (index % 2 ^ proof.length / 2 ^ step)) = proof[step]?

section Soundness

variable {leaves : Nat → H256} {height index : Nat} {datum : H256} {proof : List H256}

theorem node_sibling {bottom index count step : Nat} (top : bottom + count = height)
    (inside : index < 2 ^ count) (bound : step < count) :
    (ofLeaves crypto leaves height).node (bottom + step)
        (PerfectTree.sibling (index / 2 ^ step)) =
      (PerfectTree.siblings (combine crypto) leaves bottom index count)[step]? := by
  obtain ⟨above, levels⟩ : ∃ above, count - step = above + 1 := ⟨count - step - 1, by omega⟩
  have within : index / 2 ^ step < 2 ^ (above + 1) :=
    levels ▸ PerfectTree.div_two_pow_lt (by omega) inside
  have remaining : height - (bottom + step) = above + 1 := by omega
  rw [node_ofLeaves (by omega) (remaining ▸ sibling_lt within)]
  simp [PerfectTree.siblings, bound]

theorem opensInner_ofLeaves :
    (ofLeaves crypto leaves height).OpensInner datum proof index ↔
      proof.length < height ∧
        datum = PerfectTree.level (combine crypto) leaves (height - proof.length)
          (index % 2 ^ proof.length) ∧
        proof = PerfectTree.siblings (combine crypto) leaves (height - proof.length)
          (index % 2 ^ proof.length) proof.length := by
  have inside : index % 2 ^ proof.length < 2 ^ proof.length := Nat.mod_lt _ (Nat.two_pow_pos _)
  constructor
  · rintro ⟨short, datumAt, siblingsAt⟩
    rw [modHeight_ofLeaves] at short datumAt
    refine ⟨short, ?_, List.ext_getElem? fun step => ?_⟩
    · rw [node_ofLeaves (Nat.sub_le _ _) (by rwa [Nat.sub_sub_self (by omega)])] at datumAt
      exact (Option.some.inj datumAt).symm
    · by_cases bound : step < proof.length
      · rw [← siblingsAt step bound, modHeight_ofLeaves, node_sibling (by omega) inside bound]
      · rw [List.getElem?_eq_none (by omega), List.getElem?_eq_none (by simpa using bound)]
  · rintro ⟨short, datumEq, proofEq⟩
    refine ⟨short, ?_, fun step bound => ?_⟩
    · rw [modHeight_ofLeaves,
        node_ofLeaves (Nat.sub_le _ _) (by rwa [Nat.sub_sub_self (by omega)]), datumEq]
    · rw [modHeight_ofLeaves, node_sibling (by omega) inside bound, ← proofEq]

end Soundness

/-- `verify` accepts nothing but the hash of the datum at the index, exactly as long as
it is not given an inner node with its siblings. -/
theorem sound_iff {tree : MerkleTree} {index : Nat} (bound : index < data.length)
    (built : new crypto hash data = some tree) (datum : H256) (proof : List H256)
    (separates : Separates crypto (data.map hash)
      (hashedInputs tree.allNodes ++ verifyInputs crypto datum proof index)) :
    (verify crypto tree.root datum proof index data.length = true → datum = hash data[index]) ↔
      ¬ tree.OpensInner datum proof index := by
  have nonempty : data ≠ [] := List.ne_nil_of_length_pos (by omega)
  have padding := length_le_height data
  have inside : index < 2 ^ height data := by omega
  rw [new_eq nonempty (height_of_new built), Option.some.injEq] at built
  subst built
  have levels : ∀ lower < height data, ∀ i < 2 ^ (height data - (lower + 1)),
      (PerfectTree.level (combine crypto) (leafHash hash data) lower (2 * i),
        PerfectTree.level (combine crypto) (leafHash hash data) lower (2 * i + 1)) ∈
        {pair | input pair ∈ hashedInputs (ofLeaves crypto (leafHash hash data)
          (height data)).allNodes ++ verifyInputs crypto datum proof index} :=
    fun lower below i within => List.mem_append_left _ (input_mem_ofLeaves below within)
  have climbing : ∀ pair ∈ PerfectTree.climbed (combine crypto) datum proof index,
      pair ∈ {pair | input pair ∈ hashedInputs (ofLeaves crypto (leafHash hash data)
        (height data)).allNodes ++ verifyInputs crypto datum proof index} :=
    fun pair member => List.mem_append_right _ (List.mem_map_of_mem member)
  rw [verify_iff, root_ofLeaves, opensInner_ofLeaves, ← leafHash_eq hash bound]
  constructor
  · rintro accepts ⟨short, datumEq, proofEq⟩
    have climbs := PerfectTree.climb_siblings (combine crypto) (leafHash hash data)
      (height data - proof.length) (index % 2 ^ proof.length) proof.length
    rw [← datumEq, ← proofEq, PerfectTree.climb_mod, Nat.sub_add_cancel (by omega),
      Nat.div_eq_of_lt (Nat.mod_lt _ (Nat.two_pow_pos _))] at climbs
    -- the datum is the hash of an inner node and can be no leaf
    obtain ⟨lower, above⟩ : ∃ lower, height data - proof.length = lower + 1 :=
      ⟨height data - proof.length - 1, by omega⟩
    rw [accepts climbs, above] at datumEq
    have within : index % 2 ^ proof.length < 2 ^ (height data - (lower + 1)) := by
      rw [← above, Nat.sub_sub_self (by omega)]
      exact Nat.mod_lt _ (Nat.two_pow_pos _)
    exact separates.apart _ (leafHash_mem nonempty inside) _
      (levels lower (by omega) _ within) datumEq
  · intro closed verified
    by_cases long : height data < proof.length
    · refine absurd verified
        (PerfectTree.climb_ne_root separates.injOn levels ?_ climbing inside long)
      exact fun i within pair member =>
        separates.apart _ (leafHash_mem nonempty within) _ member
    · obtain ⟨datumEq, proofEq⟩ := PerfectTree.eq_of_climb_eq_root separates.injOn levels climbing
        (by omega) verified
      have whole : proof.length = height data := by
        by_contra other
        exact closed ⟨by omega, datumEq, proofEq⟩
      rw [whole, Nat.sub_self, Nat.mod_eq_of_lt inside, PerfectTree.level_zero] at datumEq
      exact datumEq

/-! ## Three small data -/

/-- A hash of one byte. -/
def oneByte (byte : UInt8) : H256 :=
  .fill 0 [byte]

/-- A stand-in for SHA-256 that mixes the first bytes of two nodes. -/
def mixing : Crypto :=
  { Crypto.sample with
    sha256 := fun bytes => oneByte (2 * bytes.getD 0 0 + 3 * bytes.getD 32 0 + 101) }

/-- The tree over some of them. -/
def smallTree (data : List UInt8) : MerkleTree :=
  ofLeaves mixing (leafHash oneByte data) (height data)

theorem sound_three :
    (verify mixing (smallTree [1, 2, 3]).root (oneByte 2)
        [oneByte 1, mixing.sha256 (input (oneByte 3, oneByte 3))] 1 3 = true →
      oneByte 2 = oneByte ([1, 2, 3] : List UInt8)[1]) ∧
    verify mixing (smallTree [1, 2, 3]).root (oneByte 2)
      [oneByte 1, mixing.sha256 (input (oneByte 3, oneByte 3))] 1 3 = true := by
  have built : new mixing oneByte [1, 2, 3] = some (smallTree [1, 2, 3]) :=
    new_eq (by simp) (by decide)
  have separates : Separates mixing ([1, 2, 3].map oneByte)
      (hashedInputs (smallTree [1, 2, 3]).allNodes ++ verifyInputs mixing (oneByte 2)
        [oneByte 1, mixing.sha256 (input (oneByte 3, oneByte 3))] 1) :=
    ⟨by decide +kernel, by decide +kernel⟩
  exact ⟨(sound_iff (by decide) built _ _ separates).mpr fun inner =>
    absurd inner.short (by decide), by decide +kernel⟩

/-- The root itself is accepted with the empty proof, as the hash of the first of two
data. -/
theorem accepted_root :
    new mixing oneByte [1, 2] = some (smallTree [1, 2]) ∧
      Separates mixing ([1, 2].map oneByte)
        (hashedInputs (smallTree [1, 2]).allNodes ++
          verifyInputs mixing (smallTree [1, 2]).root [] 0) ∧
      verify mixing (smallTree [1, 2]).root (smallTree [1, 2]).root [] 0 2 = true ∧
      (smallTree [1, 2]).root ≠ oneByte ([1, 2] : List UInt8)[0] :=
  ⟨new_eq (by simp) (by decide), ⟨by decide +kernel, by decide +kernel⟩, by decide +kernel,
    by decide +kernel⟩

end MerkleTree

end SimplifiedPrism
