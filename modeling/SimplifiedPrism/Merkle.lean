import Mathlib.Data.Nat.Log
import SimplifiedPrism.Block

/-!
# Merkle trees

`MerkleTree.new` stores all nodes of a perfect binary tree in one list, level
after level from the leaves, and pads the leaves with copies of the last one.
Every index and every `u32` operation can fail, so the construction is partial, and
so is `MerkleTree.proof`, which reads the sibling of every node on the way up.
-/

namespace SimplifiedPrism

/-- A Merkle tree. -/
structure MerkleTree where
  allNodes : List H256
  modHeight : Nat

namespace MerkleTree

variable (crypto : Crypto)

/-- `2u32.pow(exponent)`, which has to fit into 32 bits. -/
def powU32 (exponent : Nat) : Option Nat :=
  if 2 ^ exponent < 2 ^ 32 then some (2 ^ exponent) else none

/-- The `i`-th leaf: the hash of the `i`-th datum, or of the last one. -/
def leaf {α : Type*} (hash : α → H256) (data : List α) (i : Nat) : Option H256 :=
  if i < data.length then data[i]?.map hash else data[data.length - 1]?.map hash

/-- One pass of the inner loop: append the parent of the `i`-th pair of nodes
of the level that starts at `offset`. -/
def pushParent (offset : Nat) (allNodes : List H256) (i : Nat) : Option (List H256) := do
  let left ← allNodes[offset + i * 2]?
  let right ← allNodes[offset + i * 2 + 1]?
  return allNodes ++ [crypto.sha256 (left.toBytes ++ right.toBytes)]

/-- One pass of the outer loop: append level `k + 1`; the next level starts
where the list ended before. -/
def pushLevel (modHeight : Nat) (nodes : Nat × List H256) (k : Nat) :
    Option (Nat × List H256) := do
  let range ← powU32 (modHeight - 1 - k)
  let allNodes ← (List.range range).foldlM (pushParent crypto nodes.1) nodes.2
  return (nodes.2.length, allNodes)

/-- Build the tree over some data.  The height is the exact ceiling of the logarithm
of the length; the source computes it in `f64`, which rounds up to a greater height
at some powers of two (the first is 2^29). -/
def new {α : Type*} (hash : α → H256) (data : List α) : Option MerkleTree :=
  if data.length = 0 then
    some ⟨[], 0⟩
  else do
    let modHeight := Nat.clog 2 data.length
    let dest ← powU32 modHeight
    let leaves ← (List.range dest).mapM (leaf hash data)
    let nodes ← (List.range modHeight).foldlM (pushLevel crypto modHeight) (0, leaves)
    return ⟨nodes.2, modHeight⟩

/-- The last node, or the zero hash for the empty tree. -/
def root (tree : MerkleTree) : H256 :=
  tree.allNodes.getLast?.getD H256.zero

/-- `first + second` of `u32`. -/
def addU32 (first second : Nat) : Option Nat :=
  if first + second < 2 ^ 32 then some (first + second) else none

/-- `first - second` of `u32`. -/
def subU32 (first second : Nat) : Option Nat :=
  if second ≤ first then some (first - second) else none

/-- The variables of the loop in `proof`. -/
structure Proving where
  ret : List H256
  index : Nat
  offset : Nat

/-- The position of the sibling, `offset + index - 1` or `offset + index + 1`. -/
def siblingPosition (offset index : Nat) : Option Nat :=
  if index % 2 ≠ 0 then
    (addU32 offset index).bind fun sum => subU32 sum 1
  else
    (addU32 offset index).bind fun sum => addU32 sum 1

/-- One pass of the loop in `proof`: append the sibling on level `i`. -/
def pushSibling (tree : MerkleTree) (proving : Proving) (i : Nat) : Option Proving := do
  let position ← siblingPosition proving.offset proving.index
  let sibling ← tree.allNodes[position]?
  let range ← powU32 (tree.modHeight - i)
  let offset ← addU32 proving.offset range
  return ⟨proving.ret ++ [sibling], proving.index / 2, offset⟩

/-- The Merkle proof of the datum at an index, which is cut to a `u32`. -/
def proof (tree : MerkleTree) (index : Nat) : Option (List H256) := do
  let proving ← (List.range tree.modHeight).foldlM (pushSibling tree) ⟨[], index % 2 ^ 32, 0⟩
  return proving.ret

/-- One pass of the loop in `verify`, on the variables `cur` and `idx`. -/
def verifyStep (state : H256 × Nat) (sibling : H256) : H256 × Nat :=
  (if state.2 % 2 = 0 then crypto.sha256 (state.1.toBytes ++ sibling.toBytes)
    else crypto.sha256 (sibling.toBytes ++ state.1.toBytes), state.2 / 2)

/-- Verify that the datum hash with a vector of proofs produces the Merkle root.
The number of leaves is not looked at. -/
def verify (root datum : H256) (proof : List H256) (index _leafSize : Nat) : Bool :=
  decide (root = (proof.foldl (verifyStep crypto) (datum, index)).1)

@[simp]
theorem new_singleton {α : Type*} (hash : α → H256) (datum : α) :
    new crypto hash [datum] = some ⟨[hash datum], 0⟩ := by
  simp [new, powU32, leaf]

end MerkleTree

end SimplifiedPrism
