import Mathlib.Data.Set.Function
import Mathlib.Tactic.Common

/-!
# Values derived along a tree

Blocks have a key and name the key of their parent.  From the root downwards every
block derives a value from that of its parent.  Which value that is depends on the
blocks alone, and as long as a key stands for one block there is at most one.
-/

/-- How blocks hang together: what a block is kept under and what it is put on top
of, and where the tree begins. -/
structure Parenting (Block Key : Type*) where
  key : Block → Key
  parent : Block → Key
  root : Key

namespace Parenting

variable {Block Key Value : Type*} (tree : Parenting Block Key)

/-- A key stands for one block, and no block is the parent of the one at the root. -/
structure Separated (blocks : Set Block) : Prop where
  injective : Set.InjOn tree.key blocks
  topmost : ∀ block ∈ blocks, tree.key block = tree.root →
    tree.parent block ≠ tree.root ∧ ∀ other ∈ blocks, tree.key other ≠ tree.parent block

/-- The values that blocks derive for keys. -/
inductive Derives (blocks : Set Block) (base : Value) (extend : Block → Value → Value → Prop) :
    Key → Value → Prop
  | root : Derives blocks base extend tree.root base
  | child {block : Block} {value next : Value} (member : block ∈ blocks)
      (parent : Derives blocks base extend (tree.parent block) value)
      (extended : extend block value next) : Derives blocks base extend (tree.key block) next

variable {tree} {blocks : Set Block} {base : Value} {extend : Block → Value → Value → Prop}
variable {key : Key} {value other : Value} {block : Block}

theorem Derives.cases_key (derives : tree.Derives blocks base extend key value) :
    key = tree.root ∧ value = base ∨ ∃ block ∈ blocks, tree.key block = key ∧ ∃ before,
      tree.Derives blocks base extend (tree.parent block) before ∧ extend block before value := by
  cases derives with
  | root => exact .inl ⟨rfl, rfl⟩
  | @child block before _ member parent extended =>
      exact .inr ⟨block, member, rfl, before, parent, extended⟩

theorem Derives.key_ne_root (separated : tree.Separated blocks) (member : block ∈ blocks)
    (parent : tree.Derives blocks base extend (tree.parent block) value) :
    tree.key block ≠ tree.root := by
  intro atRoot
  obtain ⟨notRoot, noParent⟩ := separated.topmost block member atRoot
  rcases parent.cases_key with ⟨same, -⟩ | ⟨other, otherMember, same, -⟩
  · exact notRoot same
  · exact noParent other otherMember same

theorem Derives.of_block (separated : tree.Separated blocks) (member : block ∈ blocks)
    (notRoot : tree.key block ≠ tree.root)
    (derives : tree.Derives blocks base extend (tree.key block) value) :
    ∃ before, tree.Derives blocks base extend (tree.parent block) before ∧
      extend block before value := by
  rcases derives.cases_key with ⟨atRoot, -⟩ | ⟨stored, storedMember, same, derived⟩
  · exact absurd atRoot notRoot
  · have sameBlock : stored = block := separated.injective storedMember member same
    exact sameBlock ▸ derived

/-- The blocks derive at most one value for a key. -/
theorem Derives.unique (separated : tree.Separated blocks)
    (functional : ∀ block ∈ blocks, ∀ before first second,
      extend block before first → extend block before second → first = second)
    (derives : tree.Derives blocks base extend key value)
    (again : tree.Derives blocks base extend key other) : value = other := by
  induction derives generalizing other with
  | root =>
      rcases again.cases_key with ⟨-, same⟩ | ⟨block, member, atRoot, before, parent, -⟩
      · exact same.symm
      · exact absurd atRoot (parent.key_ne_root separated member)
  | @child block before next member parent extended ih =>
      obtain ⟨beforeAgain, parentAgain, extendedAgain⟩ :=
        again.of_block separated member (parent.key_ne_root separated member)
      rw [← ih parentAgain] at extendedAgain
      exact functional block member before next other extended extendedAgain

end Parenting
