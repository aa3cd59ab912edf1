import Mathlib.Data.Set.Function
import Mathlib.Tactic.Ring

/-!
# Perfect binary trees of hashes

A perfect tree has its height in its type and hashes at its leaves; the hash of a
node combines those of its children.  The subtrees over a sequence of leaves are
numbered level by level, as in a flat array.  Climbing from a node along a path of
siblings, by the bits of its index, leads to its ancestor.  Where the function that
combines hashes is injective on what is combined, a climb that ends at a node of the
tree has used the nodes of the tree all the way, and the root of a tree determines
its leaves.
-/

/-- A perfect binary tree of a given height. -/
inductive PerfectTree (Hash : Type*) : Nat → Type _
  | leaf (hash : Hash) : PerfectTree Hash 0
  | node {height : Nat} (left right : PerfectTree Hash height) : PerfectTree Hash (height + 1)

namespace PerfectTree

variable {Hash : Type*}

/-- The leaves from left to right. -/
def leaves {height : Nat} : PerfectTree Hash height → List Hash
  | .leaf hash => [hash]
  | .node left right => left.leaves ++ right.leaves

/-- The hash of the root. -/
def root (combine : Hash → Hash → Hash) {height : Nat} : PerfectTree Hash height → Hash
  | .leaf hash => hash
  | .node left right => combine (left.root combine) (right.root combine)

/-- The pairs of hashes that are combined. -/
def pairs (combine : Hash → Hash → Hash) {height : Nat} :
    PerfectTree Hash height → List (Hash × Hash)
  | .leaf _ => []
  | .node left right =>
      (left.root combine, right.root combine) :: (left.pairs combine ++ right.pairs combine)

@[simp]
theorem length_leaves {height : Nat} (tree : PerfectTree Hash height) :
    tree.leaves.length = 2 ^ height := by
  induction tree with
  | leaf hash => rfl
  | node left right ihLeft ihRight =>
      rw [leaves, List.length_append, ihLeft, ihRight, Nat.pow_succ]
      omega

/-! ## Powers of two -/

theorem two_pow_sub {height lower : Nat} (below : lower < height) :
    2 ^ (height - lower) = 2 * 2 ^ (height - (lower + 1)) := by
  rw [← Nat.pow_succ']
  congr 1
  omega

theorem div_two_pow_lt {index step count : Nat} (bound : step ≤ count)
    (inside : index < 2 ^ count) : index / 2 ^ step < 2 ^ (count - step) := by
  rw [Nat.div_lt_iff_lt_mul (Nat.two_pow_pos _), ← Nat.pow_add, Nat.sub_add_cancel bound]
  exact inside

/-! ## Levels -/

section Levels

variable (combine : Hash → Hash → Hash) (hashes : Nat → Hash)

/-- The subtrees over a sequence of leaves: `index` counts those of the same height. -/
def subtree : (height index : Nat) → PerfectTree Hash height
  | 0, index => .leaf (hashes index)
  | height + 1, index => .node (subtree height (2 * index)) (subtree height (2 * index + 1))

/-- The nodes of a level: the roots of the subtrees of that height. -/
def level (height index : Nat) : Hash :=
  (subtree hashes height index).root combine

@[simp]
theorem level_zero (index : Nat) : level combine hashes 0 index = hashes index :=
  rfl

theorem level_succ (height index : Nat) :
    level combine hashes (height + 1) index =
      combine (level combine hashes height (2 * index))
        (level combine hashes height (2 * index + 1)) :=
  rfl

theorem leaves_subtree (height index : Nat) :
    (subtree hashes height index).leaves =
      (List.range (2 ^ height)).map fun i => hashes (index * 2 ^ height + i) := by
  induction height generalizing index with
  | zero => simp [subtree, leaves]
  | succ height ih =>
      rw [subtree, leaves, ih, ih, Nat.pow_succ, Nat.mul_two, List.range_add, List.map_append,
        List.map_map]
      congr 1
      · apply List.map_congr_left
        intro i _
        congr 1
        ring
      · apply List.map_congr_left
        intro i _
        simp only [Function.comp_apply]
        congr 1
        ring

theorem mem_pairs_subtree {height index : Nat} {pair : Hash × Hash}
    (member : pair ∈ (subtree hashes height index).pairs combine) :
    ∃ lower < height, ∃ i < (index + 1) * 2 ^ (height - (lower + 1)),
      pair = (level combine hashes lower (2 * i), level combine hashes lower (2 * i + 1)) := by
  induction height generalizing index with
  | zero => cases member
  | succ height ih =>
      have widen : ∀ child ≤ 2 * index + 1, ∀ lower < height,
          (child + 1) * 2 ^ (height - (lower + 1)) ≤
            (index + 1) * 2 ^ (height + 1 - (lower + 1)) := by
        intro child bound lower below
        have twice : 2 ^ (height + 1 - (lower + 1)) = 2 * 2 ^ (height - (lower + 1)) := by
          rw [Nat.add_sub_add_right, two_pow_sub below]
        rw [twice, ← Nat.mul_assoc]
        exact Nat.mul_le_mul_right _ (by omega)
      rw [subtree, pairs, List.mem_cons, List.mem_append] at member
      rcases member with rfl | left | right
      · exact ⟨height, by omega, index, by simp, rfl⟩
      · obtain ⟨lower, below, i, bound, rfl⟩ := ih left
        exact ⟨lower, by omega, i, lt_of_lt_of_le bound (widen _ (by omega) lower below), rfl⟩
      · obtain ⟨lower, below, i, bound, rfl⟩ := ih right
        exact ⟨lower, by omega, i, lt_of_lt_of_le bound (widen _ (by omega) lower below), rfl⟩

end Levels

/-! ## The flat array -/

/-- Where a level of a tree starts in the flat array of all its nodes. -/
def start (height lower : Nat) : Nat :=
  2 ^ (height + 1) - 2 ^ (height + 1 - lower)

@[simp]
theorem start_zero (height : Nat) : start height 0 = 0 := by
  simp [start]

theorem start_succ {height lower : Nat} (bound : lower ≤ height) :
    start height (lower + 1) = start height lower + 2 ^ (height - lower) := by
  have twice : 2 ^ (height + 1 - lower) = 2 * 2 ^ (height - lower) := by
    rw [two_pow_sub (show lower < height + 1 by omega), Nat.add_sub_add_right]
  have below : 2 ^ (height + 1 - lower) ≤ 2 ^ (height + 1) :=
    Nat.pow_le_pow_right (by omega) (by omega)
  rw [start, start, Nat.add_sub_add_right, twice]
  omega

theorem start_lt {height lower : Nat} : start height lower < 2 ^ (height + 1) := by
  have positive : 0 < 2 ^ (height + 1 - lower) := Nat.two_pow_pos _
  have positiveToo : 0 < 2 ^ (height + 1) := Nat.two_pow_pos _
  rw [start]
  omega

theorem exists_start {height lower : Nat} (bound : lower ≤ height) :
    ∃ half, start height lower = 2 * half := by
  refine ⟨2 ^ height - 2 ^ (height - lower), ?_⟩
  have one : height + 1 - lower = height - lower + 1 := by omega
  rw [start, one, Nat.pow_succ', Nat.pow_succ', ← Nat.mul_sub]

section Flat

variable (combine : Hash → Hash → Hash) (hashes : Nat → Hash)

/-- The nodes of a level in order. -/
def levelNodes (height lower : Nat) : List Hash :=
  (List.range (2 ^ (height - lower))).map (level combine hashes lower)

/-- The nodes of the levels up to `top`, one level after the other. -/
def flat (height : Nat) : Nat → List Hash
  | 0 => levelNodes combine hashes height 0
  | top + 1 => flat height top ++ levelNodes combine hashes height (top + 1)

@[simp]
theorem length_levelNodes (height lower : Nat) :
    (levelNodes combine hashes height lower).length = 2 ^ (height - lower) := by
  simp [levelNodes]

theorem length_flat {height top : Nat} (bound : top ≤ height) :
    (flat combine hashes height top).length = start height (top + 1) := by
  induction top with
  | zero => rw [flat, length_levelNodes, start_succ bound, start_zero, Nat.zero_add]
  | succ top ih =>
      rw [flat, List.length_append, ih (by omega), length_levelNodes, start_succ bound]

theorem getElem?_flat {height top lower i : Nat} (below : lower ≤ top) (bound : top ≤ height)
    (inside : i < 2 ^ (height - lower)) :
    (flat combine hashes height top)[start height lower + i]? =
      some (level combine hashes lower i) := by
  have found : (levelNodes combine hashes height lower)[i]? =
      some (level combine hashes lower i) := by
    simp [levelNodes, inside]
  induction top with
  | zero =>
      obtain rfl : lower = 0 := by omega
      rw [flat, start_zero, Nat.zero_add, found]
  | succ top ih =>
      have length := length_flat combine hashes (show top ≤ height by omega)
      rw [flat]
      by_cases last : lower = top + 1
      · subst last
        rw [List.getElem?_append_right (by omega), length, Nat.add_sub_cancel_left, found]
      · have within : start height lower + i < start height (top + 1) := by
          have next := start_succ (show lower ≤ height by omega)
          have later : start height (lower + 1) ≤ start height (top + 1) := by
            rw [start, start]
            have smaller : 2 ^ (height + 1 - (top + 1)) ≤ 2 ^ (height + 1 - (lower + 1)) :=
              Nat.pow_le_pow_right (by omega) (by omega)
            omega
          omega
        rw [List.getElem?_append_left (by omega)]
        exact ih (by omega) (by omega)

theorem getLast?_flat (height : Nat) :
    (flat combine hashes height height).getLast? = some (level combine hashes height 0) := by
  have length := length_flat combine hashes (le_refl height)
  rw [start_succ (le_refl height), Nat.sub_self, Nat.pow_zero] at length
  have found := getElem?_flat combine hashes (le_refl height) (le_refl height)
    (show 0 < 2 ^ (height - height) by simp)
  rw [List.getLast?_eq_getElem?, length, Nat.add_sub_cancel]
  exact found

end Flat

/-! ## Climbing -/

section Climbing

variable (combine : Hash → Hash → Hash) (hashes : Nat → Hash)

/-- The index of the other child of the same parent. -/
def sibling (index : Nat) : Nat :=
  if index % 2 = 0 then index + 1 else index - 1

/-- A node and its sibling in their order, by the index of the node. -/
def join (index : Nat) (bottom other : Hash) : Hash × Hash :=
  if index % 2 = 0 then (bottom, other) else (other, bottom)

/-- Combine a node with its sibling, the result with the next sibling, and so on. -/
def climb : Hash → List Hash → Nat → Hash
  | bottom, [], _ => bottom
  | bottom, other :: path, index =>
      climb (combine (join index bottom other).1 (join index bottom other).2) path (index / 2)

/-- The pairs that a climb combines. -/
def climbed : Hash → List Hash → Nat → List (Hash × Hash)
  | _, [], _ => []
  | bottom, other :: path, index =>
      join index bottom other ::
        climbed (combine (join index bottom other).1 (join index bottom other).2) path (index / 2)

/-- The siblings on the way up from a node, over some levels. -/
def siblings (height index count : Nat) : List Hash :=
  (List.range count).map fun step =>
    level combine hashes (height + step) (sibling (index / 2 ^ step))

@[simp]
theorem length_siblings (height index count : Nat) :
    (siblings combine hashes height index count).length = count := by
  simp [siblings]

theorem siblings_succ (height index count : Nat) :
    siblings combine hashes height index (count + 1) =
      level combine hashes height (sibling index) ::
        siblings combine hashes (height + 1) (index / 2) count := by
  simp [siblings, List.range_succ_eq_map, Function.comp_def, Nat.pow_succ', Nat.add_assoc,
    Nat.add_comm 1, Nat.div_div_eq_div_mul]

theorem siblings_concat (height index count : Nat) :
    siblings combine hashes height index (count + 1) =
      siblings combine hashes height index count ++
        [level combine hashes (height + count) (sibling (index / 2 ^ count))] := by
  simp [siblings, List.range_succ]

theorem join_sibling (height index : Nat) :
    join index (level combine hashes height index)
        (level combine hashes height (sibling index)) =
      (level combine hashes height (2 * (index / 2)),
        level combine hashes height (2 * (index / 2) + 1)) := by
  rcases Nat.mod_two_eq_zero_or_one index with even | odd
  · have whole : 2 * (index / 2) = index := by omega
    simp [join, sibling, even, whole]
  · have whole : 2 * (index / 2) + 1 = index := by omega
    have before : 2 * (index / 2) = index - 1 := by omega
    rw [join, sibling, if_neg (by omega), if_neg (by omega), whole, before]

theorem join_inj {index : Nat} {first second other otherToo : Hash}
    (same : join index first other = join index second otherToo) :
    first = second ∧ other = otherToo := by
  unfold join at same
  split at same
  · cases same
    exact ⟨rfl, rfl⟩
  · cases same
    exact ⟨rfl, rfl⟩

theorem climb_siblings (height index count : Nat) :
    climb combine (level combine hashes height index)
        (siblings combine hashes height index count) index =
      level combine hashes (height + count) (index / 2 ^ count) := by
  induction count generalizing height index with
  | zero => simp [siblings, climb]
  | succ count ih =>
      rw [siblings_succ, climb, join_sibling, ← level_succ combine, ih, Nat.div_div_eq_div_mul,
        ← Nat.pow_succ', Nat.add_assoc, Nat.add_comm 1]

theorem climb_append (bottom : Hash) (first second : List Hash) (index : Nat) :
    climb combine bottom (first ++ second) index =
      climb combine (climb combine bottom first index) second (index / 2 ^ first.length) := by
  induction first generalizing bottom index with
  | nil => simp [climb]
  | cons other first ih =>
      rw [List.cons_append, climb, climb, ih, List.length_cons, Nat.div_div_eq_div_mul,
        ← Nat.pow_succ']

theorem climbed_append (bottom : Hash) (first second : List Hash) (index : Nat) :
    climbed combine bottom (first ++ second) index =
      climbed combine bottom first index ++
        climbed combine (climb combine bottom first index) second (index / 2 ^ first.length) := by
  induction first generalizing bottom index with
  | nil => simp [climb, climbed]
  | cons other first ih =>
      rw [List.cons_append, climbed, climbed, climb, ih, List.length_cons,
        Nat.div_div_eq_div_mul, ← Nat.pow_succ', List.cons_append]

theorem join_mod (index count : Nat) (bottom other : Hash) :
    join (index % 2 ^ (count + 1)) bottom other = join index bottom other := by
  have parity : index % 2 ^ (count + 1) % 2 = index % 2 :=
    Nat.mod_mod_of_dvd _ (Dvd.intro_left _ (Nat.pow_succ ..).symm)
  rw [join, parity, join]

theorem mod_div_two (index count : Nat) : index % 2 ^ (count + 1) / 2 = index / 2 % 2 ^ count := by
  rw [Nat.pow_succ', Nat.mod_mul_right_div_self]

/-- A climb only looks at as many bits of the index as it has steps. -/
theorem climb_mod (bottom : Hash) (path : List Hash) (index : Nat) :
    climb combine bottom path (index % 2 ^ path.length) = climb combine bottom path index := by
  induction path generalizing bottom index with
  | nil => rfl
  | cons other path ih => rw [climb, climb, List.length_cons, mod_div_two, join_mod, ih]

theorem climbed_mod (bottom : Hash) (path : List Hash) (index : Nat) :
    climbed combine bottom path (index % 2 ^ path.length) =
      climbed combine bottom path index := by
  induction path generalizing bottom index with
  | nil => rfl
  | cons other path ih => rw [climbed, climbed, List.length_cons, mod_div_two, join_mod, ih]

/-- The end of a climb of at least one step has been combined. -/
theorem exists_climbed {path : List Hash} (nonempty : path ≠ []) (bottom : Hash) (index : Nat) :
    ∃ pair ∈ climbed combine bottom path index,
      climb combine bottom path index = combine pair.1 pair.2 := by
  induction path generalizing bottom index with
  | nil => exact absurd rfl nonempty
  | cons other path ih =>
      rw [climbed, climb]
      by_cases last : path = []
      · subst last
        exact ⟨_, List.mem_cons_self, rfl⟩
      · obtain ⟨pair, member, ends⟩ := ih last _ _
        exact ⟨pair, List.mem_cons_of_mem _ member, ends⟩

end Climbing

/-! ## Binding -/

section Binding

variable {combine : Hash → Hash → Hash} {hashes : Nat → Hash}

/-- A climb that ends at a node of the tree has started at a node of the tree and has
used its siblings, if nothing else combines to the same. -/
theorem eq_of_climb_eq {involved : Set (Hash × Hash)}
    (injective : Set.InjOn (fun pair => combine pair.1 pair.2) involved)
    {bottom : Hash} {path : List Hash} {height index : Nat}
    (climbing : ∀ pair ∈ climbed combine bottom path index, pair ∈ involved)
    (built : ∀ step < path.length,
      (level combine hashes (height + step) (2 * (index / 2 ^ (step + 1))),
        level combine hashes (height + step) (2 * (index / 2 ^ (step + 1)) + 1)) ∈ involved)
    (ends : climb combine bottom path index =
      level combine hashes (height + path.length) (index / 2 ^ path.length)) :
    bottom = level combine hashes height index ∧
      path = siblings combine hashes height index path.length := by
  induction path generalizing bottom height index with
  | nil =>
      rw [List.length_nil, Nat.pow_zero, Nat.div_one] at ends
      exact ⟨ends, rfl⟩
  | cons other path ih =>
      rw [climbed] at climbing
      rw [climb] at ends
      have parent : combine (join index bottom other).1 (join index bottom other).2 =
            level combine hashes (height + 1) (index / 2) ∧
          path = siblings combine hashes (height + 1) (index / 2) path.length := by
        apply ih (fun pair member => climbing pair (List.mem_cons_of_mem _ member))
        · intro step bound
          have later := built (step + 1) (Nat.succ_lt_succ bound)
          rwa [Nat.pow_succ' (n := step + 1), ← Nat.div_div_eq_div_mul, ← Nat.add_assoc,
            Nat.add_right_comm] at later
        · rw [ends, List.length_cons, Nat.div_div_eq_div_mul, ← Nat.pow_succ', Nat.add_assoc,
            Nat.add_comm 1]
      have lowest := built 0 (Nat.succ_pos _)
      rw [Nat.add_zero, Nat.zero_add, Nat.pow_one] at lowest
      have children := injective (climbing _ List.mem_cons_self) lowest parent.1
      rw [← join_sibling] at children
      obtain ⟨sameBottom, sameOther⟩ := join_inj children
      refine ⟨sameBottom, ?_⟩
      rw [List.length_cons, siblings_succ, ← sameOther, ← parent.2]

section Root

variable {involved : Set (Hash × Hash)} {height index : Nat} {bottom : Hash} {path : List Hash}

/-- A climb to the root that is not longer than the tree is high has started at a node
of the tree and has used its siblings. -/
theorem eq_of_climb_eq_root (injective : Set.InjOn (fun pair => combine pair.1 pair.2) involved)
    (built : ∀ lower < height, ∀ i < 2 ^ (height - (lower + 1)),
      (level combine hashes lower (2 * i), level combine hashes lower (2 * i + 1)) ∈ involved)
    (climbing : ∀ pair ∈ climbed combine bottom path index, pair ∈ involved)
    (short : path.length ≤ height)
    (ends : climb combine bottom path index = level combine hashes height 0) :
    bottom = level combine hashes (height - path.length) (index % 2 ^ path.length) ∧
      path = siblings combine hashes (height - path.length) (index % 2 ^ path.length)
        path.length := by
  have inside : index % 2 ^ path.length < 2 ^ path.length := Nat.mod_lt _ (Nat.two_pow_pos _)
  apply eq_of_climb_eq injective
  · rwa [climbed_mod]
  · intro step bound
    apply built _ (by omega)
    have levels : height - (height - path.length + step + 1) = path.length - (step + 1) := by omega
    rw [levels]
    exact div_two_pow_lt bound inside
  · rw [climb_mod, ends, Nat.div_eq_of_lt inside, Nat.sub_add_cancel short]

/-- A longer climb does not end at the root, if no leaf is combined from others. -/
theorem climb_ne_root (injective : Set.InjOn (fun pair => combine pair.1 pair.2) involved)
    (built : ∀ lower < height, ∀ i < 2 ^ (height - (lower + 1)),
      (level combine hashes lower (2 * i), level combine hashes lower (2 * i + 1)) ∈ involved)
    (apart : ∀ i < 2 ^ height, ∀ pair ∈ involved, hashes i ≠ combine pair.1 pair.2)
    (climbing : ∀ pair ∈ climbed combine bottom path index, pair ∈ involved)
    (bound : index < 2 ^ height) (long : height < path.length) :
    climb combine bottom path index ≠ level combine hashes height 0 := by
  intro ends
  obtain ⟨lowest, rest, rfl, restLength⟩ : ∃ lowest rest, path = lowest ++ rest ∧
      rest.length = height :=
    ⟨path.take (path.length - height), path.drop (path.length - height),
      (List.take_append_drop _ _).symm, by rw [List.length_drop]; omega⟩
  have lowestNonempty : lowest ≠ [] := by
    rintro rfl
    simp [restLength] at long
  have inside : index / 2 ^ lowest.length < 2 ^ height :=
    lt_of_le_of_lt (Nat.div_le_self _ _) bound
  rw [climb_append] at ends
  rw [climbed_append] at climbing
  -- the last steps lead from a leaf to the root, and the first ones to this leaf
  have reached : climb combine bottom lowest index =
      level combine hashes 0 (index / 2 ^ lowest.length) := by
    refine (@eq_of_climb_eq _ combine hashes involved injective _ rest 0 _ ?_ ?_ ?_).1
    · exact fun pair member => climbing pair (List.mem_append_right _ member)
    · intro step below
      rw [Nat.zero_add]
      exact built step (by omega) _ (div_two_pow_lt (by omega) inside)
    · rw [ends, restLength, Nat.div_eq_of_lt inside, Nat.zero_add]
  obtain ⟨pair, member, combined⟩ := exists_climbed combine lowestNonempty bottom index
  exact apart _ inside pair (climbing pair (List.mem_append_left _ member))
    (reached.symm.trans combined)

end Root

/-- Trees with the same root have the same leaves, whatever their heights are, if
nothing else combines to the same and no leaf is combined from others. -/
theorem leaves_eq_of_root_eq {involved : Set (Hash × Hash)}
    (injective : Set.InjOn (fun pair => combine pair.1 pair.2) involved)
    {height otherHeight : Nat} {first : PerfectTree Hash height}
    {second : PerfectTree Hash otherHeight}
    (firstInvolved : ∀ pair ∈ first.pairs combine, pair ∈ involved)
    (secondInvolved : ∀ pair ∈ second.pairs combine, pair ∈ involved)
    (firstApart : ∀ leaf ∈ first.leaves, ∀ pair ∈ involved, leaf ≠ combine pair.1 pair.2)
    (secondApart : ∀ leaf ∈ second.leaves, ∀ pair ∈ involved, leaf ≠ combine pair.1 pair.2)
    (same : first.root combine = second.root combine) : first.leaves = second.leaves := by
  induction first generalizing otherHeight with
  | leaf hash =>
      cases second with
      | leaf other => exact congrArg (fun hash => [hash]) same
      | node left right =>
          have top := secondInvolved _ List.mem_cons_self
          exact absurd same (firstApart hash List.mem_cons_self _ top)
  | node left right ihLeft ihRight =>
      have top := firstInvolved _ List.mem_cons_self
      cases second with
      | leaf other => exact absurd same.symm (secondApart other List.mem_cons_self _ top)
      | node otherLeft otherRight =>
          have children := injective top (secondInvolved _ List.mem_cons_self) same
          rw [Prod.mk.injEq] at children
          simp only [pairs, List.mem_cons, List.mem_append] at firstInvolved secondInvolved
          simp only [leaves, List.mem_append] at firstApart secondApart
          have sameLeft : left.leaves = otherLeft.leaves := by
            apply ihLeft _ _ _ _ children.1
            · exact fun pair member => firstInvolved pair (.inr (.inl member))
            · exact fun pair member => secondInvolved pair (.inr (.inl member))
            · exact fun leaf member => firstApart leaf (.inl member)
            · exact fun leaf member => secondApart leaf (.inl member)
          have sameRight : right.leaves = otherRight.leaves := by
            apply ihRight _ _ _ _ children.2
            · exact fun pair member => firstInvolved pair (.inr (.inr member))
            · exact fun pair member => secondInvolved pair (.inr (.inr member))
            · exact fun leaf member => firstApart leaf (.inr member)
            · exact fun leaf member => secondApart leaf (.inr member)
          rw [leaves, leaves, sameLeft, sameRight]

end Binding

end PerfectTree
