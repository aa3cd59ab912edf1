import Mathlib.Algebra.BigOperators.Group.Multiset.Defs
import Mathlib.Algebra.Ring.Nat
import Mathlib.Data.Finmap

/-!
# Finite maps with one value type

Mathlib's `Finmap` is a finite map with extensional equality.  This file fixes
the value type, adds the lookup rules that rewrite by a case distinction on the
key, a filter, and the weight of a map: the sum of a measure over its values.
-/

/-- A finite map from keys to values of one type. -/
abbrev HashMap (κ ν : Type*) := Finmap fun _ : κ => ν

namespace HashMap

-- A condition on the value that a lookup finds is decided on that value, also
-- when the values are of a type that could be enumerated.
instance (priority := 2000) {ν : Type*} {p : ν → Prop} [DecidablePred p] (found : Option ν) :
    Decidable (∀ value ∈ found, p value) :=
  Option.decidableForallMem found

variable {κ ν : Type*} [DecidableEq κ]

theorem lookup_insert_ite (map : HashMap κ ν) (key other : κ) (value : ν) :
    (map.insert key value).lookup other =
      if other = key then some value else map.lookup other := by
  by_cases same : other = key
  · subst other
    simp
  · rw [Finmap.lookup_insert_of_ne _ same, if_neg same]

theorem lookup_erase_ite (map : HashMap κ ν) (key other : κ) :
    (map.erase key).lookup other =
      if other = key then none else map.lookup other := by
  by_cases same : other = key
  · subst other
    simp
  · rw [Finmap.lookup_erase_ne same, if_neg same]

theorem lookup_of_mem {map : HashMap κ ν} {key : κ} (member : key ∈ map) :
    ∃ value, map.lookup key = some value :=
  Finmap.mem_iff.mp member

theorem insert_lookup_self {map : HashMap κ ν} {key : κ} {value : ν}
    (stored : map.lookup key = some value) :
    map.insert key value = map := by
  apply Finmap.ext_lookup
  intro other
  rw [lookup_insert_ite]
  split
  · next same => rw [same, stored]
  · rfl

theorem ext_of_mem {map other : HashMap κ ν} (keys : ∀ key, key ∈ map ↔ key ∈ other)
    (agree : ∀ key ∈ map, map.lookup key = other.lookup key) : map = other := by
  apply Finmap.ext_lookup
  intro key
  by_cases member : key ∈ map
  · exact agree key member
  · have absent : key ∉ other := fun inOther => member ((keys key).mpr inOther)
    rw [Finmap.lookup_eq_none.mpr member, Finmap.lookup_eq_none.mpr absent]

theorem forall_lookup_insert {map : HashMap κ ν}
    {good : ν → Prop} (every : ∀ key value, map.lookup key = some value → good value)
    {key : κ} {value : ν} (added : good value) :
    ∀ other stored, (map.insert key value).lookup other = some stored → good stored := by
  intro other stored found
  rw [HashMap.lookup_insert_ite] at found
  split at found
  · cases found
    exact added
  · exact every other stored found

/-! ## Filtering -/

omit [DecidableEq κ] in
private theorem nodupKeys_filter (keep : κ → ν → Bool) (map : HashMap κ ν) :
    (map.entries.filter fun entry => keep entry.1 entry.2).NodupKeys := by
  induction map using Finmap.induction_on with
  | H entries =>
      exact entries.nodupKeys.sublist List.filter_sublist

/-- The entries of a map that pass a test. -/
def filter (keep : κ → ν → Bool) (map : HashMap κ ν) : HashMap κ ν where
  entries := map.entries.filter fun entry => keep entry.1 entry.2
  nodupKeys := nodupKeys_filter keep map

theorem mem_entries_iff (map : HashMap κ ν) (key : κ) (value : ν) :
    (⟨key, value⟩ : Σ _ : κ, ν) ∈ map.entries ↔ map.lookup key = some value := by
  induction map using Finmap.induction_on with
  | H entries =>
      simp only [AList.toFinmap_entries, Multiset.mem_coe, Finmap.lookup_toFinmap]
      exact AList.mem_lookup_iff.symm

theorem lookup_filter_eq_some (keep : κ → ν → Bool) (map : HashMap κ ν)
    (key : κ) (value : ν) :
    (map.filter keep).lookup key = some value ↔
      map.lookup key = some value ∧ keep key value = true := by
  rw [← mem_entries_iff, ← mem_entries_iff]
  exact Multiset.mem_filter

/-! ## Iteration orders -/

/-- A list runs through the keys of a map, each of them once: a possible order
of iteration. -/
def Enumerates (map : HashMap κ ν) (order : List κ) : Prop :=
  (order : Multiset κ) = map.keys.val

instance (map : HashMap κ ν) (order : List κ) : Decidable (map.Enumerates order) :=
  inferInstanceAs (Decidable ((order : Multiset κ) = map.keys.val))

omit [DecidableEq κ] in
theorem Enumerates.nodup {map : HashMap κ ν} {order : List κ}
    (enumerates : map.Enumerates order) : order.Nodup := by
  have nodup := map.keys.nodup
  rw [← enumerates] at nodup
  exact Multiset.coe_nodup.mp nodup

/-! ## The weight of a map -/

/-- The sum of a measure over the values of a map. -/
def weight (measure : ν → Nat) (map : HashMap κ ν) : Nat :=
  (map.entries.map fun entry => measure entry.2).sum

/-- The measure of the value at one key, zero when the key is absent. -/
def weightAt (measure : ν → Nat) (map : HashMap κ ν) (key : κ) : Nat :=
  ((map.lookup key).map measure).getD 0

theorem weightAt_of_lookup {measure : ν → Nat} {map : HashMap κ ν} {key : κ}
    {value : ν} (stored : map.lookup key = some value) :
    map.weightAt measure key = measure value := by
  simp [weightAt, stored]

theorem weightAt_of_notMem {measure : ν → Nat} {map : HashMap κ ν} {key : κ}
    (absent : key ∉ map) : map.weightAt measure key = 0 := by
  simp [weightAt, Finmap.lookup_eq_none.mpr absent]

theorem weight_insert_of_notMem (measure : ν → Nat) {map : HashMap κ ν}
    {key : κ} (value : ν) (absent : key ∉ map) :
    weight measure (map.insert key value) = measure value + map.weight measure := by
  rw [weight, weight, Finmap.entries_insert_of_notMem absent, Multiset.map_cons,
    Multiset.sum_cons]

theorem weight_erase (measure : ν → Nat) (map : HashMap κ ν) (key : κ) :
    weight measure (map.erase key) + map.weightAt measure key =
      map.weight measure := by
  cases found : map.lookup key with
  | none =>
      have absent : key ∉ map := Finmap.lookup_eq_none.mp found
      have unchanged : map.erase key = map := by
        apply Finmap.ext_lookup
        intro other
        rw [lookup_erase_ite]
        split
        · next same => rw [same, found]
        · rfl
      rw [unchanged, weightAt_of_notMem absent, Nat.add_zero]
  | some value =>
      have restored : (map.erase key).insert key value = map := by
        apply Finmap.ext_lookup
        intro other
        rw [lookup_insert_ite, lookup_erase_ite]
        split
        · next same => rw [same, found]
        · rfl
      have absent : key ∉ map.erase key := Finmap.notMem_erase_self
      have added := weight_insert_of_notMem measure value absent
      rw [restored] at added
      rw [weightAt_of_lookup found, added, Nat.add_comm]

theorem weight_insert (measure : ν → Nat) (map : HashMap κ ν) (key : κ) (value : ν) :
    weight measure (map.insert key value) + map.weightAt measure key =
      measure value + map.weight measure := by
  have overwritten : map.insert key value = (map.erase key).insert key value := by
    apply Finmap.ext_lookup
    intro other
    simp only [lookup_insert_ite, lookup_erase_ite]
    split <;> rfl
  have absent : key ∉ map.erase key := Finmap.notMem_erase_self
  have added := weight_insert_of_notMem measure value absent
  have removed := weight_erase measure map key
  rw [overwritten, added]
  omega

/-- A way to iterate over the entries of maps. -/
structure Order (κ ν : Type*) where
  entries : HashMap κ ν → List (Σ _ : κ, ν)
  enumerates : ∀ map, (entries map : Multiset (Σ _ : κ, ν)) = map.entries

/-- Some order of iteration. -/
noncomputable def Order.any (κ ν : Type*) : Order κ ν where
  entries map := map.entries.toList
  enumerates map := map.entries.coe_toList

omit [DecidableEq κ] in
/-- The weight of a map is summed up in any order. -/
theorem Order.sum_entries (order : Order κ ν) (measure : ν → Nat) (map : HashMap κ ν) :
    ((order.entries map).map fun entry => measure entry.2).sum = map.weight measure := by
  rw [weight, ← order.enumerates, Multiset.map_coe, Multiset.sum_coe]

end HashMap
