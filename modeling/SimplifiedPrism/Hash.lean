import Mathlib.Data.List.Induction
import Mathlib.Tactic.Ring

/-!
# Hash values and their order

`H256` and `H160` are byte arrays read as big-endian numbers.  The order on
`H256` is the one the code writes by hand: it compares two 128-bit limbs, the
higher one first.  `H256.cmp_eq` shows that this is the order of the 256-bit
numbers.
-/

namespace SimplifiedPrism

/-- A SHA256 hash. -/
structure H256 where
  bytes : Vector UInt8 32

/-- An address: the first twenty bytes of a hash. -/
structure H160 where
  bytes : Vector UInt8 20

theorem H256.toList_inj {self other : H256} :
    self.bytes.toList = other.bytes.toList ↔ self = other := by
  rw [H256.mk.injEq, Vector.toList_inj]

theorem H160.toList_inj {self other : H160} :
    self.bytes.toList = other.bytes.toList ↔ self = other := by
  rw [H160.mk.injEq, Vector.toList_inj]

-- lists are compared faster than arrays where samples are evaluated
instance : DecidableEq H256 := fun _ _ => decidable_of_iff _ H256.toList_inj

instance : DecidableEq H160 := fun _ _ => decidable_of_iff _ H160.toList_inj

/-- `u128::from_be_bytes`, for a list of any length. -/
def fromBeBytes (bytes : List UInt8) : Nat :=
  bytes.foldl (fun number byte => number * 256 + byte.toNat) 0

private theorem foldl_fromBeBytes (bytes : List UInt8) (number : Nat) :
    bytes.foldl (fun number byte => number * 256 + byte.toNat) number =
      number * 256 ^ bytes.length + fromBeBytes bytes := by
  induction bytes generalizing number with
  | nil => simp [fromBeBytes]
  | cons byte bytes ih =>
      have tail := ih byte.toNat
      rw [fromBeBytes, List.foldl_cons, List.foldl_cons, ih, Nat.zero_mul,
        Nat.zero_add, tail, List.length_cons, Nat.pow_succ]
      ring

theorem fromBeBytes_append (first second : List UInt8) :
    fromBeBytes (first ++ second) =
      fromBeBytes first * 256 ^ second.length + fromBeBytes second := by
  rw [fromBeBytes, List.foldl_append]
  exact foldl_fromBeBytes second _

theorem fromBeBytes_lt (bytes : List UInt8) :
    fromBeBytes bytes < 256 ^ bytes.length := by
  induction bytes using List.reverseRecOn with
  | nil => simp [fromBeBytes]
  | append_singleton bytes byte ih =>
      have small := byte.toNat_lt
      rw [fromBeBytes_append, List.length_append]
      simp only [List.length_singleton, Nat.pow_succ, Nat.pow_zero, Nat.one_mul,
        fromBeBytes, List.foldl_cons, List.foldl_nil, Nat.zero_mul, Nat.zero_add] at ih ⊢
      omega

namespace H256

/-- `H256([0; 32])`. -/
def zero : H256 :=
  ⟨Vector.replicate 32 0⟩

/-- The bytes as they are fed to SHA-256. -/
def toBytes (hash : H256) : List UInt8 :=
  hash.bytes.toList

@[simp]
theorem toBytes_length (hash : H256) : hash.toBytes.length = 32 := by
  simp [toBytes]

/-- The hash as a 256-bit big-endian number. -/
def toNat (hash : H256) : Nat :=
  fromBeBytes hash.toBytes

/-- The first sixteen bytes as a number. -/
def higher (hash : H256) : Nat :=
  fromBeBytes (hash.toBytes.take 16)

/-- The last sixteen bytes as a number. -/
def lower (hash : H256) : Nat :=
  fromBeBytes (hash.toBytes.drop 16)

/-- The order of the code: the higher limbs decide unless they are equal. -/
def cmp (self other : H256) : Ordering :=
  match compare self.higher other.higher with
  | .eq => compare self.lower other.lower
  | higher => higher

theorem toNat_eq_limbs (hash : H256) :
    hash.toNat = hash.higher * 256 ^ 16 + hash.lower := by
  have split := fromBeBytes_append (hash.toBytes.take 16) (hash.toBytes.drop 16)
  rw [List.take_append_drop, List.length_drop, toBytes_length] at split
  exact split

theorem lower_lt (hash : H256) : hash.lower < 256 ^ 16 := by
  have bound := fromBeBytes_lt (hash.toBytes.drop 16)
  rwa [List.length_drop, toBytes_length] at bound

/-- Comparing limb by limb compares the 256-bit numbers. -/
theorem cmp_eq (self other : H256) : self.cmp other = compare self.toNat other.toNat := by
  have selfLower := self.lower_lt
  have otherLower := other.lower_lt
  rw [cmp, toNat_eq_limbs, toNat_eq_limbs]
  rcases Nat.lt_trichotomy self.higher other.higher with less | equal | greater
  · rw [Nat.compare_eq_lt.mpr less]
    exact (Nat.compare_eq_lt.mpr (by omega)).symm
  · rw [Nat.compare_eq_eq.mpr equal, equal]
    rcases Nat.lt_trichotomy self.lower other.lower with less | equal | greater
    · rw [Nat.compare_eq_lt.mpr less, Nat.compare_eq_lt.mpr (by omega)]
    · rw [Nat.compare_eq_eq.mpr equal, Nat.compare_eq_eq.mpr (by omega)]
    · rw [Nat.compare_eq_gt.mpr greater, Nat.compare_eq_gt.mpr (by omega)]
  · rw [Nat.compare_eq_gt.mpr greater]
    exact (Nat.compare_eq_gt.mpr (by omega)).symm

instance : LT H256 where
  lt self other := self.cmp other = .lt

instance : LE H256 where
  le self other := self.cmp other ≠ .gt

instance (self other : H256) : Decidable (self < other) :=
  inferInstanceAs (Decidable (self.cmp other = .lt))

instance (self other : H256) : Decidable (self ≤ other) :=
  inferInstanceAs (Decidable (self.cmp other ≠ .gt))

theorem lt_iff_toNat {self other : H256} : self < other ↔ self.toNat < other.toNat := by
  change self.cmp other = .lt ↔ _
  rw [cmp_eq, Nat.compare_eq_lt]

theorem le_iff_toNat {self other : H256} : self ≤ other ↔ self.toNat ≤ other.toNat := by
  change self.cmp other ≠ .gt ↔ _
  rw [cmp_eq, Nat.compare_ne_gt]

theorem le_of_not_lt {self other : H256} (notLess : ¬ other < self) : self ≤ other := by
  rw [lt_iff_toNat] at notLess
  exact le_iff_toNat.mpr (by omega)

theorem not_lt_of_lt {self other : H256} (less : self < other) : ¬ other < self := by
  rw [lt_iff_toNat] at less ⊢
  omega

theorem le_trans {first second third : H256} (lower : first ≤ second)
    (upper : second ≤ third) : first ≤ third := by
  rw [le_iff_toNat] at *
  omega

theorem le_of_lt {self other : H256} (less : self < other) : self ≤ other := by
  rw [lt_iff_toNat] at less
  exact le_iff_toNat.mpr (by omega)

end H256

/-- The first 32 of some bytes, filled up with another one. -/
def H256.fill (byte : UInt8) (bytes : List UInt8) : H256 :=
  ⟨⟨((bytes ++ List.replicate 32 byte).take 32).toArray, by simp⟩⟩

/-- `H160::from(hash)` keeps the first twenty bytes. -/
def H160.ofH256 (hash : H256) : H160 :=
  ⟨hash.bytes.take 20⟩

end SimplifiedPrism
