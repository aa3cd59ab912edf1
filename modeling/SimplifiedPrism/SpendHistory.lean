import Mathlib.Data.Set.Insert
import Mathlib.Tactic.Common

/-!
# Histories of transactions that spend one outpoint each

A transaction spends one outpoint, if it is unspent, and creates some others.
Nothing is recorded but the set of unspent outpoints.  When no two transactions
create the same outpoint and none creates an initial one, that is enough: an
outpoint that has been spent never returns.
-/

/-- What is unspent at the start, and what transactions spend and create. -/
structure SpendScheme (Tx Outpoint : Type*) where
  initial : Set Outpoint
  input : Tx → Outpoint
  creates : Tx → Set Outpoint

namespace SpendScheme

variable {Tx Outpoint : Type*} (scheme : SpendScheme Tx Outpoint)

open Classical in
/-- Apply a transaction, which has no effect when its input is not unspent. -/
noncomputable def spend (unspent : Set Outpoint) (tx : Tx) : Set Outpoint :=
  if scheme.input tx ∈ unspent then
    (unspent ∪ scheme.creates tx) \ {scheme.input tx}
  else
    unspent

/-- The outpoints that are unspent after a list of transactions. -/
noncomputable def unspent (history : List Tx) : Set Outpoint :=
  history.foldl scheme.spend scheme.initial

/-- Every outpoint has at most one origin. -/
structure Fresh (txs : Set Tx) : Prop where
  notInitial : ∀ tx ∈ txs, ∀ outpoint ∈ scheme.creates tx, outpoint ∉ scheme.initial
  unique : ∀ tx ∈ txs, ∀ other ∈ txs, ∀ outpoint,
    outpoint ∈ scheme.creates tx → outpoint ∈ scheme.creates other → tx = other

/-- The transactions that had an effect account for the unspent outpoints: those
that have an origin and have not been spent. -/
structure Accounts (spenders : Set Tx) (unspent : Set Outpoint) : Prop where
  unspent_iff : ∀ outpoint, outpoint ∈ unspent ↔
    (outpoint ∈ scheme.initial ∨ ∃ tx ∈ spenders, outpoint ∈ scheme.creates tx) ∧
      ∀ tx ∈ spenders, scheme.input tx ≠ outpoint
  sourced : ∀ tx ∈ spenders, scheme.input tx ∈ scheme.initial ∨
    ∃ other ∈ spenders, scheme.input tx ∈ scheme.creates other

variable {scheme}

theorem Accounts.initial : scheme.Accounts ∅ scheme.initial := by
  constructor
  · simp
  · simp

section Step

variable {txs spenders : Set Tx} {unspent : Set Outpoint} {tx : Tx}

/-- A transaction whose input is unspent has had no effect before. -/
theorem Accounts.notMem (accounts : scheme.Accounts spenders unspent)
    (present : scheme.input tx ∈ unspent) : tx ∉ spenders := by
  intro member
  exact ((accounts.unspent_iff _).mp present).2 tx member rfl

theorem Accounts.creates_notMem (fresh : scheme.Fresh txs) (known : spenders ⊆ txs)
    (member : tx ∈ txs) (accounts : scheme.Accounts spenders unspent)
    (present : scheme.input tx ∈ unspent) {outpoint : Outpoint}
    (created : outpoint ∈ scheme.creates tx) : outpoint ∉ unspent := by
  intro already
  rcases ((accounts.unspent_iff _).mp already).1 with initial | ⟨other, spent, origin⟩
  · exact fresh.notInitial tx member outpoint created initial
  · have same := fresh.unique tx member other (known spent) outpoint created origin
    exact accounts.notMem present (same ▸ spent)

/-- The step: a transaction with an effect joins the spenders. -/
theorem Accounts.spend (fresh : scheme.Fresh txs) (known : spenders ⊆ txs)
    (member : tx ∈ txs) (accounts : scheme.Accounts spenders unspent)
    (present : scheme.input tx ∈ unspent) :
    scheme.Accounts (insert tx spenders) ((unspent ∪ scheme.creates tx) \ {scheme.input tx}) := by
  have source := ((accounts.unspent_iff _).mp present).1
  constructor
  · intro outpoint
    simp only [Set.mem_sdiff, Set.mem_union, Set.mem_singleton_iff, Set.mem_insert_iff,
      forall_eq_or_imp, exists_eq_or_imp, accounts.unspent_iff]
    constructor
    · rintro ⟨(⟨origin, unspentBefore⟩ | created), notInput⟩
      · refine ⟨?_, fun same => notInput same.symm, unspentBefore⟩
        rcases origin with initial | earlier
        · exact .inl initial
        · exact .inr (.inr earlier)
      · refine ⟨.inr (.inl created), fun same => notInput same.symm, ?_⟩
        -- an earlier spender of a new outpoint would need this transaction as a source
        intro other spent same
        rcases accounts.sourced other spent with initial | ⟨creator, earlier, origin⟩
        · exact fresh.notInitial tx member outpoint created (same ▸ initial)
        · have creator_eq := fresh.unique tx member creator (known earlier) outpoint created
            (same ▸ origin)
          exact accounts.notMem present (creator_eq ▸ earlier)
    · rintro ⟨origin, notInput, unspentBefore⟩
      refine ⟨?_, fun same => notInput same.symm⟩
      rcases origin with initial | created | earlier
      · exact .inl ⟨.inl initial, unspentBefore⟩
      · exact .inr created
      · exact .inl ⟨.inr earlier, unspentBefore⟩
  · intro other spent
    rcases Set.mem_insert_iff.mp spent with rfl | spent
    · rcases source with initial | ⟨creator, earlier, origin⟩
      · exact .inl initial
      · exact .inr ⟨creator, Set.mem_insert_of_mem _ earlier, origin⟩
    · rcases accounts.sourced other spent with initial | ⟨creator, earlier, origin⟩
      · exact .inl initial
      · exact .inr ⟨creator, Set.mem_insert_of_mem _ earlier, origin⟩

end Step

theorem unspent_append (first second : List Tx) :
    scheme.unspent (first ++ second) = second.foldl scheme.spend (scheme.unspent first) :=
  List.foldl_append

theorem unspent_concat (history : List Tx) (tx : Tx) :
    scheme.unspent (history ++ [tx]) = scheme.spend (scheme.unspent history) tx := by
  rw [unspent_append, List.foldl_cons, List.foldl_nil]

section Histories

variable {txs : Set Tx}

/-- Accounts are kept along every history, and spenders are never forgotten. -/
theorem Accounts.run (fresh : scheme.Fresh txs) {spenders : Set Tx} {unspent : Set Outpoint}
    (known : spenders ⊆ txs) (accounts : scheme.Accounts spenders unspent) (history : List Tx)
    (members : ∀ tx ∈ history, tx ∈ txs) :
    ∃ later, spenders ⊆ later ∧ later ⊆ txs ∧
      scheme.Accounts later (history.foldl scheme.spend unspent) := by
  induction history generalizing spenders unspent with
  | nil => exact ⟨spenders, subset_rfl, known, accounts⟩
  | cons tx history ih =>
      have member : tx ∈ txs := members tx (by simp)
      have rest : ∀ other ∈ history, other ∈ txs :=
        fun other inside => members other (by simp [inside])
      rw [List.foldl_cons, SpendScheme.spend]
      split
      · next present =>
          have knownNext : insert tx spenders ⊆ txs := Set.insert_subset member known
          obtain ⟨later, grown, knownLater, kept⟩ :=
            ih knownNext (accounts.spend fresh known member present) rest
          exact ⟨later, (Set.subset_insert _ _).trans grown, knownLater, kept⟩
      · exact ih known accounts rest

theorem accounts_of_history (fresh : scheme.Fresh txs) {history : List Tx}
    (members : ∀ tx ∈ history, tx ∈ txs) :
    ∃ spenders ⊆ txs, scheme.Accounts spenders (scheme.unspent history) := by
  obtain ⟨spenders, -, known, accounts⟩ :=
    Accounts.run fresh (Set.empty_subset txs) Accounts.initial history members
  exact ⟨spenders, known, accounts⟩

theorem creates_notMem_unspent (fresh : scheme.Fresh txs) {history : List Tx} {tx : Tx}
    (members : ∀ tx ∈ history, tx ∈ txs) (member : tx ∈ txs)
    (present : scheme.input tx ∈ scheme.unspent history) {outpoint : Outpoint}
    (created : outpoint ∈ scheme.creates tx) : outpoint ∉ scheme.unspent history := by
  obtain ⟨spenders, known, accounts⟩ := accounts_of_history fresh members
  exact accounts.creates_notMem fresh known member present created

/-- An outpoint that has been spent never returns. -/
theorem notMem_of_spent (fresh : scheme.Fresh txs) {first second : List Tx} {tx : Tx}
    (members : ∀ other ∈ first ++ tx :: second, other ∈ txs)
    (present : scheme.input tx ∈ scheme.unspent first) :
    scheme.input tx ∉ scheme.unspent (first ++ tx :: second) := by
  have member : tx ∈ txs := members tx (by simp)
  have earlier : ∀ other ∈ first, other ∈ txs :=
    fun other inside => members other (by simp [inside])
  obtain ⟨spenders, known, accounts⟩ := accounts_of_history fresh earlier
  obtain ⟨later, grown, -, kept⟩ := (accounts.spend fresh known member present).run fresh
    (Set.insert_subset member known) second fun other inside => members other (by simp [inside])
  rw [unspent_append, List.foldl_cons, SpendScheme.spend, if_pos present]
  intro returned
  exact ((kept.unspent_iff _).mp returned).2 tx (grown (Set.mem_insert _ _)) rfl

end Histories

end SpendScheme
