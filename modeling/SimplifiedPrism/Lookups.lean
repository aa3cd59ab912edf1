import SimplifiedPrism.Invariants

/-!
# Lookups that can fail

A block with a missing parent is put into a buffer, but a missing transaction
block is looked up by a panicking index.  The reference check reads the pool up
to the first badly signed transaction block; the handler is safe exactly when
all references read until there are in the pool.
-/

namespace SimplifiedPrism

variable {crypto : Crypto}

/-- The references that the signature check reads are in the pool. -/
def ReadPooled (crypto : Crypto) (txBlockPool : HashMap H256 TXBlock) : List H256 → Prop
  | [] => True
  | ref :: refs =>
      ref ∈ txBlockPool ∧
        ∀ txBlock ∈ txBlockPool.lookup ref,
          txBlock.content.transactionContent.all (SignedTransaction.verified crypto) = true →
            ReadPooled crypto txBlockPool refs

instance decidableReadPooled (txBlockPool : HashMap H256 TXBlock) :
    (refs : List H256) → Decidable (ReadPooled crypto txBlockPool refs)
  | [] => isTrue trivial
  | ref :: refs =>
      have := decidableReadPooled txBlockPool refs
      inferInstanceAs (Decidable (ref ∈ txBlockPool ∧
        ∀ txBlock ∈ txBlockPool.lookup ref,
          txBlock.content.transactionContent.all (SignedTransaction.verified crypto) = true →
            ReadPooled crypto txBlockPool refs))

theorem signedCorrectly_isOk {txBlockPool : HashMap H256 TXBlock} {refs : List H256} :
    (∃ valid, signedCorrectly crypto txBlockPool refs = .ok valid) ↔
      ReadPooled crypto txBlockPool refs := by
  induction refs with
  | nil => simp [signedCorrectly, ReadPooled]
  | cons ref refs ih =>
      cases found : txBlockPool.lookup ref with
      | none =>
          have absent : ref ∉ txBlockPool := Finmap.lookup_eq_none.mp found
          simp [signedCorrectly, ReadPooled, found, absent]
      | some txBlock =>
          have present : ref ∈ txBlockPool := Finmap.mem_of_lookup_eq_some found
          by_cases verified :
              txBlock.content.transactionContent.all (SignedTransaction.verified crypto) = true
          · simp only [signedCorrectly, ReadPooled, found, index_some, ok_bind, verified, if_true,
              present, true_and, Option.mem_def, Option.some.injEq, forall_eq', forall_const]
            exact ih
          · have stopped : signedCorrectly crypto txBlockPool (ref :: refs) = .ok false := by
              rw [signedCorrectly, found, index_some, ok_bind, if_neg verified]
              rfl
            refine ⟨fun _ => ⟨present, fun other lookup all => ?_⟩, fun _ => ⟨false, stopped⟩⟩
            rw [found] at lookup
            cases lookup
            exact absurd all verified

theorem readPooled_of_mem {txBlockPool : HashMap H256 TXBlock} {refs : List H256}
    (present : ∀ ref ∈ refs, ref ∈ txBlockPool) : ReadPooled crypto txBlockPool refs := by
  induction refs with
  | nil => trivial
  | cons ref refs ih =>
      exact ⟨present ref List.mem_cons_self,
        fun _ _ _ => ih fun other member => present other (List.mem_cons_of_mem _ member)⟩

theorem panic_of_signedCorrectly {txBlockPool : HashMap H256 TXBlock} {refs : List H256}
    {panic : Panic} (failed : signedCorrectly crypto txBlockPool refs = .error panic) :
    panic = .txBlockPool := by
  induction refs with
  | nil => cases failed
  | cons ref refs ih =>
      rcases bind_eq_error.mp failed with missing | ⟨txBlock, -, failed⟩
      · exact (index_eq_error.mp missing).2
      · split at failed
        · exact ih failed
        · cases failed

variable (crypto) in
/-- The panic that a worker step ends in. -/
def State.panics (state : State) (action : Action) : Option Panic :=
  match action, state.todo with
  | .work, task :: _ =>
      match runTask crypto state.node task with
      | .ok _ => none
      | .error panicked => some panicked.panic
  | _, _ => none

/-- A step looks up no hash that is missing from one of the maps it reads, and
accepts no block with a missing reference. -/
structure SafeLookups (crypto : Crypto) (before : State) (action : Action) (after : State) :
    Prop where
  present : ∀ panic ∈ before.panics crypto action,
    panic ≠ .txBlockPool ∧ panic ≠ .txBlockRef ∧ panic ≠ .globState
  references : ∀ block, WorkerAccepts crypto before action block after →
    ∀ ref ∈ block.content.proposerContent, ref ∈ after.node.txBlockPool

/-- The block that a step checks finds the references that are read. -/
def ReferencesRead (crypto : Crypto) (state : State) (action : Action) : Prop :=
  ∀ block ∈ state.checked crypto action,
    ReadPooled crypto state.node.txBlockPool block.content.proposerContent

section Step

variable {before after : State} {action : Action}

/-- A worker step that panics runs a task that fails. -/
theorem failure_of_panics {panic : Panic} (panics : before.panics crypto action = some panic) :
    ∃ task rest panicked, action = .work ∧ before.todo = task :: rest ∧
      panicked.panic = panic ∧ Failure crypto before.node task panicked := by
  unfold State.panics at panics
  split at panics
  · next task rest next =>
      split at panics
      · cases panics
      · next panicked ran =>
          rw [Option.some.injEq] at panics
          exact ⟨task, rest, panicked, rfl, next, panics, failure_of_run ran⟩
  · cases panics

/-- With the references that are read in the pool, only a vector can be indexed
out of range. -/
theorem safe_of_read (formed : before.WellFormed crypto) (published : before.node.Published)
    (read : ReferencesRead crypto before action) : SafeLookups crypto before action after := by
  constructor
  · intro panic panics
    obtain ⟨task, rest, panicked, rfl, next, rfl, failure⟩ := failure_of_panics panics
    have grounded : task.Grounded crypto before.node := formed.grounded next
    have vector : panicked.panic = .vector := by
      cases failure with
      | transaction tip each panic cause =>
          rcases cause with vector | ⟨-, missing⟩
          · exact vector
          · exact absurd (published tip grounded).1 missing
      | signature _ each panic checks failed =>
          obtain ⟨valid, passed⟩ := signedCorrectly_isOk.mpr (read each (mem_checked next checks))
          rw [passed] at failed
          cases failed
      | apply _ each _ checks signed failed =>
          obtain ⟨txs, collected, -⟩ := signedCorrectly_eq_true.mp signed
          have ready := published.parentReady formed.node (checks.parent_mem grounded)
          exact panic_of_apply_error ready collected failed
    rw [vector]
    decide
  · intro block accepted ref member
    obtain ⟨_, _, _, accepts⟩ := accepts_of_apply accepted.applied
    rw [accepts.txBlockPool]
    exact mem_pool_of_referenced accepts.references ref member

/-- A reference that is read and missing makes the handler panic. -/
theorem read_of_safe (safe : SafeLookups crypto before action after) :
    ReferencesRead crypto before action := by
  intro block checked
  by_contra unread
  unfold State.checked at checked
  split at checked
  · next task rest next =>
      have failed : ∃ panic,
          signedCorrectly crypto before.node.txBlockPool block.content.proposerContent =
            .error panic := by
        cases passed :
            signedCorrectly crypto before.node.txBlockPool block.content.proposerContent with
        | error panic => exact ⟨panic, rfl⟩
        | ok valid => exact absurd (signedCorrectly_isOk.mp ⟨valid, passed⟩) unread
      obtain ⟨panic, failed⟩ := failed
      have missing := panic_of_signedCorrectly failed
      subst missing
      have ran : runTask crypto before.node task = .error ⟨.txBlockPool, before.node⟩ := by
        cases checks_iff.mpr checked with
        | received _ unknown work parentKnown =>
            simp [runTask, handleProposerBlock, unknown, work, parentKnown, acceptProposerBlock,
              failed]
        | orphan _ => simp [runTask, handleOrphan, acceptProposerBlock, failed]
      exact (safe.present .txBlockPool (by simp [State.panics, next, ran])).1 rfl
  · cases checked

end Step

/-- In a run after the offering no lookup of the block handling fails, and every
accepted block has its references in the pool, exactly when at every signature
check the references that are read are in the pool. -/
theorem safeLookups_iff {initialLedger : Ledger}
    (run : Run (State.stepAfterIco crypto) (AfterIco crypto initialLedger)) :
    (∀ index < run.length,
      SafeLookups crypto (run.states index) (run.actions index) (run.states (index + 1))) ↔
      run.Meets (ReferencesRead crypto) := by
  constructor
  · intro safe index bound
    exact read_of_safe (safe index bound)
  · intro meets index bound
    obtain ⟨formed, published⟩ := published_of_run run index (by omega)
    exact safe_of_read formed published (meets index bound)

/-- A peer sends a proposer block before the transaction block it refers to. -/
def earlyRun :
    Run (State.stepAfterIco Crypto.sample) (AfterIco Crypto.sample (icoState [.sample])) :=
  Run.sample [.receive (.proposerBlocks [paymentProposal]), .work] (by decide +kernel)

/-- The handler looks up a transaction block that is missing from the pool. -/
theorem panics_earlyRun :
    (earlyRun.states 1).panics Crypto.sample (earlyRun.actions 1) = some .txBlockPool := by
  decide +kernel

end SimplifiedPrism
