import SimplifiedPrism.EntryPaths

/-!
# Accepted history

Accepting a block that is not in the tree touches none of the entries of the
blocks that are.  The release of orphans does not repeat the test whether a
block is known; this file shows that history stays as it is as long as a known
hash always comes with the block it is known for, and a run in which two orphans
share a header and the second replaces the first.
-/

namespace SimplifiedPrism

variable {crypto : Crypto}

/-- The entries of a block in the maps are derived from those of its parent. -/
structure Derived (crypto : Crypto) (node : Node) (block : ProposerBlock) : Prop where
  height : ∃ parentHeight,
    node.blockchain.heights.lookup block.header.proposerParent = some parentHeight ∧
    node.blockchain.heights.lookup (block.hash crypto) = some (parentHeight + 1)
  references : ∃ parentRef,
    node.txBlockRef.lookup block.header.proposerParent = some parentRef ∧
    node.txBlockRef.lookup (block.hash crypto) =
      some (mergeRef parentRef block.content.proposerContent)
  ledger : ∃ txs parentLedger ledger,
    referenced node.txBlockPool block.content.proposerContent = some txs ∧
    node.globState.lookup block.header.proposerParent = some parentLedger ∧
    applyTransactions crypto parentLedger txs = some ledger ∧
    node.globState.lookup (block.hash crypto) = some ledger

/-- The entries of all blocks but genesis are derived. -/
def Settled (crypto : Crypto) (node : Node) : Prop :=
  ∀ hash block, node.blockchain.blocks.lookup hash = some block →
    block = genesisBlock crypto ∨ Derived crypto node block

/-- Two states of the maps have the same entries at a hash. -/
structure SameEntries (before after : Node) (hash : H256) : Prop where
  blocks : after.blockchain.blocks.lookup hash = before.blockchain.blocks.lookup hash
  heights : after.blockchain.heights.lookup hash = before.blockchain.heights.lookup hash
  globState : after.globState.lookup hash = before.globState.lookup hash
  txBlockRef : after.txBlockRef.lookup hash = before.txBlockRef.lookup hash

theorem SameEntries.refl (node : Node) (hash : H256) : SameEntries node node hash :=
  ⟨rfl, rfl, rfl, rfl⟩

/-- The entries of the blocks in the tree are unchanged. -/
def WriteOnce (before after : Node) : Prop :=
  ∀ hash ∈ before.blockchain.blocks, SameEntries before after hash

section Maps

variable {node after : Node}

/-- Derived entries only depend on the entries of the block and its parent and
on the pool entries it references. -/
theorem Derived.congr {block : ProposerBlock} (derived : Derived crypto node block)
    (same : SameEntries node after (block.hash crypto))
    (sameParent : SameEntries node after block.header.proposerParent)
    (pool : ∀ ref ∈ block.content.proposerContent,
      after.txBlockPool.lookup ref = node.txBlockPool.lookup ref) :
    Derived crypto after block := by
  constructor
  · rw [sameParent.heights, same.heights]
    exact derived.height
  · rw [sameParent.txBlockRef, same.txBlockRef]
    exact derived.references
  · rw [referenced_congr pool, sameParent.globState, same.globState]
    exact derived.ledger

/-- Writing outside of the tree, and transaction blocks that are new, leave the
entries derived. -/
theorem Settled.mono (formed : node.WellFormed crypto) (settled : Settled crypto node)
    (blocks : after.blockchain.blocks = node.blockchain.blocks) (once : WriteOnce node after)
    (pool : ∀ ref ∈ node.txBlockPool, after.txBlockPool.lookup ref = node.txBlockPool.lookup ref) :
    Settled crypto after := by
  intro hash block found
  rw [blocks] at found
  rcases settled hash block found with genesis | derived
  · exact .inl genesis
  rcases formed.chain.parents hash block found with genesis | parent
  · exact .inl genesis
  right
  have own : block.hash crypto ∈ node.blockchain.blocks := by
    rw [formed.chain.stored hash block found]
    exact Finmap.mem_of_lookup_eq_some found
  obtain ⟨txs, _, _, collected, -⟩ := derived.ledger
  apply derived.congr (once _ own) (once _ parent)
  intro ref member
  exact pool ref (mem_pool_of_referenced collected ref member)

theorem settled_of_same (formed : node.WellFormed crypto) (settled : Settled crypto node)
    (blockchain : after.blockchain = node.blockchain) (globState : after.globState = node.globState)
    (txBlockRef : after.txBlockRef = node.txBlockRef)
    (pool : ∀ ref ∈ node.txBlockPool, after.txBlockPool.lookup ref = node.txBlockPool.lookup ref) :
    WriteOnce node after ∧ Settled crypto after := by
  have once : WriteOnce node after := by
    intro hash _
    constructor
    · rw [blockchain]
    · rw [blockchain]
    · rw [globState]
    · rw [txBlockRef]
  exact ⟨once, settled.mono formed (by rw [blockchain]) once pool⟩

theorem settled_of_newRef (formed : node.WellFormed crypto) (settled : Settled crypto node)
    {hash : H256} (newRef : List H256) (new : hash ∉ node.blockchain.blocks) :
    WriteOnce node { node with txBlockRef := node.txBlockRef.insert hash newRef } ∧
      Settled crypto { node with txBlockRef := node.txBlockRef.insert hash newRef } := by
  have once : WriteOnce node { node with txBlockRef := node.txBlockRef.insert hash newRef } := by
    intro other member
    refine ⟨rfl, rfl, rfl, ?_⟩
    rw [HashMap.lookup_insert_ite, if_neg]
    rintro rfl
    exact new member
  exact ⟨once, settled.mono formed rfl once fun _ _ => rfl⟩

section Acceptance

variable {block : ProposerBlock} {parentLedger ledger : Ledger} {txs : List SignedTransaction}

/-- Accepting a new block touches no entry of the tree and derives its own. -/
theorem settled_of_new (formed : node.WellFormed crypto) (settled : Settled crypto node)
    (accepts : Accepts crypto node block parentLedger txs ledger after)
    (new : block.hash crypto ∉ node.blockchain.blocks) :
    WriteOnce node after ∧ Settled crypto after := by
  obtain ⟨parentHeight, height, -, heights, -⟩ := Blockchain.insert_ok accepts.inserted
  obtain ⟨parentRef, reference, txBlockRef⟩ := accepts.txBlockRef
  have once : WriteOnce node after := by
    intro hash member
    have other : hash ≠ block.hash crypto := by
      rintro rfl
      exact new member
    constructor
    · rw [accepts.blocks, HashMap.lookup_insert_ite, if_neg other]
    · rw [heights, HashMap.lookup_insert_ite, if_neg other]
    · rw [accepts.globState, HashMap.lookup_insert_ite, if_neg other]
    · rw [txBlockRef, HashMap.lookup_insert_ite, if_neg other]
  have parent : block.header.proposerParent ∈ node.blockchain.blocks :=
    (formed.chain.heights _).mp (Finmap.mem_of_lookup_eq_some height)
  have sameParent := once _ parent
  refine ⟨once, fun hash stored found => ?_⟩
  rw [accepts.blocks, HashMap.lookup_insert_ite] at found
  split at found
  · cases found
    right
    constructor
    · rw [sameParent.heights, heights, Finmap.lookup_insert]
      exact ⟨parentHeight, height, rfl⟩
    · rw [sameParent.txBlockRef, txBlockRef, Finmap.lookup_insert]
      exact ⟨parentRef, reference, rfl⟩
    · rw [sameParent.globState, accepts.globState, Finmap.lookup_insert, accepts.txBlockPool]
      exact ⟨txs, parentLedger, ledger, accepts.references, accepts.parentState, accepts.applied,
        rfl⟩
  · rcases settled hash stored found with genesis | derived
    · exact .inl genesis
    rcases formed.chain.parents hash stored found with genesis | parent
    · exact .inl genesis
    have own : stored.hash crypto ∈ node.blockchain.blocks := by
      rw [formed.chain.stored hash stored found]
      exact Finmap.mem_of_lookup_eq_some found
    right
    apply derived.congr (once _ own) (once _ parent)
    rw [accepts.txBlockPool]
    exact fun _ _ => rfl

theorem settled_of_again (settled : Settled crypto node)
    (accepts : Accepts crypto node block parentLedger txs ledger after)
    (notGenesis : block ≠ genesisBlock crypto)
    (stored : node.blockchain.blocks.lookup (block.hash crypto) = some block) :
    WriteOnce node after ∧ Settled crypto after := by
  obtain ⟨parentHeight, height, -, heights, -⟩ := Blockchain.insert_ok accepts.inserted
  obtain ⟨parentRef, reference, txBlockRef⟩ := accepts.txBlockRef
  have derived := (settled _ block stored).resolve_left notGenesis
  obtain ⟨storedHeight, parentFound, ownHeight⟩ := derived.height
  obtain ⟨storedRef, refFound, ownRef⟩ := derived.references
  obtain ⟨storedTxs, storedParent, storedLedger, collected, ledgerFound, applied, ownLedger⟩ :=
    derived.ledger
  rw [height, Option.some.injEq] at parentFound
  rw [reference, Option.some.injEq] at refFound
  rw [accepts.references, Option.some.injEq] at collected
  rw [accepts.parentState, Option.some.injEq] at ledgerFound
  subst parentFound refFound collected ledgerFound
  rw [accepts.applied, Option.some.injEq] at applied
  subst applied
  have same : ∀ hash, SameEntries node after hash := by
    intro hash
    constructor
    · rw [accepts.blocks, HashMap.insert_lookup_self stored]
    · rw [heights, HashMap.insert_lookup_self ownHeight]
    · rw [accepts.globState, HashMap.insert_lookup_self ownLedger]
    · rw [txBlockRef, HashMap.insert_lookup_self ownRef]
  refine ⟨fun hash _ => same hash, fun hash other found => ?_⟩
  rw [(same hash).blocks] at found
  rcases settled hash other found with genesis | derived
  · exact .inl genesis
  right
  apply derived.congr (same _) (same _)
  rw [accepts.txBlockPool]
  exact fun _ _ => rfl

end Acceptance

end Maps

/-! ## Runs -/

/-- A block to be accepted under a known hash is the known block, and what the
node mines has a new hash. -/
def NoRewrite (crypto : Crypto) (state : State) (action : Action) : Prop :=
  (∀ block ∈ state.checked crypto action,
    ∀ stored ∈ state.node.blockchain.blocks.lookup (block.hash crypto), stored = block) ∧
  ∀ header ∈ state.minedHeader crypto action,
    header.hash crypto ∉ state.node.blockchain.blocks ∧
      header.hash crypto ∉ state.node.txBlockPool

instance (state : State) (action : Action) : Decidable (NoRewrite crypto state action) :=
  inferInstanceAs (Decidable (_ ∧ _))

/-- No block that waits has the hash of genesis. -/
def NotGenesis (crypto : Crypto) (state : State) : Prop :=
  Pending (fun block => block.hash crypto ≠ genesisHash crypto) state

section Step

variable {before after : State} {action : Action}

/-- A block is only taken in when its hash is unknown, so it never has the hash
of genesis. -/
theorem NotGenesis.step (notGenesis : NotGenesis crypto before)
    (formed : before.WellFormed crypto) (stepped : before.step crypto action = some after) :
    NotGenesis crypto after := by
  apply Pending.step notGenesis formed ?_ stepped
  intro block taken same
  unfold State.received at taken
  split at taken
  · simp only [Option.mem_def, Option.ite_none_right_eq_some, Option.some.injEq] at taken
    obtain ⟨⟨unknown, -⟩, rfl⟩ := taken
    apply unknown
    rw [same]
    exact formed.node.chain.genesis
  · cases taken

theorem AfterIco.notGenesis {initialLedger : Ledger} {state : State}
    (afterIco : AfterIco crypto initialLedger state) : NotGenesis crypto state := by
  obtain ⟨run, rfl⟩ := afterIco.reached
  have invariant := run.invariant
    (fun state => state.WellFormed crypto ∧ NotGenesis crypto state)
    (fun _ initial => ⟨initial.wellFormed, initial.pending⟩)
    (fun _ _ _ ⟨formed, notGenesis⟩ stepped =>
      ⟨(formed.step stepped).1, notGenesis.step formed stepped⟩)
  exact (invariant run.length (le_refl _)).2

theorem NotGenesis.checks {task : Task} {rest : List Task} {block : ProposerBlock}
    (notGenesis : NotGenesis crypto before) (formed : before.WellFormed crypto)
    (next : before.todo = task :: rest) (checks : Checks crypto before.node task block) :
    block ≠ genesisBlock crypto := by
  rintro rfl
  cases checks with
  | received _ unknown _ _ => exact unknown formed.node.chain.genesis
  | orphan _ =>
      apply notGenesis.released (genesisBlock crypto)
      · rw [next]
        exact List.mem_cons_self
      · rfl

private theorem settled_of_ran {task : Task} {rest todo : List Task} {node : Node}
    (formed : before.WellFormed crypto) (published : before.node.Published)
    (notGenesis : NotGenesis crypto before) (settled : Settled crypto before.node)
    (noRewrite : NoRewrite crypto before .work) (next : before.todo = task :: rest)
    (effect : Effect crypto before.node task node todo) :
    WriteOnce before.node node ∧ Settled crypto node := by
  cases effect with
  | skip => exact ⟨fun hash _ => .refl _ hash, settled⟩
  | addr _ _ | transaction _ _ _ _ _ _ _ _ _ _ _ | release _ _ _ =>
      exact settled_of_same formed.node settled rfl rfl rfl fun _ _ => rfl
  | buffer each _ _ _ =>
      rw [bufferOrphan_eq]
      exact settled_of_same formed.node settled rfl rfl rfl fun _ _ => rfl
  | ico _ _ first =>
      have genesis := (published _ formed.node.chain.genesis).1
      rw [first] at genesis
      exact absurd genesis Finmap.notMem_empty
  | transactionBlock each unknown _ _ =>
      refine settled_of_same formed.node settled rfl rfl rfl fun ref member => ?_
      rw [HashMap.lookup_insert_ite, if_neg]
      rintro rfl
      exact unknown member
  | accept _ each _ checks _ applied =>
      obtain ⟨_, _, _, accepts⟩ := accepts_of_apply applied
      by_cases known : each.hash crypto ∈ before.node.blockchain.blocks
      · obtain ⟨stored, found⟩ := HashMap.lookup_of_mem known
        have same := noRewrite.1 each (mem_checked next checks) stored found
        exact settled_of_again settled accepts (notGenesis.checks formed next checks)
          (same ▸ found)
      · exact settled_of_new formed.node settled accepts known

/-- A step that rewrites nothing leaves the entries of the tree alone, and all
entries derived. -/
theorem Settled.step (settled : Settled crypto before.node) (formed : before.WellFormed crypto)
    (published : before.node.Published) (notGenesis : NotGenesis crypto before)
    (noRewrite : NoRewrite crypto before action)
    (stepped : before.stepAfterIco crypto action = some after) :
    WriteOnce before.node after.node ∧ Settled crypto after.node := by
  obtain ⟨original, notIco⟩ := step_of_stepAfterIco stepped
  cases formed.cases original with
  | receive _ _ => exact ⟨fun hash _ => .refl _ hash, settled⟩
  | looked _ _ => exact ⟨fun hash _ => .refl _ hash, settled⟩
  | ico _ => exact absurd rfl notIco
  | generated _ _ _ _ _ _ generated =>
      rw [generated.onlyPool]
      exact settled_of_same formed.node settled rfl rfl rfl fun _ _ => rfl
  | ran _ _ _ _ next effect =>
      exact settled_of_ran formed published notGenesis settled noRewrite next effect
  | panicked task _ _ next failure =>
      have grounded : task.Grounded crypto before.node := formed.grounded next
      rcases failure.node_cases formed.node grounded with
        unchanged | ⟨each, parentRef, checks, found, written⟩
      · rw [unchanged]
        exact ⟨fun hash _ => .refl _ hash, settled⟩
      rw [written]
      by_cases known : each.hash crypto ∈ before.node.blockchain.blocks
      · -- the reference list of a known block is written as it was
        obtain ⟨stored, foundBlock⟩ := HashMap.lookup_of_mem known
        have same := noRewrite.1 each (mem_checked next checks) stored foundBlock
        subst same
        have derived := (settled _ _ foundBlock).resolve_left
          (notGenesis.checks formed next checks)
        obtain ⟨storedRef, refFound, ownRef⟩ := derived.references
        rw [found, Option.some.injEq] at refFound
        subst refFound
        rw [HashMap.insert_lookup_self ownRef]
        exact ⟨fun hash _ => .refl _ hash, settled⟩
      · exact settled_of_newRef formed.node settled _ known
  | mined _ _ _ mined =>
      cases mined with
      | nothing => exact ⟨fun hash _ => .refl _ hash, settled⟩
      | proposer header _ _ _ _ _ _ built _ _ accepts =>
          exact settled_of_new formed.node settled accepts (noRewrite.2 header built).1
      | transaction header _ _ _ built _ _ _ _ _ =>
          refine settled_of_same formed.node settled rfl rfl rfl fun ref member => ?_
          rw [HashMap.lookup_insert_ite, if_neg]
          rintro rfl
          exact (noRewrite.2 header built).2 member
  | minerPanicked _ _ _ failure =>
      cases failure with
      | nothing => exact ⟨fun hash _ => .refl _ hash, settled⟩
      | reference header _ _ _ built _ _ _ _ =>
          exact settled_of_newRef formed.node settled _ (noRewrite.2 header built).1

end Step

section Runs

variable {initialLedger : Ledger}

theorem AfterIco.settled {state : State} (afterIco : AfterIco crypto initialLedger state) :
    Settled crypto state.node := by
  intro hash block found
  rw [afterIco.chain, Blockchain.new, HashMap.lookup_insert_ite] at found
  split at found
  · cases found
    exact .inl rfl
  · simp at found

/-- Accepted history is write-once as long as a known hash always comes with the
block it is known for, and every ledger of the tree is then the result of its
block on the current ledger of the parent. -/
theorem history_of_noRewrite
    (run : Run (State.stepAfterIco crypto) (AfterIco crypto initialLedger))
    (meets : run.Meets (NoRewrite crypto)) :
    (∀ index < run.length, WriteOnce (run.states index).node (run.states (index + 1)).node) ∧
      ∀ index ≤ run.length, ∀ hash block,
        (run.states index).node.blockchain.blocks.lookup hash = some block →
          block = genesisBlock crypto ∨
          ∃ txs parentLedger ledger,
            referenced (run.states index).node.txBlockPool block.content.proposerContent =
              some txs ∧
            (run.states index).node.globState.lookup block.header.proposerParent =
              some parentLedger ∧
            applyTransactions crypto parentLedger txs = some ledger ∧
            (run.states index).node.globState.lookup hash = some ledger := by
  have invariant := run.invariant_of_meets meets
    (fun state => (state.WellFormed crypto ∧ state.node.Published) ∧
      NotGenesis crypto state ∧ Settled crypto state.node)
    (fun _ afterIco =>
      ⟨⟨afterIco.wellFormed, afterIco.published⟩, afterIco.notGenesis, afterIco.settled⟩)
    (fun before action after ⟨⟨formed, published⟩, notGenesis, settled⟩ noRewrite stepped =>
      have original := (step_of_stepAfterIco stepped).1
      ⟨⟨(formed.step original).1, published.mono (formed.publishes original)⟩,
        notGenesis.step formed original,
        (settled.step formed published notGenesis noRewrite stepped).2⟩)
  constructor
  · intro index bound
    obtain ⟨⟨formed, published⟩, notGenesis, settled⟩ := invariant index (by omega)
    exact (settled.step formed published notGenesis (meets index bound) (run.steps index bound)).1
  · intro index bound hash block found
    obtain ⟨⟨formed, -⟩, -, settled⟩ := invariant index bound
    rcases settled hash block found with genesis | derived
    · exact .inl genesis
    · have ledger := derived.ledger
      rw [formed.node.chain.stored hash block found] at ledger
      exact .inr ledger

end Runs

/-- A block without references on top of genesis. -/
def emptyProposal : ProposerBlock :=
  ⟨Header.sample 2 (genesisHash Crypto.sample), ⟨[]⟩⟩

/-- A block on top of the empty one, with references of one's choice: the header
says nothing about them. -/
def childProposal (refs : List H256) : ProposerBlock :=
  ⟨Header.sample 3 (sampleHash 2), ⟨refs⟩⟩

/-- A peer sends a transaction block, then some children, then their parent. -/
def releaseActions (children : List ProposerBlock) : List Action :=
  [.receive (.transactionBlocks [paymentBlock .sample 1000]), .work,
    .receive (.proposerBlocks (children ++ [emptyProposal]))] ++
    children.map (fun _ => .work) ++ [.work, .work] ++ children.flatMap fun _ => [.work, .work]

def releaseRun :
    Run (State.stepAfterIco Crypto.sample) (AfterIco Crypto.sample (icoState [.sample])) :=
  Run.sample (releaseActions [childProposal [sampleHash 0x2001]]) (by decide +kernel)

theorem history_releaseRun :
    WriteOnce (releaseRun.states 6).node (releaseRun.states 7).node := by
  have meets : releaseRun.Meets (NoRewrite Crypto.sample) := by
    change ∀ index < 8, _
    decide +kernel
  exact (history_of_noRewrite releaseRun meets).1 6 (by decide)

def rewriteRun :
    Run (State.stepAfterIco Crypto.sample) (AfterIco Crypto.sample (icoState [.sample])) :=
  Run.sample (releaseActions [childProposal [], childProposal [sampleHash 0x2001]])
    (by decide +kernel)

/-- The second of two orphans with one header replaces the first in the tree,
and the ledger of the tree with it. -/
theorem rewritten_rewriteRun :
    ¬ WriteOnce (rewriteRun.states 9).node (rewriteRun.states 10).node ∧
      (rewriteRun.states 9).node.blockchain.blocks.lookup (sampleHash 3) =
        some (childProposal []) ∧
      (rewriteRun.states 10).node.blockchain.blocks.lookup (sampleHash 3) =
        some (childProposal [sampleHash 0x2001]) ∧
      (rewriteRun.states 9).node.globState.lookup (sampleHash 3) ≠
        (rewriteRun.states 10).node.globState.lookup (sampleHash 3) := by
  refine ⟨fun once => ?_, by decide +kernel, by decide +kernel, by decide +kernel⟩
  have kept := (once (sampleHash 3) (by decide +kernel)).blocks
  revert kept
  decide +kernel

end SimplifiedPrism
