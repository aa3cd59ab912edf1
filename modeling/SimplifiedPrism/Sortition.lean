import SimplifiedPrism.Invariants

/-!
# Sortition by the miner and by the worker

The hash of a header decides whether it belongs to a proposer block or to a
transaction block.  The miner and the worker decide it by separate comparisons
with the thresholds of the header, two of the miner and one of the worker for
proposer blocks, and two for transaction blocks.  This file compares them, for
all 256-bit values of the hash.
-/

namespace SimplifiedPrism

variable {crypto : Crypto}

/-! ## The checks of the worker -/

section Checks

variable (crypto) (header : Header)

/-- The worker goes on with a proposer block that has the header and is new. -/
def PassesProposer : Prop :=
  ∀ (node : Node) (block : ProposerBlock), block.header = header →
    block.hash crypto ∉ node.blockchain.blocks →
    handleProposerBlock crypto node block =
      if header.proposerParent ∈ node.blockchain.blocks then
        acceptProposerBlock crypto node block
      else
        .ok { node := bufferOrphan node block
              sent := [.write (.getProposerBlocks [header.proposerParent])] }

/-- The worker drops every proposer block that has the header. -/
def FailsProposer : Prop :=
  ∀ (node : Node) (block : ProposerBlock), block.header = header →
    handleProposerBlock crypto node block = .ok { node }

/-- The worker takes a transaction block that has the header and is new. -/
def PassesTransaction : Prop :=
  ∀ (node : Node) (block : TXBlock), block.header = header →
    block.hash crypto ∉ node.txBlockPool →
    (handleTransactionBlock crypto node block).node.txBlockPool.lookup (block.hash crypto) =
      some block

/-- The worker drops every transaction block that has the header. -/
def FailsTransaction : Prop :=
  ∀ (node : Node) (block : TXBlock), block.header = header →
    handleTransactionBlock crypto node block = { node }

end Checks

section Thresholds

variable {header : Header}

theorem passesProposer_of_le (won : header.hash crypto ≤ header.proposerDifficulty) :
    PassesProposer crypto header := by
  rintro node block rfl unknown
  have work : ¬ block.hash crypto > block.header.proposerDifficulty := by
    rw [gt_iff_lt, H256.lt_iff_toNat, ProposerBlock.hash]
    rw [H256.le_iff_toNat] at won
    omega
  rw [handleProposerBlock, if_neg unknown, if_neg work, ite_not]

theorem failsProposer_of_lt (lost : header.proposerDifficulty < header.hash crypto) :
    FailsProposer crypto header := by
  rintro node block rfl
  have work : block.hash crypto > block.header.proposerDifficulty := lost
  rw [handleProposerBlock, if_pos work, ite_self]

theorem passesTransaction_of_between (lost : header.proposerDifficulty < header.hash crypto)
    (won : header.hash crypto ≤ header.transactionDifficulty) :
    PassesTransaction crypto header := by
  rintro node block rfl unknown
  have work : ¬ block.hash crypto > block.header.transactionDifficulty := by
    rw [gt_iff_lt, H256.lt_iff_toNat, TXBlock.hash]
    rw [H256.le_iff_toNat] at won
    omega
  have notProposer : ¬ block.hash crypto ≤ block.header.proposerDifficulty := by
    rw [H256.le_iff_toNat, TXBlock.hash]
    rw [H256.lt_iff_toNat] at lost
    omega
  rw [handleTransactionBlock, if_neg unknown, if_neg work, if_neg notProposer]
  exact Finmap.lookup_insert _

theorem failsTransaction_of_le (won : header.hash crypto ≤ header.proposerDifficulty) :
    FailsTransaction crypto header := by
  rintro node block rfl
  have proposer : block.hash crypto ≤ block.header.proposerDifficulty := won
  rw [handleTransactionBlock, if_pos proposer, ite_self, ite_self]

/-- No transaction block is both dropped and taken. -/
theorem not_passes_of_fails (fails : FailsTransaction crypto header) :
    ¬ PassesTransaction crypto header := by
  intro passes
  have taken := passes ⟨.new crypto, ∅, ∅, ∅, [], ∅, ∅, ∅⟩ ⟨header, ⟨[]⟩⟩ rfl Finmap.notMem_empty
  rw [fails _ _ rfl] at taken
  simp at taken

end Thresholds

/-! ## The decisions of the miner -/

/-- An iteration of the miner announces the header as that of a proposer block. -/
def TurnsProposer (crypto : Crypto) (ran : Except Panicked Progress) (header : Header) : Prop :=
  ∃ progress, ran = .ok progress ∧
    progress.sent = [.broadcast (.newProposerBlockHashes [header.hash crypto])]

/-- An iteration of the miner announces the header as that of a transaction
block. -/
def TurnsTransaction (crypto : Crypto) (ran : Except Panicked Progress) (header : Header) :
    Prop :=
  ∃ progress, ran = .ok progress ∧
    progress.sent = [.broadcast (.newTransactionBlockHashes [header.hash crypto])]

/-- The worker agrees with an iteration of the miner on what the header is. -/
structure Agrees (crypto : Crypto) (ran : Except Panicked Progress) (header : Header) :
    Prop where
  proposer : TurnsProposer crypto ran header →
    PassesProposer crypto header ∧ FailsTransaction crypto header
  transaction : TurnsTransaction crypto ran header →
    PassesTransaction crypto header ∧ FailsProposer crypto header

/-- The hash is the threshold of proposer blocks, and lies below the one of
transaction blocks. -/
def Header.OnThreshold (crypto : Crypto) (header : Header) : Prop :=
  (header.hash crypto).toNat = header.proposerDifficulty.toNat ∧
    (header.hash crypto).toNat < header.transactionDifficulty.toNat

instance (header : Header) : Decidable (header.OnThreshold crypto) :=
  inferInstanceAs (Decidable (_ ∧ _))

/-- The transactions that `miner_loop` collects. -/
def minerContent (node : Node) (choice : MinerChoice) : Option (List SignedTransaction) := do
  let currState ← node.globState.lookup node.blockchain.tip
  selectTransactions node.txPool currState choice.txOrder 0

section Miner

variable {header : Header} {ran : Except Panicked Progress}

@[simp]
theorem turnsProposer_pure (progress : Progress) :
    TurnsProposer crypto (pure progress) header ↔
      progress.sent = [.broadcast (.newProposerBlockHashes [header.hash crypto])] := by
  simp [TurnsProposer, pure, Except.pure]

@[simp]
theorem turnsTransaction_pure (progress : Progress) :
    TurnsTransaction crypto (pure progress) header ↔
      progress.sent = [.broadcast (.newTransactionBlockHashes [header.hash crypto])] := by
  simp [TurnsTransaction, pure, Except.pure]

/-- An iteration that compares as the miner does agrees with the worker unless it
turns a header on the threshold into a transaction block. -/
theorem agrees_iff_of_strict
    (proposer : TurnsProposer crypto ran header →
      header.hash crypto < header.proposerDifficulty)
    (transaction : TurnsTransaction crypto ran header →
      ¬ header.hash crypto < header.proposerDifficulty ∧
        header.hash crypto < header.transactionDifficulty) :
    Agrees crypto ran header ↔
      ¬ (header.OnThreshold crypto ∧ TurnsTransaction crypto ran header) := by
  constructor
  · rintro agrees ⟨⟨same, -⟩, turns⟩
    have won : header.hash crypto ≤ header.proposerDifficulty :=
      H256.le_iff_toNat.mpr (le_of_eq same)
    exact not_passes_of_fails (failsTransaction_of_le won) (agrees.transaction turns).1
  · intro apart
    constructor
    · intro turns
      have won := H256.le_of_lt (proposer turns)
      exact ⟨passesProposer_of_le won, failsTransaction_of_le won⟩
    · intro turns
      obtain ⟨notLess, less⟩ := transaction turns
      have lost : header.proposerDifficulty < header.hash crypto := by
        rw [H256.lt_iff_toNat] at notLess less ⊢
        by_contra notGreater
        exact apart ⟨⟨by omega, less⟩, turns⟩
      exact ⟨passesTransaction_of_between lost (H256.le_of_lt less), failsProposer_of_lt lost⟩

variable {node : Node} {choice : MinerChoice}

theorem minerLoop_of_header (built : minerHeader crypto node choice = some header) :
    (TurnsProposer crypto (minerLoop crypto node choice) header →
      header.hash crypto < header.proposerDifficulty) ∧
    (TurnsTransaction crypto (minerLoop crypto node choice) header ↔
      ¬ header.hash crypto < header.proposerDifficulty ∧
        header.hash crypto < header.transactionDifficulty ∧
        minerContent node choice ≠ some []) := by
  simp only [minerHeader, Option.bind_eq_bind, Option.bind_eq_some_iff] at built
  obtain ⟨currState, tipState, content, selected, pointedTxBlocks, tipRef, built⟩ := built
  have newHeader : newHeader crypto node choice content
      (selectRefs pointedTxBlocks choice.txBlockOrder 0) = .ok header := by
    cases made : newHeader crypto node choice content
        (selectRefs pointedTxBlocks choice.txBlockOrder 0) with
    | error panic => simp [made, Except.toOption] at built
    | ok other =>
        rw [made, Except.toOption, Option.some.injEq] at built
        rw [built]
  have collected : minerContent node choice = some content := by
    simp [minerContent, tipState, selected]
  simp only [minerLoop, tipState, selected, tipRef, newHeader, index_some, Node.attempt_ok,
    ok_bind, collected]
  split
  · next won =>
      refine ⟨fun _ => won, iff_of_false ?_ fun lost => lost.1 won⟩
      split
      · simp
      · rintro ⟨progress, ran, sent⟩
        obtain ⟨after, -, ran⟩ := bind_eq_ok.mp ran
        cases ran
        simp at sent
  · next lost =>
      split
      · next won =>
          split
          · next empty => simp [List.length_eq_zero_iff.mp empty]
          · next filled =>
              rw [List.length_eq_zero_iff] at filled
              simp [lost, won, filled, TXBlock.hash]
      · next notWon => simp [notWon]

theorem minerLoopAttacker_of_header
    (built : minerHeaderAttacker crypto node choice = some header) :
    (TurnsProposer crypto (minerLoopAttacker crypto node choice) header →
      header.hash crypto < header.proposerDifficulty) ∧
    (TurnsTransaction crypto (minerLoopAttacker crypto node choice) header ↔
      ¬ header.hash crypto < header.proposerDifficulty ∧
        header.hash crypto < header.transactionDifficulty) := by
  simp only [minerHeaderAttacker, Option.bind_eq_bind, Option.bind_eq_some_iff] at built
  obtain ⟨currState, tipState, pointedTxBlocks, tipRef, built⟩ := built
  have newHeader : newHeader crypto node choice [] [] = .ok header := by
    cases made : newHeader crypto node choice [] [] with
    | error panic => simp [made, Except.toOption] at built
    | ok other =>
        rw [made, Except.toOption, Option.some.injEq] at built
        rw [built]
  simp only [minerLoopAttacker, tipState, tipRef, newHeader, index_some, Node.attempt_ok, ok_bind]
  split
  · next won =>
      refine ⟨fun _ => won, iff_of_false ?_ fun lost => lost.1 won⟩
      rintro ⟨progress, ran, sent⟩
      obtain ⟨after, -, ran⟩ := bind_eq_ok.mp ran
      cases ran
      simp at sent
  · next lost =>
      split
      · next won => simp [lost, won, TXBlock.hash]
      · next notWon => simp [notWon]

/-- `miner_loop` agrees with the worker on the header that it builds unless the
hash is the threshold of proposer blocks and there is a transaction to pack. -/
theorem agrees_minerLoop (built : minerHeader crypto node choice = some header) :
    Agrees crypto (minerLoop crypto node choice) header ↔
      (header.OnThreshold crypto → minerContent node choice = some []) := by
  obtain ⟨proposer, transaction⟩ := minerLoop_of_header built
  rw [agrees_iff_of_strict proposer fun turns =>
    ⟨(transaction.mp turns).1, (transaction.mp turns).2.1⟩, transaction, Header.OnThreshold,
    H256.lt_iff_toNat, H256.lt_iff_toNat]
  constructor
  · rintro apart ⟨same, below⟩
    by_contra filled
    exact apart ⟨⟨same, below⟩, by omega, below, filled⟩
  · rintro empty ⟨onThreshold, -, -, filled⟩
    exact filled (empty onThreshold)

/-- `miner_loop_attacker`, which packs nothing, agrees with it unless the hash is
the threshold of proposer blocks. -/
theorem agrees_minerLoopAttacker (built : minerHeaderAttacker crypto node choice = some header) :
    Agrees crypto (minerLoopAttacker crypto node choice) header ↔
      ¬ header.OnThreshold crypto := by
  obtain ⟨proposer, transaction⟩ := minerLoopAttacker_of_header built
  rw [agrees_iff_of_strict proposer transaction.mp, transaction, Header.OnThreshold,
    H256.lt_iff_toNat, H256.lt_iff_toNat]
  constructor
  · rintro apart ⟨same, below⟩
    exact apart ⟨⟨same, below⟩, by omega, below⟩
  · rintro apart ⟨onThreshold, -⟩
    exact apart onThreshold

/-- The worker agrees with the miner on every header that the miner builds, as
far as the hash is not the threshold of proposer blocks below the one of
transaction blocks, or `miner_loop` has no transaction to pack. -/
theorem sortition_agrees_iff (node : Node) (choice : MinerChoice) (header : Header) :
    (minerHeader crypto node choice = some header →
      (Agrees crypto (minerLoop crypto node choice) header ↔
        (header.OnThreshold crypto → minerContent node choice = some []))) ∧
    (minerHeaderAttacker crypto node choice = some header →
      (Agrees crypto (minerLoopAttacker crypto node choice) header ↔
        ¬ header.OnThreshold crypto)) :=
  ⟨agrees_minerLoop, agrees_minerLoopAttacker⟩

end Miner

/-- A peer's block on genesis, with the threshold of proposer blocks that the
miner then copies into its headers. -/
def thresholdBlock : ProposerBlock :=
  ⟨{ Header.sample 2 (genesisHash Crypto.sample) with proposerDifficulty := sampleHash 0x1000 },
    ⟨[]⟩⟩

/-- The block becomes the tip, and a payment enters the mempool. -/
def thresholdRun : Run (State.step Crypto.sample) (Initial Crypto.sample) :=
  Run.sampleStart
    [.ico, .receive (.proposerBlocks [thresholdBlock]), .work, .work,
      .receive (.transactions [payment .sample 1000]), .work]
    (by decide +kernel)

/-- A header of the miner on top of that block. -/
def thresholdHeader (nonce : UInt32) : Header :=
  { thresholdBlock.header with
    proposerParent := sampleHash 2
    nonce
    merkleTransaction := (payment .sample 1000).hash Crypto.sample
    merkleProposer := H256.zero }

def thresholdChoice (nonce : UInt32) : MinerChoice :=
  ⟨[(payment .sample 1000).hash Crypto.sample], [], nonce, 0⟩

theorem agrees_thresholdRun :
    TurnsTransaction Crypto.sample
        (minerLoop Crypto.sample (thresholdRun.states 6).node (thresholdChoice 0x1001))
        (thresholdHeader 0x1001) ∧
      Agrees Crypto.sample
        (minerLoop Crypto.sample (thresholdRun.states 6).node (thresholdChoice 0x1001))
        (thresholdHeader 0x1001) := by
  have built : minerHeader Crypto.sample (thresholdRun.states 6).node (thresholdChoice 0x1001) =
      some (thresholdHeader 0x1001) := by
    decide +kernel
  refine ⟨(minerLoop_of_header built).2.mpr (by decide +kernel), ?_⟩
  exact ((sortition_agrees_iff _ _ _).1 built).mpr fun onThreshold =>
    absurd onThreshold (by decide +kernel)

/-- The miner turns a header whose hash is the threshold into a transaction block,
which no worker takes. -/
theorem disagrees_thresholdRun :
    (thresholdChoice 0x1000).Possible (thresholdRun.states 6).node ∧
      (thresholdHeader 0x1000).proposerDifficulty ≤
        (thresholdHeader 0x1000).transactionDifficulty ∧
      TurnsTransaction Crypto.sample
        (minerLoop Crypto.sample (thresholdRun.states 6).node (thresholdChoice 0x1000))
        (thresholdHeader 0x1000) ∧
      FailsTransaction Crypto.sample (thresholdHeader 0x1000) ∧
      ¬ Agrees Crypto.sample
        (minerLoop Crypto.sample (thresholdRun.states 6).node (thresholdChoice 0x1000))
        (thresholdHeader 0x1000) := by
  have built : minerHeader Crypto.sample (thresholdRun.states 6).node (thresholdChoice 0x1000) =
      some (thresholdHeader 0x1000) := by
    decide +kernel
  have turns := (minerLoop_of_header built).2.mpr (by decide +kernel)
  have fails : FailsTransaction Crypto.sample (thresholdHeader 0x1000) :=
    failsTransaction_of_le (by decide +kernel)
  refine ⟨by decide +kernel, by decide +kernel, turns, fails, fun agrees => ?_⟩
  exact not_passes_of_fails fails (agrees.transaction turns).1

end SimplifiedPrism
