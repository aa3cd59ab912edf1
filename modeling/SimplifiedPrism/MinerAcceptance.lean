import SimplifiedPrism.Mempool

/-!
# What other nodes accept from a miner

A worker takes a transaction block into its pool without looking at the
transactions, a miner refers to whatever is in the pool, and a receiver demands
correct signatures of everything that is referenced.  A node whose pool holds
only sound transactions accepts every block that a miner builds; one transaction
block with a bad signature is enough to divide the two.
-/

namespace SimplifiedPrism

variable {crypto : Crypto}

variable (crypto) in
/-- The transactions that a step takes into one of the pools: the content of a
received transaction block, or a transaction admitted to the mempool. -/
def State.takenIn (state : State) (action : Action) : List SignedTransaction :=
  match action, state.todo with
  | .work, .transactionBlock each :: _ =>
      if each.hash crypto ∉ state.node.txBlockPool ∧
          ¬ each.hash crypto > each.header.transactionDifficulty ∧
          ¬ each.hash crypto ≤ each.header.proposerDifficulty then
        each.content.transactionContent
      else
        []
  | .work, .transaction tip each :: _ =>
      match handleTransaction crypto state.node tip each with
      | .ok progress => if progress.node = state.node then [] else [each]
      | .error _ => []
  | _, _ => []

/-- A step takes only sound transactions into the pools. -/
def TakesSound (crypto : Crypto) (state : State) (action : Action) : Prop :=
  ∀ tx ∈ state.takenIn crypto action, tx.Sound crypto

instance (state : State) (action : Action) : Decidable (TakesSound crypto state action) :=
  inferInstanceAs (Decidable (∀ tx ∈ state.takenIn crypto action, tx.Sound crypto))

/-- Both pools hold sound transactions. -/
structure SoundPools (crypto : Crypto) (node : Node) : Prop where
  txPool : ∀ hash tx, node.txPool.lookup hash = some tx → tx.Sound crypto
  txBlockPool : ∀ hash txBlock, node.txBlockPool.lookup hash = some txBlock →
    ∀ tx ∈ txBlock.content.transactionContent, tx.Sound crypto

/-! ## The pools of a node -/

section Pools

variable {before after : State} {action : Action}

theorem sound_of_build {allAddr : List H160} {key : KeyPair} {draw : Draw} {coin : Coin}
    {tx : SignedTransaction}
    (correct : ∀ key message,
      crypto.ed25519Verify (crypto.publicKey key) message (crypto.ed25519Sign key message) = true)
    (nonzero : coin.1 ≠ 0)
    (built : buildTransaction crypto allAddr key draw coin = some tx) : tx.Sound crypto := by
  obtain ⟨first, second, spends, -⟩ := spendsTwice_of_build nonzero built
  refine ⟨?_, spends.wellShaped⟩
  simp only [buildTransaction, Option.bind_eq_bind, Option.bind_eq_some_iff, Option.pure_def,
    Option.some.injEq] at built
  obtain ⟨dest, -, rfl⟩ := built
  exact correct key _

private theorem soundPools_of_ran {task : Task} {rest todo : List Task} {node : Node}
    (sound : SoundPools crypto before.node) (takes : TakesSound crypto before .work)
    (next : before.todo = task :: rest)
    (effect : Effect crypto before.node task node todo) : SoundPools crypto node := by
  cases effect with
  | skip => exact sound
  | addr _ _ | ico _ _ _ | release _ _ _ => exact { sound with }
  | buffer each _ _ _ =>
      rw [bufferOrphan_eq]
      exact { sound with }
  | accept _ each _ _ _ applied =>
      obtain ⟨_, _, _, accepts⟩ := accepts_of_apply applied
      constructor
      · intro hash tx pooled
        exact sound.txPool hash tx (accepts.txPool hash tx pooled)
      · rw [accepts.txBlockPool]
        exact sound.txBlockPool
  | transactionBlock each unknown work notProposer =>
      have good : ∀ tx ∈ each.content.transactionContent, tx.Sound crypto := by
        intro tx member
        apply takes tx
        simp [State.takenIn, next, unknown, work, notProposer, member]
      constructor
      · intro hash tx kept
        exact sound.txPool hash tx (lookup_of_removeTransactions kept)
      · exact HashMap.forall_lookup_insert sound.txBlockPool good
  | transaction tip each currState sums fresh verified tipState unspent owned summed covered =>
      have admits : Admits crypto before.node tip each :=
        ⟨fresh, verified, currState, sums, tipState, unspent, owned, summed, covered⟩
      have changed : { before.node with
          txPool := before.node.txPool.insert (each.hash crypto) each } ≠ before.node := by
        intro same
        apply fresh
        rw [← congrArg Node.txPool same]
        exact Finmap.mem_insert.mpr (.inl rfl)
      have good : each.Sound crypto := by
        apply takes each
        simp [State.takenIn, next, admits.ran, changed]
      exact { sound with txPool := HashMap.forall_lookup_insert sound.txPool good }

theorem Initial.soundPools {state : State} (initial : Initial crypto state) :
    SoundPools crypto state.node := by
  obtain ⟨-, -, allAddr, myAddrKey, same⟩ := initial
  rw [same]
  constructor
  · simp [Node.initial]
  · simp [Node.initial]

/-- Own transactions are sound, so that only those taken in matter. -/
theorem SoundPools.step
    (correct : ∀ key message,
      crypto.ed25519Verify (crypto.publicKey key) message (crypto.ed25519Sign key message) = true)
    (sound : SoundPools crypto before.node) (formed : before.WellFormed crypto)
    (takes : TakesSound crypto before action)
    (stepped : before.step crypto action = some after) : SoundPools crypto after.node := by
  cases formed.cases stepped with
  | receive _ _ | looked _ _ => exact sound
  | ico _ => exact { sound with }
  | ran _ _ _ _ next effect => exact soundPools_of_ran sound takes next effect
  | panicked task _ _ next failure =>
      rw [failure.onlyRefs formed.node (formed.grounded next)]
      exact { sound with }
  | minerPanicked _ _ _ failure =>
      rw [failure.onlyRefs]
      exact { sound with }
  | generated _ ledger _ _ _ _ generated =>
      rw [generated.onlyPool]
      refine { sound with txPool := fun hash tx pooled => ?_ }
      rcases generated.made hash tx pooled with earlier | ⟨_, _, _, _, -, nonzero, built⟩
      · exact sound.txPool hash tx earlier
      · exact sound_of_build correct nonzero built
  | mined _ _ _ mined =>
      cases mined with
      | nothing => exact sound
      | proposer _ _ _ _ _ _ _ _ _ _ accepts =>
          constructor
          · intro hash tx pooled
            exact sound.txPool hash tx (accepts.txPool hash tx pooled)
          · rw [accepts.txBlockPool]
            exact sound.txBlockPool
      | transaction header txs _ _ _ _ _ _ pooled kept =>
          have good : ∀ tx ∈ txs, tx.Sound crypto := by
            intro tx member
            obtain ⟨hash, found⟩ := pooled tx member
            exact sound.txPool hash tx found
          constructor
          · intro hash tx stays
            exact sound.txPool hash tx (kept hash tx stays)
          · exact HashMap.forall_lookup_insert sound.txBlockPool good

end Pools

/-! ## Blocks of a miner -/

/-- The block that an iteration of a miner announces wins the sortition, extends
the tip and is accepted by the miner itself. -/
def Announces (crypto : Crypto) (node : Node) (progress : Progress) (hash : H256) : Prop :=
  ∃ block parentLedger txs ledger, block.hash crypto = hash ∧
    block.header.proposerParent = node.blockchain.tip ∧
    block.hash crypto < block.header.proposerDifficulty ∧
    Accepts crypto node block parentLedger txs ledger progress.node

theorem announces_of_minerLoop {node : Node} {choice : MinerChoice} {progress : Progress}
    {hash : H256} (possible : choice.Possible node)
    (ran : minerLoop crypto node choice = .ok progress)
    (announced : .broadcast (.newProposerBlockHashes [hash]) ∈ progress.sent) :
    Announces crypto node progress hash := by
  simp only [minerLoop, bind_eq_ok, Node.attempt_eq_ok, index_eq_ok] at ran
  obtain ⟨currState, tipState, content, -, pointedTxBlocks, tipRef, header, built, ran⟩ := ran
  have parent := (minedHeader_of_newHeader built).parent
  split at ran
  · next won =>
      split at ran
      · cases ran
        simp at announced
      simp only [bind_eq_ok] at ran
      obtain ⟨after, published, ran⟩ := ran
      cases ran
      have nodup : (selectRefs pointedTxBlocks choice.txBlockOrder 0).Nodup :=
        (selectRefs_sublist _ _ _).nodup possible.2.nodup
      rw [← parent] at tipState tipRef
      obtain ⟨txs, ledger, accepts⟩ := accepts_of_publish tipState tipRef nodup
        (fun ref member => not_pointed_of_selectRefs member) published
      simp only [List.mem_singleton, Outgoing.broadcast.injEq,
        Message.newProposerBlockHashes.injEq, List.cons.injEq, and_true] at announced
      exact ⟨_, currState, txs, ledger, announced.symm, parent, won, accepts⟩
  · split at ran
    · split at ran
      · cases ran
        simp at announced
      · cases ran
        simp at announced
    · cases ran
      simp at announced

/-- An iteration of `miner_loop` builds a proposer block, inserts it into the
tree and announces it. -/
structure MinesProposer (crypto : Crypto) (node : Node) (choice : MinerChoice)
    (block : ProposerBlock) : Prop where
  possible : choice.Possible node
  mined : ∃ progress, minerLoop crypto node choice = .ok progress ∧
    .broadcast (.newProposerBlockHashes [block.hash crypto]) ∈ progress.sent ∧
    progress.node.blockchain.blocks.lookup (block.hash crypto) = some block

theorem MinesProposer.won {node : Node} {choice : MinerChoice} {block : ProposerBlock}
    (mines : MinesProposer crypto node choice block) :
    block.hash crypto < block.header.proposerDifficulty := by
  obtain ⟨progress, ran, announced, stored⟩ := mines.mined
  obtain ⟨newBlock, _, _, _, sameHash, -, won, accepts⟩ :=
    announces_of_minerLoop mines.possible ran announced
  rw [accepts.blocks, sameHash, Finmap.lookup_insert, Option.some.injEq] at stored
  subst stored
  exact won

/-- A node with sound pools accepts a block with enough work when it has the
parent, published, and the references. -/
theorem accepts_of_sound {node : Node} {block : ProposerBlock} (formed : node.WellFormed crypto)
    (published : node.Published) (sound : SoundPools crypto node)
    (won : block.hash crypto < block.header.proposerDifficulty)
    (unknown : block.hash crypto ∉ node.blockchain.blocks)
    (parentKnown : block.header.proposerParent ∈ node.blockchain.blocks)
    (pooled : ∀ ref ∈ block.content.proposerContent, ref ∈ node.txBlockPool) :
    ∃ progress, handleProposerBlock crypto node block = .ok progress ∧
      progress.node.blockchain.blocks.lookup (block.hash crypto) = some block := by
  obtain ⟨txs, collected⟩ := referenced_isSome pooled
  have soundTxs : ∀ tx ∈ txs, tx.Sound crypto := by
    intro tx member
    obtain ⟨ref, -, txBlock, found, inside⟩ := (mem_referenced collected).mp member
    exact sound.txBlockPool ref txBlock found tx inside
  obtain ⟨after, applied, accepted⟩ := accept_isOk formed published parentKnown collected soundTxs
  obtain ⟨_, _, _, accepts⟩ := accepts_of_apply applied
  have work : ¬ block.hash crypto > block.header.proposerDifficulty := H256.not_lt_of_lt won
  have reached : handleProposerBlock crypto node block = acceptProposerBlock crypto node block := by
    rw [handleProposerBlock, if_neg unknown, if_neg work, if_neg (not_not.mpr parentKnown)]
  refine ⟨_, reached.trans accepted, ?_⟩
  rw [accepts.blocks, Finmap.lookup_insert]

/-- Whatever a miner builds is accepted by every node that takes only sound
transactions into its pools, has the parent and the references, and knows the
ledger of the offering. -/
theorem accepted_of_takesSound
    (correct : ∀ key message,
      crypto.ed25519Verify (crypto.publicKey key) message (crypto.ed25519Sign key message) = true)
    (minerRun receiverRun : Run (State.step crypto) (Initial crypto))
    (meets : receiverRun.Meets (TakesSound crypto)) :
    ∀ mining ≤ minerRun.length, ∀ choice block,
      MinesProposer crypto (minerRun.states mining).node choice block →
      ∀ receiving ≤ receiverRun.length,
        genesisHash crypto ∈ (receiverRun.states receiving).node.globState →
        block.hash crypto ∉ (receiverRun.states receiving).node.blockchain.blocks →
        block.header.proposerParent ∈ (receiverRun.states receiving).node.blockchain.blocks →
        (∀ ref ∈ block.content.proposerContent,
          ref ∈ (receiverRun.states receiving).node.txBlockPool) →
        ∃ progress,
          handleProposerBlock crypto (receiverRun.states receiving).node block = .ok progress ∧
          progress.node.blockchain.blocks.lookup (block.hash crypto) = some block := by
  have invariant := receiverRun.invariant_of_meets meets
    (fun state => state.WellFormed crypto ∧ SoundPools crypto state.node)
    (fun _ initial => ⟨initial.wellFormed, initial.soundPools⟩)
    (fun _ _ _ ⟨formed, sound⟩ takes stepped =>
      ⟨(formed.step stepped).1, sound.step correct formed takes stepped⟩)
  intro mining _ choice block mines receiving bound genesis unknown parentKnown pooled
  obtain ⟨formed, sound⟩ := invariant receiving bound
  have published := published_of_genesis receiverRun receiving bound genesis
  exact accepts_of_sound formed.node published sound mines.won unknown parentKnown pooled

/-- The miner refers to the transaction block it has taken in. -/
def paymentChoice : MinerChoice :=
  ⟨[], [sampleHash 0x2001], 2, 0⟩

/-- Whether an iteration mines a block, computed. -/
theorem minesProposer_of_eval {node : Node} {choice : MinerChoice} {block : ProposerBlock}
    (possible : choice.Possible node)
    (evaluated : (minerLoop crypto node choice).toOption.any (fun progress =>
      .broadcast (.newProposerBlockHashes [block.hash crypto]) ∈ progress.sent ∧
      progress.node.blockchain.blocks.lookup (block.hash crypto) = some block) = true) :
    MinesProposer crypto node choice block := by
  refine ⟨possible, ?_⟩
  cases ran : minerLoop crypto node choice with
  | error panicked => simp [ran, Except.toOption] at evaluated
  | ok progress => exact ⟨progress, rfl, by simpa [ran, Except.toOption] using evaluated⟩

theorem accepted_paymentRun :
    ∃ progress,
      handleProposerBlock Crypto.sample (paymentRun.states 3).node paymentProposal = .ok progress ∧
      progress.node.blockchain.blocks.lookup (sampleHash 2) = some paymentProposal := by
  have correct : ∀ key message, Crypto.sample.ed25519Verify (Crypto.sample.publicKey key) message
      (Crypto.sample.ed25519Sign key message) = true := by
    simp [Crypto.sample]
  have meets : paymentRun.Meets (TakesSound Crypto.sample) := by
    change ∀ index < 3, _
    decide +kernel
  have mines : MinesProposer Crypto.sample (paymentRun.states 3).node paymentChoice
      paymentProposal :=
    minesProposer_of_eval (by decide +kernel) (by decide +kernel)
  exact accepted_of_takesSound correct paymentRun paymentRun meets 3 (by decide) paymentChoice
    paymentProposal mines 3 (by decide) (by decide +kernel) (by decide +kernel)
    (by decide +kernel) (by decide +kernel)

/-- The payment with its signature taken off. -/
def unsignedBlock : TXBlock :=
  let transaction := (payment .sample 1000).transaction
  ⟨(paymentBlock .sample 1000).header, ⟨[⟨transaction, ⟨[], [65]⟩⟩]⟩⟩

def poisonedRun : Run (State.step Crypto.sample) (Initial Crypto.sample) :=
  Run.samplePool unsignedBlock (by decide +kernel)

/-- The miner builds on a transaction block with a bad signature, and a node in
the same state, which has the parent and the reference, refuses the block. -/
theorem refused_poisonedRun :
    MinesProposer Crypto.sample (poisonedRun.states 3).node paymentChoice paymentProposal ∧
      genesisHash Crypto.sample ∈ (poisonedRun.states 3).node.globState ∧
      paymentProposal.hash Crypto.sample ∉ (poisonedRun.states 3).node.blockchain.blocks ∧
      paymentProposal.header.proposerParent ∈ (poisonedRun.states 3).node.blockchain.blocks ∧
      (∀ ref ∈ paymentProposal.content.proposerContent,
        ref ∈ (poisonedRun.states 3).node.txBlockPool) ∧
      ((handleProposerBlock Crypto.sample (poisonedRun.states 3).node
        paymentProposal).toOption.map fun progress => progress.node) =
          some (poisonedRun.states 3).node := by
  refine ⟨minesProposer_of_eval (by decide +kernel) (by decide +kernel), ?_⟩
  decide +kernel

end SimplifiedPrism
