import SimplifiedPrism.AcceptedChains
import SimplifiedPrism.Mempool

/-!
# The mempool is spendable at the tip

Transactions are admitted against the ledger of the tip and pruned against the
ledger of whatever block is applied.  A pooled transaction keeps its inputs: a
block that becomes the tip has just been used for pruning, and any other block
leaves the ledger of the tip alone.  It also keeps the owner of its inputs,
because an outpoint names the output of one transaction on every branch.
-/

namespace SimplifiedPrism

variable {crypto : Crypto}

/-! ## The origin of a coin -/

/-- A transaction writes a coin to an outpoint. -/
def Produces (crypto : Crypto) (tx : SignedTransaction) (outpoint : Outpoint) (coin : Coin) :
    Prop :=
  ∃ i < tx.transaction.inputPrevious.length,
    outpoint = (tx.hash crypto, UInt32.ofNat i) ∧ tx.transaction.output i = some coin

private theorem origin_of_loop {tx : SignedTransaction} {currState : Ledger} {count : Nat}
    {spending : Spending} (bound : count ≤ tx.transaction.inputPrevious.length)
    (looped : Spending.loop (tx.hash crypto) tx.transaction currState count = some spending)
    {outpoint : Outpoint} {coin : Coin} (found : spending.currState.lookup outpoint = some coin) :
    currState.lookup outpoint = some coin ∨ Produces crypto tx outpoint coin := by
  induction count generalizing spending with
  | zero =>
      rw [Spending.loop_zero, Option.some.injEq] at looped
      subst looped
      exact .inl found
  | succ count ih =>
      rw [Spending.loop_succ, Option.bind_eq_some_iff] at looped
      obtain ⟨before, looped, stepped⟩ := looped
      have earlier := fun known => ih (by omega) looped known
      obtain ⟨key, -, -, ⟨-, output, produced, written, -⟩ | ⟨-, kept, -⟩⟩ :=
        Spending.next_cases stepped
      · rw [written, HashMap.lookup_insert_ite] at found
        split at found
        · next same =>
            cases found
            exact .inr ⟨count, by omega, same, produced⟩
        · exact earlier found
      · rw [kept] at found
        exact earlier found

theorem origin_of_updateState {tx : SignedTransaction} {currState after : Ledger}
    (updated : updateState crypto currState tx = some after) {outpoint : Outpoint} {coin : Coin}
    (found : after.lookup outpoint = some coin) :
    currState.lookup outpoint = some coin ∨ Produces crypto tx outpoint coin := by
  rcases updateState_cases updated with rfl | ⟨-, spending, looped, -, rfl⟩
  · exact .inl found
  · apply origin_of_loop (le_refl _) looped
    rw [HashMap.lookup_erase_ite] at found
    split at found
    · cases found
    · exact found

theorem origin_of_applied {history : List SignedTransaction} {initial ledger : Ledger}
    (applied : applyTransactions crypto initial history = some ledger) {outpoint : Outpoint}
    {coin : Coin} (found : ledger.lookup outpoint = some coin) :
    initial.lookup outpoint = some coin ∨ ∃ tx ∈ history, Produces crypto tx outpoint coin := by
  induction history generalizing initial with
  | nil =>
      rw [applyTransactions_nil, Option.some.injEq] at applied
      subst applied
      exact .inl found
  | cons tx history ih =>
      rw [applyTransactions_cons, Option.bind_eq_some_iff] at applied
      obtain ⟨next, updated, applied⟩ := applied
      rcases ih applied with earlier | ⟨other, member, produces⟩
      · rcases origin_of_updateState updated earlier with first | produces
        · exact .inl first
        · exact .inr ⟨tx, List.mem_cons_self, produces⟩
      · exact .inr ⟨other, List.mem_cons_of_mem _ member, produces⟩

/-- What makes an outpoint name one output: the hashes of the transactions are
different, none of them is the zero that the initial coins carry, and the index
of an output does not wrap around.  A received transaction has come in a frame
of less than 2^32 bytes. -/
structure Identified (crypto : Crypto) (txs : Set SignedTransaction) : Prop where
  injective : Set.InjOn (SignedTransaction.hash crypto) txs
  nonzero : ∀ tx ∈ txs, tx.hash crypto ≠ H256.zero
  framed : ∀ tx ∈ txs, tx.transaction.inputPrevious.length < 2 ^ 32

theorem Identified.produces_unique {txs : Set SignedTransaction}
    (identified : Identified crypto txs) {tx other : SignedTransaction} (member : tx ∈ txs)
    (otherMember : other ∈ txs) {outpoint : Outpoint} {coin otherCoin : Coin}
    (produces : Produces crypto tx outpoint coin)
    (otherProduces : Produces crypto other outpoint otherCoin) : coin = otherCoin := by
  obtain ⟨i, bound, rfl, output⟩ := produces
  obtain ⟨j, otherBound, same, otherOutput⟩ := otherProduces
  rw [Prod.mk.injEq] at same
  have sameTx : tx = other := identified.injective member otherMember same.1
  subst sameTx
  have framed := identified.framed tx member
  have sameIndex : i = j := by
    have counts := congrArg UInt32.toNat same.2
    rwa [UInt32.toNat_ofNat_of_lt' (Nat.lt_trans bound framed),
      UInt32.toNat_ofNat_of_lt' (Nat.lt_trans otherBound framed)] at counts
  rw [sameIndex, otherOutput, Option.some.injEq] at output
  exact output.symm

/-- An outpoint has the same coin in every ledger that has it. -/
theorem Identified.coin_unique {txs : Set SignedTransaction} (identified : Identified crypto txs)
    {initial ledger other : Ledger} (original : initial.Original)
    {history otherHistory : List SignedTransaction}
    (members : ∀ tx ∈ history, tx ∈ txs) (otherMembers : ∀ tx ∈ otherHistory, tx ∈ txs)
    (applied : applyTransactions crypto initial history = some ledger)
    (otherApplied : applyTransactions crypto initial otherHistory = some other)
    {outpoint : Outpoint} {coin otherCoin : Coin}
    (found : ledger.lookup outpoint = some coin)
    (otherFound : other.lookup outpoint = some otherCoin) : coin = otherCoin := by
  -- an initial coin has the hash zero, which no transaction has
  have apart : ∀ {tx : SignedTransaction} {first second : Coin}, tx ∈ txs →
      initial.lookup outpoint = some first → ¬ Produces crypto tx outpoint second := by
    rintro tx first second member stored ⟨_, -, rfl, -⟩
    exact identified.nonzero tx member (original _ (Finmap.mem_of_lookup_eq_some stored))
  rcases origin_of_applied applied found with first | ⟨tx, inside, produces⟩
  · rcases origin_of_applied otherApplied otherFound with second | ⟨tx, inside, produces⟩
    · rw [first, Option.some.injEq] at second
      exact second
    · exact absurd produces (apart (otherMembers tx inside) first)
  · rcases origin_of_applied otherApplied otherFound with second | ⟨other, otherInside, again⟩
    · exact absurd produces (apart (members tx inside) second)
    · exact identified.produces_unique (members tx inside) (otherMembers other otherInside)
        produces again

/-! ## The first offering -/

/-- Every address of the node is the one of its key, as the generator makes them. -/
def Node.OwnKeys (crypto : Crypto) (node : Node) : Prop :=
  ∀ addr key, node.myAddrKey.lookup addr = some key →
    addr = addressOf crypto (crypto.publicKey key)

theorem Node.OwnKeys.generateAddress {node : Node} (own : node.OwnKeys crypto) (key : KeyPair) :
    (generateAddress crypto node key).node.OwnKeys crypto := by
  intro addr stored found
  rw [SimplifiedPrism.generateAddress, HashMap.lookup_insert_ite] at found
  split at found
  · next same =>
      cases found
      exact same
  · exact own addr stored found

/-- The initial coin offering has just been made for the first time: nothing has
been admitted to the mempool yet. -/
structure FirstIco (crypto : Crypto) (allAddr : List H160) (state : State) : Prop where
  afterIco : AfterIco crypto (icoState allAddr) state
  txPool : state.node.txPool = ∅
  ownKeys : state.node.OwnKeys crypto

/-- Before the offering there is no ledger, so that every block and every
transaction is refused. -/
structure BeforeIco (crypto : Crypto) (state : State) : Prop where
  globState : state.node.globState = ∅
  chain : state.node.blockchain = Blockchain.new crypto
  txBlockRef : state.node.txBlockRef.lookup (genesisHash crypto) = some []
  txPool : state.node.txPool = ∅
  ownKeys : state.node.OwnKeys crypto
  todo : ∀ task ∈ state.todo, ∀ each, task ≠ .orphan each ∧ task ≠ .newParent each

theorem Message.ne_release {node : Node} (message : Message) :
    ∀ task ∈ message.tasks node, ∀ each, task ≠ .orphan each ∧ task ≠ .newParent each := by
  intro task member each
  cases message with
  | ico _ _ =>
      rw [Message.tasks, List.mem_singleton] at member
      subst member
      exact ⟨by simp, by simp⟩
  | newAddr _ | newTransactionHashes _ | getTransactions _ | transactions _
  | newTransactionBlockHashes _ | getTransactionBlocks _ | transactionBlocks _
  | newProposerBlockHashes _ | getProposerBlocks _ | proposerBlocks _ =>
      obtain ⟨item, -, rfl⟩ := List.mem_map.mp member
      exact ⟨by simp, by simp⟩

theorem Initial.beforeIco {state : State} (initial : Initial crypto state)
    (ownKeys : state.node.OwnKeys crypto) : BeforeIco crypto state := by
  obtain ⟨idle, -, allAddr, myAddrKey, same⟩ := initial
  refine ⟨?_, ?_, ?_, ?_, ownKeys, by simp [idle]⟩
  · rw [same]
    rfl
  · rw [same]
    rfl
  · rw [same, Node.initial, Finmap.lookup_insert]
  · rw [same]
    rfl

theorem BeforeIco.minedHeader {state : State} (beforeIco : BeforeIco crypto state)
    (action : Action) : state.minedHeader crypto action = none := by
  cases action with
  | mine choice => simp [State.minedHeader, minerHeader, beforeIco.globState]
  | mineAttacker choice => simp [State.minedHeader, minerHeaderAttacker, beforeIco.globState]
  | receive _ | work | generate _ | ico => rfl

/-- Up to the first offering only the offering changes the ledgers. -/
theorem BeforeIco.step {before after : State} {action : Action}
    (beforeIco : BeforeIco crypto before) (formed : before.WellFormed crypto)
    (stepped : before.step crypto action = some after) :
    BeforeIco crypto after ∨ ∃ genesis ledger,
      after.node = { before.node with
        globState := before.node.globState.insert genesis ledger } := by
  have noLedger : ∀ hash ledger, before.node.globState.lookup hash ≠ some ledger := by
    intro hash ledger found
    rw [beforeIco.globState] at found
    simp at found
  cases formed.cases stepped with
  | receive message _ => exact .inl { beforeIco with todo := message.ne_release }
  | looked _ _ => exact .inl { beforeIco with }
  | ico _ => exact .inr ⟨_, _, rfl⟩
  | generated _ ledger _ _ _ tipState _ => exact absurd tipState (noLedger _ _)
  | mined action _ _ mined =>
      cases mined with
      | nothing => exact .inl { beforeIco with }
      | proposer _ _ _ _ _ _ _ _ _ _ accepts => exact absurd accepts.parentState (noLedger _ _)
      | transaction _ _ _ _ built _ _ _ _ _ =>
          rw [beforeIco.minedHeader] at built
          cases built
  | minerPanicked action _ _ failure =>
      cases failure with
      | nothing => exact .inl { beforeIco with }
      | reference _ _ _ _ built _ _ _ _ =>
          rw [beforeIco.minedHeader] at built
          cases built
  | panicked task _ _ next failure =>
      left
      have queued : task ∈ before.todo := by simp [next]
      rcases failure.node_cases formed.node (formed.todo task queued) with
        unchanged | ⟨each, _, checks, -, written⟩
      · rw [unchanged]
        exact { beforeIco with todo := by simp }
      · rw [written]
        refine { beforeIco with todo := by simp, txBlockRef := ?_ }
        have other : genesisHash crypto ≠ each.hash crypto := by
          intro same
          cases checks with
          | received _ unknown _ _ =>
              exact unknown (same ▸ formed.node.chain.genesis)
          | orphan _ => exact (beforeIco.todo _ queued each).1 rfl
        rw [Finmap.lookup_insert_of_ne _ other]
        exact beforeIco.txBlockRef
  | ran task rest _ _ next effect =>
      have remaining : ∀ other ∈ [] ++ rest, ∀ each,
          other ≠ .orphan each ∧ other ≠ .newParent each := fun other member =>
        beforeIco.todo other (by simp_all)
      cases effect with
      | skip | addr _ _ => exact .inl { beforeIco with todo := remaining }
      | ico genesis icoState _ => exact .inr ⟨genesis, icoState, rfl⟩
      | transaction _ _ ledger _ _ _ tipState _ _ _ _ => exact absurd tipState (noLedger _ _)
      | transactionBlock each _ _ _ =>
          refine .inl { beforeIco with todo := remaining, txPool := ?_ }
          apply Finmap.ext_lookup
          intro hash
          refine Option.eq_none_iff_forall_ne_some.mpr fun tx kept => ?_
          have stored := lookup_of_removeTransactions kept
          rw [beforeIco.txPool] at stored
          simp at stored
      | buffer each _ _ _ =>
          rw [bufferOrphan_eq]
          exact .inl { beforeIco with todo := remaining }
      | accept _ _ _ _ _ applied =>
          obtain ⟨_, _, _, accepts⟩ := accepts_of_apply applied
          exact absurd accepts.parentState (noLedger _ _)
      | release block _ _ =>
          exact absurd rfl (beforeIco.todo (.newParent block) (by simp [next]) block).2

/-- The step that makes the first offering for genesis leads to such a state. -/
theorem firstIco_of_run {allAddr : List H160}
    (run : Run (State.step crypto)
      fun state => Initial crypto state ∧ state.node.OwnKeys crypto)
    {last : Nat} (length : run.length = last + 1)
    (first : (run.states last).node.globState = ∅)
    (offered : (run.states (last + 1)).node.globState.lookup (genesisHash crypto) =
      some (icoState allAddr)) :
    FirstIco crypto allAddr (run.states (last + 1)) := by
  have invariant := run.invariant
    (fun state => state.WellFormed crypto ∧
      (BeforeIco crypto state ∨ ∃ hash, hash ∈ state.node.globState))
    (fun _ ⟨initial, ownKeys⟩ => ⟨initial.wellFormed, .inl (initial.beforeIco ownKeys)⟩)
    (fun before action after ⟨formed, phase⟩ stepped => by
      refine ⟨(formed.step stepped).1, ?_⟩
      rcases phase with beforeIco | ⟨hash, member⟩
      · rcases beforeIco.step formed stepped with again | ⟨genesis, ledger, node⟩
        · exact .inl again
        · rw [node]
          exact .inr ⟨genesis, Finmap.mem_insert.mpr (.inl rfl)⟩
      · exact .inr ⟨hash, (formed.publishes stepped).globState hash member⟩)
  obtain ⟨formed, beforeIco | ⟨hash, member⟩⟩ := invariant last (by omega)
  · have stepped := run.steps last (by omega)
    rcases beforeIco.step formed stepped with again | ⟨genesis, ledger, node⟩
    · rw [again.globState] at offered
      simp at offered
    · constructor
      · refine ⟨⟨run.weaken fun _ start => start.1, congrArg run.states length⟩, ?_, offered, ?_⟩
        · rw [node]
          exact beforeIco.chain
        · rw [node]
          exact beforeIco.txBlockRef
      · rw [node]
        exact beforeIco.txPool
      · rw [node]
        exact beforeIco.ownKeys
  · rw [first] at member
    exact absurd member Finmap.notMem_empty

/-! ## Spendable transactions -/

/-- All inputs of a transaction are present and belong to its public key. -/
def SignedTransaction.OwnsInputs (crypto : Crypto) (ledger : Ledger) (tx : SignedTransaction) :
    Prop :=
  ∀ i < tx.transaction.inputPrevious.length, ∃ key coin,
    tx.transaction.lookupKey i = some key ∧ ledger.lookup key = some coin ∧
      coin.2 = addressOf crypto tx.sig.key

/-- Every pooled transaction is signed correctly and spends coins of its public
key that are in the ledger of the tip. -/
def Spendable (crypto : Crypto) (node : Node) : Prop :=
  ∀ hash tx, node.txPool.lookup hash = some tx → tx.verified crypto = true ∧
    ∃ ledger, node.globState.lookup node.blockchain.tip = some ledger ∧
      tx.OwnsInputs crypto ledger

theorem unspent_iff {transaction : Transaction} {ledger : Ledger} :
    transaction.unspent ledger = true ↔ ∀ i < transaction.inputPrevious.length,
      ∃ key, transaction.lookupKey i = some key ∧ key ∈ ledger := by
  simp [Transaction.unspent, Option.any_eq_true]

/-- The inputs that are present in another ledger belong to the same key there,
when an outpoint has one coin. -/
theorem SignedTransaction.OwnsInputs.other {tx : SignedTransaction} {ledger other : Ledger}
    (owns : tx.OwnsInputs crypto ledger) (unspent : tx.transaction.unspent other = true)
    (unique : ∀ outpoint coin otherCoin, ledger.lookup outpoint = some coin →
      other.lookup outpoint = some otherCoin → coin = otherCoin) :
    tx.OwnsInputs crypto other := by
  intro i bound
  obtain ⟨key, coin, keyed, found, owner⟩ := owns i bound
  obtain ⟨otherKey, otherKeyed, present⟩ := unspent_iff.mp unspent i bound
  rw [keyed, Option.some.injEq] at otherKeyed
  subst otherKeyed
  obtain ⟨otherCoin, otherFound⟩ := HashMap.lookup_of_mem present
  exact ⟨key, otherCoin, keyed, otherFound, unique key coin otherCoin found otherFound ▸ owner⟩

theorem Passes.ownsInputs {node : Node} {tip : H256} {tx : SignedTransaction}
    (passes : Passes crypto node tip tx) : tx.verified crypto = true ∧
      ∃ ledger, node.globState.lookup tip = some ledger ∧ tx.OwnsInputs crypto ledger := by
  obtain ⟨verified, ledger, _, tipState, -, owned, -, -⟩ := passes
  refine ⟨verified, ledger, tipState, fun i bound => ?_⟩
  have tested := allM_eq_some_true.mp owned i (List.mem_range.mpr bound)
  simp only [Option.bind_eq_bind, Option.bind_eq_some_iff, Option.pure_def, Option.some.injEq,
    decide_eq_true_eq] at tested
  obtain ⟨key, keyed, coin, found, owner⟩ := tested
  exact ⟨key, coin, keyed, found, owner⟩

theorem ownsInputs_of_generateAll
    (correct : ∀ key message,
      crypto.ed25519Verify (crypto.publicKey key) message (crypto.ed25519Sign key message) = true)
    {node : Node} {ledger : Ledger} (own : node.OwnKeys crypto) (draws : List Draw) :
    ∀ hash tx, (generateAll crypto node ledger draws).node.txPool.lookup hash = some tx →
      node.txPool.lookup hash = some tx ∨
        tx.verified crypto = true ∧ tx.OwnsInputs crypto ledger := by
  induction draws generalizing node with
  | nil => exact fun _ _ pooled => .inl pooled
  | cons draw draws ih =>
      unfold generateAll
      split
      · exact fun _ _ pooled => .inl pooled
      next next sent passed =>
      simp only [generateFrom, bind_eq_ok, index_eq_ok] at passed
      obtain ⟨coin, found, passed⟩ := passed
      split at passed
      · cases passed
        exact ih own
      next key owned =>
      split at passed
      · cases passed
        exact ih own
      simp only [bind_eq_ok, index_eq_ok] at passed
      obtain ⟨newTrans, built, passed⟩ := passed
      cases passed
      intro hash tx pooled
      have ownNext : Node.OwnKeys crypto
          { node with txPool := node.txPool.insert (newTrans.hash crypto) newTrans } := own
      rcases ih ownNext hash tx pooled with earlier | made
      · rw [HashMap.lookup_insert_ite] at earlier
        split at earlier
        · cases earlier
          right
          simp only [buildTransaction, Option.bind_eq_bind, Option.bind_eq_some_iff,
            Option.pure_def, Option.some.injEq] at built
          obtain ⟨dest, -, rfl⟩ := built
          refine ⟨correct key _, fun i bound => ⟨draw.outpoint, coin, ?_, found, own _ _ owned⟩⟩
          have oneOfTwo : i = 0 ∨ i = 1 := by
            change i < 2 at bound
            omega
          rcases oneOfTwo with rfl | rfl <;> rfl
        · exact .inl earlier
      · exact .inr made

/-! ## Pending transactions -/

def Task.isTransaction : Task → Bool
  | .transaction _ _ => true
  | _ => false

/-- The worker is not in the middle of a list of transactions, or all that is
left are transactions to be checked against the tip. -/
def PendingAtTip (state : State) : Prop :=
  (∀ task ∈ state.todo, task.isTransaction = false) ∨
    ∀ task ∈ state.todo, ∃ each, task = .transaction state.node.blockchain.tip each

theorem Message.pendingAtTip (state : State) (message : Message) :
    PendingAtTip { state with todo := message.tasks state.node } := by
  cases message with
  | transactions transactionVec =>
      right
      intro task member
      obtain ⟨each, -, rfl⟩ := List.mem_map.mp member
      exact ⟨each, rfl⟩
  | ico _ _ =>
      left
      intro task member
      rw [Message.tasks, List.mem_singleton] at member
      rw [member]
      rfl
  | newAddr _ | newTransactionHashes _ | getTransactions _ | newTransactionBlockHashes _
  | getTransactionBlocks _ | transactionBlocks _ | newProposerBlockHashes _
  | getProposerBlocks _ | proposerBlocks _ =>
      left
      intro task member
      obtain ⟨each, -, rfl⟩ := List.mem_map.mp member
      rfl

/-- The tip does not move between the transactions of a message. -/
theorem PendingAtTip.step {before after : State} {action : Action}
    (pending : PendingAtTip before) (formed : before.WellFormed crypto)
    (stepped : before.step crypto action = some after) : PendingAtTip after := by
  cases formed.cases stepped with
  | receive message idle => exact message.pendingAtTip before
  | looked _ _ => exact pending
  | ico idle | generated _ _ _ _ idle _ _ | mined _ _ idle _ | minerPanicked _ _ idle _ =>
      exact .inl (by simp [idle])
  | panicked _ _ _ _ _ => exact .inl (by simp)
  | ran task rest node todo next effect =>
      rcases pending with others | transactions
      · left
        intro other member
        rcases List.mem_append.mp member with new | old
        · cases effect with
          | skip | addr _ _ | ico _ _ _ | transaction _ _ _ _ _ _ _ _ _ _ _
          | transactionBlock _ _ _ _ | buffer _ _ _ _ => cases new
          | accept _ each _ _ _ _ =>
              rw [List.mem_singleton.mp new]
              rfl
          | release _ vec _ =>
              obtain ⟨each, -, rfl⟩ := List.mem_map.mp new
              rfl
        · exact others other (by simp [next, old])
      · obtain ⟨each, rfl⟩ := transactions task (by simp [next])
        -- handling a transaction leaves the tree alone
        have kept : node.blockchain = before.node.blockchain ∧ todo = [] := by
          cases effect with
          | skip | transaction _ _ _ _ _ _ _ _ _ _ _ => exact ⟨rfl, rfl⟩
          | accept _ _ _ checks _ _ => cases checks
        right
        intro other member
        rw [kept.2, List.nil_append] at member
        rw [kept.1]
        exact transactions other (by simp [next, member])

/-! ## Runs -/

section Runs

variable {allAddr : List H160}

theorem FirstIco.pendingAtTip {state : State} (first : FirstIco crypto allAddr state) :
    PendingAtTip state := by
  obtain ⟨run, rfl⟩ := first.afterIco.reached
  have invariant := run.invariant (fun state => state.WellFormed crypto ∧ PendingAtTip state)
    (fun _ initial => ⟨initial.wellFormed, .inl (by simp [initial.1])⟩)
    (fun _ _ _ ⟨formed, pending⟩ stepped => ⟨(formed.step stepped).1, pending.step formed stepped⟩)
  exact (invariant run.length (le_refl _)).2

theorem Node.OwnKeys.step {before after : State} {action : Action}
    (own : before.node.OwnKeys crypto) (formed : before.WellFormed crypto)
    (stepped : before.step crypto action = some after) : after.node.OwnKeys crypto := by
  have same : after.node.myAddrKey = before.node.myAddrKey := by
    cases formed.cases stepped with
    | receive _ _ | looked _ _ | ico _ => rfl
    | generated _ _ _ _ _ _ generated => rw [generated.onlyPool]
    | minerPanicked _ _ _ failure => rw [failure.onlyRefs]
    | panicked task _ _ next failure =>
        rw [failure.onlyRefs formed.node (formed.grounded next)]
    | mined _ _ _ mined =>
        cases mined with
        | nothing | transaction _ _ _ _ _ _ _ _ _ _ => rfl
        | proposer _ _ _ _ _ _ _ _ _ _ accepts => exact accepts.myAddrKey
    | ran _ _ _ _ _ effect =>
        cases effect with
        | skip | addr _ _ | ico _ _ _ | transaction _ _ _ _ _ _ _ _ _ _ _
        | transactionBlock _ _ _ _ | release _ _ _ => rfl
        | buffer each _ _ _ => rw [bufferOrphan_eq]
        | accept _ _ _ _ _ applied =>
            obtain ⟨_, _, _, accepts⟩ := accepts_of_apply applied
            exact accepts.myAddrKey
  rw [Node.OwnKeys, same]
  exact own

/-- A mempool that only loses transactions stays spendable while the tip and its
ledger stay. -/
theorem Spendable.of_sub {before after : Node} (spendable : Spendable crypto before)
    (sub : ∀ hash tx, after.txPool.lookup hash = some tx → before.txPool.lookup hash = some tx)
    (sameTip : after.blockchain.tip = before.blockchain.tip)
    (sameLedger : after.globState.lookup before.blockchain.tip =
      before.globState.lookup before.blockchain.tip) : Spendable crypto after := by
  intro hash tx pooled
  rw [sameTip, sameLedger]
  exact spendable hash tx (sub hash tx pooled)

/-- An applied block leaves a spendable mempool, whether it becomes the tip or not. -/
theorem Spendable.accepts {before after : Node} {block : ProposerBlock}
    {parentLedger ledger : Ledger} {txs : List SignedTransaction}
    (spendable : Spendable crypto before)
    (accepts : Accepts crypto before block parentLedger txs ledger after)
    (unique : ∀ tipLedger, before.globState.lookup before.blockchain.tip = some tipLedger →
      ∀ outpoint coin other, tipLedger.lookup outpoint = some coin →
        ledger.lookup outpoint = some other → coin = other)
    (prunes : Prunes ledger before.txPool after.txPool) : Spendable crypto after := by
  by_cases becomesTip : after.blockchain.tip = block.hash crypto
  · intro hash tx pooled
    obtain ⟨earlier, unspent⟩ := (prunes hash tx).mp pooled
    obtain ⟨verified, tipLedger, tipState, owns⟩ := spendable hash tx earlier
    refine ⟨verified, ledger, ?_, owns.other unspent (unique tipLedger tipState)⟩
    rw [becomesTip, accepts.globState, Finmap.lookup_insert]
  · have sameTip := accepts.tip_cases.resolve_left becomesTip
    exact spendable.of_sub (fun hash tx pooled => ((prunes hash tx).mp pooled).1) sameTip
      (accepts.globState_of_ne (sameTip ▸ becomesTip))

/-- An empty block on top of the tip hands the ledger of the tip on. -/
theorem Spendable.copied {before after : Node} {block : ProposerBlock} {ledger : Ledger}
    (spendable : Spendable crypto before)
    (accepts : Accepts crypto before block ledger [] ledger after)
    (parent : block.header.proposerParent = before.blockchain.tip)
    (txPool : after.txPool = before.txPool) : Spendable crypto after := by
  by_cases becomesTip : after.blockchain.tip = block.hash crypto
  · intro hash tx pooled
    rw [txPool] at pooled
    have sameLedger : after.globState.lookup after.blockchain.tip =
        before.globState.lookup before.blockchain.tip := by
      rw [becomesTip, accepts.globState, Finmap.lookup_insert, ← parent, accepts.parentState]
    rw [sameLedger]
    exact spendable hash tx pooled
  · have sameTip := accepts.tip_cases.resolve_left becomesTip
    refine spendable.of_sub (fun hash tx pooled => ?_) sameTip
      (accepts.globState_of_ne (sameTip ▸ becomesTip))
    rwa [txPool] at pooled

section Step

variable {before after : State} {action : Action}

/-- No step makes a pooled transaction lose an input at the tip. -/
theorem Spendable.step
    (correct : ∀ key message,
      crypto.ed25519Verify (crypto.publicKey key) message (crypto.ed25519Sign key message) = true)
    (spendable : Spendable crypto before.node) (pending : PendingAtTip before)
    (own : before.node.OwnKeys crypto) (formed : before.WellFormed crypto)
    (published : before.node.Published)
    (unique : ∀ tipLedger, before.node.globState.lookup before.node.blockchain.tip =
        some tipLedger →
      ∀ block parentLedger txs ledger,
        Accepts crypto before.node block parentLedger txs ledger after.node →
        ∀ outpoint coin other, tipLedger.lookup outpoint = some coin →
          ledger.lookup outpoint = some other → coin = other)
    (stepped : before.stepAfterIco crypto action = some after) :
    Spendable crypto after.node := by
  obtain ⟨original, notIco⟩ := step_of_stepAfterIco stepped
  cases poolCases_of_step formed original with
  | kept same _ | panicked same _ =>
      refine spendable.of_sub (fun hash tx pooled => ?_) ?_ ?_
      · rwa [same.txPool] at pooled
      · rw [same.blockchain]
      · rw [same.globState]
  | offered _ _ offer _ =>
      rcases offer with ico | noLedger
      · exact absurd ico notIco
      · have genesis := (published _ formed.node.chain.genesis).1
        rw [noLedger] at genesis
        exact absurd genesis Finmap.notMem_empty
  | admitted tip each rest _ next admits node =>
      have atTip : tip = before.node.blockchain.tip := by
        have queued : Task.transaction tip each ∈ before.todo := by simp [next]
        rcases pending with others | transactions
        · cases others _ queued
        · obtain ⟨_, same⟩ := transactions _ queued
          cases same
          rfl
      rw [node]
      apply HashMap.forall_lookup_insert spendable
      exact atTip ▸ admits.passes.ownsInputs
  | generated draws _ node =>
      rw [node, generatorLoop]
      split
      · exact spendable
      · next ledger tipState =>
          intro hash tx pooled
          rw [(generated_of_generateAll draws).onlyPool]
          rcases ownsInputs_of_generateAll correct own draws hash tx pooled with
            earlier | ⟨verified, owns⟩
          · exact spendable hash tx earlier
          · exact ⟨verified, ledger, tipState, owns⟩
  | packed block _ node =>
      rw [node]
      exact spendable.of_sub (fun hash tx kept => (lookup_removeTransactions.mp kept).1) rfl rfl
  | copied block ledger mines accepts txPool =>
      exact spendable.copied accepts mines.parent txPool
  | accepted block parentLedger txs ledger _ accepts prunes =>
      refine spendable.accepts accepts (fun tipLedger tipState => ?_) prunes
      exact unique tipLedger tipState block parentLedger txs ledger accepts

end Step

/-- After the first offering the mempool is spendable at the tip in every state
of every run: each pooled transaction is signed correctly, its inputs are in the
ledger of the tip, and they belong to the address of its public key. -/
theorem spendable_of_run
    (correct : ∀ key message,
      crypto.ed25519Verify (crypto.publicKey key) message (crypto.ed25519Sign key message) = true)
    (run : Run (State.stepAfterIco crypto) (FirstIco crypto allAddr))
    (identified : Identified crypto (Applied (run.weaken fun _ first => first.afterIco))) :
    ∀ index ≤ run.length, Spendable crypto (run.states index).node := by
  have always : ∀ index ≤ run.length, Spendable crypto (run.states index).node ∧
      PendingAtTip (run.states index) ∧ (run.states index).node.OwnKeys crypto := by
    intro index bound
    have formed : ∀ index ≤ run.length, (run.states index).WellFormed crypto ∧
        (run.states index).node.Published :=
      published_of_run (run.weaken fun _ first => first.afterIco)
    have chains : ∀ index ≤ run.length, ∀ hash ∈ (run.states index).node.blockchain.blocks,
        ∀ ledger, (run.states index).node.globState.lookup hash = some ledger →
          ∃ history, Extends (run.weaken fun _ first => first.afterIco)
            (genesisHash crypto, icoState allAddr) history (hash, ledger) :=
      extends_of_published (run.weaken fun _ first => first.afterIco)
    induction index with
    | zero =>
        have first := run.starts
        refine ⟨fun hash tx pooled => ?_, first.pendingAtTip, first.ownKeys⟩
        rw [first.txPool] at pooled
        simp at pooled
    | succ index ih =>
        obtain ⟨spendable, pending, own⟩ := ih (by omega)
        obtain ⟨formed, published⟩ := formed index (by omega)
        have stepped := run.steps index bound
        have original := (step_of_stepAfterIco stepped).1
        refine ⟨?_, pending.step formed original, own.step formed original⟩
        refine spendable.step correct pending own formed published ?_ stepped
        -- both ledgers stand at the end of a chain from genesis
        intro tipLedger tipState block parentLedger txs ledger accepts outpoint coin other
        obtain ⟨history, chain⟩ :=
          chains index (by omega) _ formed.node.chain.tip tipLedger tipState
        have blockState : (run.states (index + 1)).node.globState.lookup
            (block.hash crypto) = some ledger := by
          rw [accepts.globState, Finmap.lookup_insert]
        obtain ⟨blockHistory, blockChain⟩ :=
          chains (index + 1) bound _ accepts.hash_mem ledger blockState
        exact identified.coin_unique (original_icoState allAddr) chain.subset_applied
          blockChain.subset_applied chain.applied blockChain.applied
  exact fun index bound => (always index bound).1

end Runs

theorem firstIco_sample : FirstIco Crypto.sample [.sample] State.sample := by
  refine ⟨afterIco_sample, rfl, ?_⟩
  intro addr key found
  change ((∅ : HashMap H160 KeyPair).insert .sample .sample).lookup addr = some key at found
  rw [HashMap.lookup_insert_ite] at found
  split at found
  · next same =>
      cases found
      exact same
  · simp at found

/-- After the spending run the node generates transactions from the new tip. -/
def pooledRun : Run (State.stepAfterIco Crypto.sample) (FirstIco Crypto.sample [.sample]) :=
  let hash := SignedTransaction.sample.hash Crypto.sample
  Run.ofActions State.sample firstIco_sample
    (spendingActions ++ [.generate [⟨(hash, 0), 0, 99⟩, ⟨(hash, 1), 0, 199⟩]])
    (by decide +kernel)

theorem spendable_pooledRun :
    Spendable Crypto.sample (pooledRun.states 4).node ∧
      (pooledRun.states 4).node.txPool ≠ ∅ ∧
      (pooledRun.states 4).node.blockchain.tip = sampleHash 2 := by
  have correct : ∀ key message, Crypto.sample.ed25519Verify (Crypto.sample.publicKey key) message
      (Crypto.sample.ed25519Sign key message) = true := by
    simp [Crypto.sample]
  have applied : Applied (pooledRun.weaken fun _ first => first.afterIco) ⊆
      {SignedTransaction.sample} := by
    intro tx applied
    obtain ⟨index, bound, hash, txBlock, found, inside⟩ := pooled_of_applied applied
    have contents : ∀ index < 4, ∀ entry ∈ (pooledRun.states index).node.txBlockPool.entries,
        entry.2.content.transactionContent = [SignedTransaction.sample] := by
      decide +kernel
    have stored := contents index bound ⟨hash, txBlock⟩
      ((HashMap.mem_entries_iff _ hash txBlock).mpr found)
    rw [stored] at inside
    exact List.mem_singleton.mp inside
  have identified : Identified Crypto.sample
      (Applied (pooledRun.weaken fun _ first => first.afterIco)) := by
    constructor
    · intro tx inside other otherInside _
      rw [applied inside, applied otherInside]
    · intro tx inside
      rw [applied inside]
      decide +kernel
    · intro tx inside
      rw [applied inside]
      decide
  exact ⟨spendable_of_run correct pooledRun identified 4 (by decide), by decide +kernel,
    by decide +kernel⟩

end SimplifiedPrism
