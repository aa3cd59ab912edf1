import SimplifiedPrism.AddressGossip
import SimplifiedPrism.Admission
import SimplifiedPrism.MinerAcceptance

/-!
# What other nodes admit from a generator

The generator builds a transaction that lists its input once per output, the
handler of transactions adds up an output for every input and keeps the value of
the last input, and the ledger update writes an output for every input and
removes the last one.  For a coin that one of the node's own addresses holds the
three agree: the transaction is built without an arithmetic panic, every node
with the same ledger admits it, and the update replaces the coin by two that
share out its value.
-/

namespace SimplifiedPrism

variable {crypto : Crypto}

/-! ## Own addresses -/

/-- The addresses of a node belong to its keys and are in the list of all addresses. -/
structure Node.OwnsAddresses (crypto : Crypto) (node : Node) : Prop where
  ownKeys : node.OwnKeys crypto
  known : ∀ addr ∈ node.myAddrKey, addr ∈ node.allAddr

/-- The own keys are the same, and no address is forgotten. -/
structure Node.KeepsAddresses (before after : Node) : Prop where
  myAddrKey : after.myAddrKey = before.myAddrKey
  allAddr : ∀ addr ∈ before.allAddr, addr ∈ after.allAddr

theorem Node.KeepsAddresses.refl (node : Node) : node.KeepsAddresses node :=
  ⟨rfl, fun _ known => known⟩

theorem Node.KeepsAddresses.trans {before middle after : Node}
    (first : before.KeepsAddresses middle) (second : middle.KeepsAddresses after) :
    before.KeepsAddresses after :=
  ⟨second.myAddrKey.trans first.myAddrKey,
    fun addr known => second.allAddr addr (first.allAddr addr known)⟩

theorem Node.OwnsAddresses.of_keeps {before after : Node} (owns : before.OwnsAddresses crypto)
    (keeps : before.KeepsAddresses after) : after.OwnsAddresses crypto := by
  constructor
  · rw [Node.OwnKeys, keeps.myAddrKey]
    exact owns.ownKeys
  · intro addr own
    rw [keeps.myAddrKey] at own
    exact keeps.allAddr addr (owns.known addr own)

theorem Node.OwnsAddresses.generateAddress {node : Node} (owns : node.OwnsAddresses crypto)
    (key : KeyPair) : (generateAddress crypto node key).node.OwnsAddresses crypto := by
  refine ⟨owns.ownKeys.generateAddress key, fun addr own => ?_⟩
  simp only [SimplifiedPrism.generateAddress, Finmap.mem_insert] at own
  simp only [SimplifiedPrism.generateAddress, List.mem_append, List.mem_singleton]
  rcases own with new | old
  · exact .inr new
  · exact .inl (owns.known addr old)

section Steps

variable {node after : Node}

theorem Effect.keepsAddresses {task : Task} {todo : List Task}
    (effect : Effect crypto node task after todo) : node.KeepsAddresses after := by
  cases effect with
  | skip _ | ico _ _ _ | transaction _ _ _ _ _ _ _ _ _ _ _ | transactionBlock _ _ _ _
  | release _ _ _ => exact ⟨rfl, fun _ known => known⟩
  | addr each _ => exact ⟨rfl, fun _ known => List.mem_append_left _ known⟩
  | buffer each _ _ _ =>
      rw [bufferOrphan_eq]
      exact ⟨rfl, fun _ known => known⟩
  | accept _ _ _ _ _ applied =>
      obtain ⟨_, _, _, accepts⟩ := accepts_of_apply applied
      exact ⟨accepts.myAddrKey, fun _ known => accepts.allAddr ▸ known⟩

theorem keepsAddresses_of_runTasks (node : Node) (todo : List Task)
    (completed : (runTasks crypto node todo).panic = none) :
    node.KeepsAddresses (runTasks crypto node todo).node := by
  fun_induction runTasks crypto node todo with
  | case1 node => exact .refl node
  | case2 node task rest panicked ran => cases completed
  | case3 node task rest progress ran outcome ih =>
      exact (effect_of_run ran).keepsAddresses.trans (ih completed)

theorem Mined.keepsAddresses {hashed : Option Header} (mined : Mined crypto node hashed after) :
    node.KeepsAddresses after := by
  cases mined with
  | nothing | transaction _ _ _ _ _ _ _ _ _ _ => exact ⟨rfl, fun _ known => known⟩
  | proposer _ _ _ _ _ _ _ _ _ _ accepts =>
      exact ⟨accepts.myAddrKey, fun _ known => accepts.allAddr ▸ known⟩

theorem Node.OwnsAddresses.performed {Peer : Type*} {network : Network Peer}
    {event : Network.Event Peer} {outcome : Outcome}
    (owns : (network.nodes event.actor).OwnsAddresses crypto)
    (performed : Performed crypto network event outcome) (completed : outcome.panic = none) :
    outcome.node.OwnsAddresses crypto := by
  cases performed with
  | deliver packet _ _ served =>
      subst served
      exact owns.of_keeps (keepsAddresses_of_runTasks _ _ completed)
  | mine peer choice progress possible ran =>
      exact owns.of_keeps (mined_of_minerLoop possible ran).keepsAddresses
  | mineAttacker peer choice progress ran =>
      exact owns.of_keeps (mined_of_minerLoopAttacker ran).keepsAddresses
  | generateAddress peer key => exact owns.generateAddress key
  | generate peer draws =>
      rcases @generated_of_round crypto (network.nodes peer) draws with
        same | ⟨_, -, generated⟩
      · rw [same]
        exact owns
      · rw [generated.onlyPool]
        exact owns.of_keeps ⟨rfl, fun _ known => known⟩
  | ico peer => exact owns.of_keeps ⟨rfl, fun _ known => known⟩

end Steps

theorem ownsAddresses_of_run {Peer : Type*} [DecidableEq Peer] {graph : Graph Peer}
    (run : Run (Network.step crypto graph) (Network.Initial crypto)) {index : Nat}
    (bound : index ≤ run.length) (peer : Peer) :
    ((run.states index).nodes peer).OwnsAddresses crypto := by
  refine run.invariant (fun network => ∀ peer, (network.nodes peer).OwnsAddresses crypto)
    ?_ ?_ index bound peer
  · rintro network ⟨nodes, -⟩ peer
    rw [nodes]
    constructor
    · intro addr key found
      simp [Node.initial] at found
    · intro addr own
      exact absurd own Finmap.notMem_empty
  · intro before event after owns stepped peer
    obtain ⟨outcome, performs, completed, -, nodes, -⟩ := Network.step_cases stepped
    rw [nodes]
    by_cases own : peer = event.actor
    · subst own
      rw [Function.update_self]
      exact (owns _).performed (performed_of_perform performs completed) completed
    · rw [Function.update_of_ne own]
      exact owns peer

/-! ## The transaction of one coin -/

/-- The arithmetic of the generator on one draw: nothing is divided by zero, and
neither the addition nor the subtraction wraps around. -/
structure Draw.InRange (draw : Draw) (allAddr : List H160) (coin : Coin) : Prop where
  recipients : allAddr.length ≠ 0
  divisor : coin.1.toNat ≠ 0
  sum : 1 + draw.value.toNat % coin.1.toNat < 2 ^ 32
  difference : 1 + draw.value.toNat % coin.1.toNat ≤ coin.1.toNat

section Coin

variable {allAddr : List H160} {key : KeyPair} {draw : Draw} {coin : Coin}

theorem Draw.inRange (nonempty : allAddr ≠ []) (nonzero : coin.1 ≠ 0) :
    draw.InRange allAddr coin := by
  have divisor : coin.1.toNat ≠ 0 := fun zero => nonzero (UInt32.toNat_inj.mp zero)
  have remainder := Nat.mod_lt draw.value.toNat (Nat.pos_of_ne_zero divisor)
  have value := coin.1.toNat_lt
  refine ⟨fun empty => nonempty (List.eq_nil_of_length_eq_zero empty), divisor, ?_, ?_⟩
  · omega
  · omega

/-- A recipient is found among the addresses, and the two outputs are all there is. -/
theorem exists_build (nonempty : allAddr ≠ []) (nonzero : coin.1 ≠ 0) :
    ∃ newTrans first second, buildTransaction crypto allAddr key draw coin = some newTrans ∧
      newTrans.sig.key = crypto.publicKey key ∧
      newTrans.transaction.outputValue = [first.1, second.1] ∧
      newTrans.transaction.outputAddress = [first.2, second.2] ∧
      SpendsTwice newTrans draw.outpoint first second ∧
      first.1.toNat + second.1.toNat = coin.1.toNat := by
  have positive : 0 < allAddr.length := List.length_pos_of_ne_nil nonempty
  have chosen : draw.dest.toNat % allAddr.length < allAddr.length := Nat.mod_lt _ positive
  obtain ⟨newTrans, built⟩ : ∃ newTrans,
      buildTransaction crypto allAddr key draw coin = some newTrans := by
    simp [buildTransaction, List.getElem?_eq_getElem chosen]
  obtain ⟨first, second, spends, shared⟩ := spendsTwice_of_build nonzero built
  have made := built
  simp only [buildTransaction, Option.bind_eq_bind, Option.bind_eq_some_iff, Option.pure_def,
    Option.some.injEq] at made
  obtain ⟨dest, -, rfl⟩ := made
  cases spends.output0
  cases spends.output1
  exact ⟨_, _, _, built, rfl, rfl, rfl, spends, shared⟩

end Coin

section Admission

variable {newTrans : SignedTransaction} {outpoint : Outpoint} {first second coin : Coin}
variable {currentState : Ledger}

/-- The sums of the outputs never exceed what the two are worth together. -/
theorem outputTotal_le_of_pair
    (values : newTrans.transaction.outputValue = [first.1, second.1]) (count : Nat) :
    newTrans.transaction.outputTotal count ≤ first.1.toNat + second.1.toNat := by
  have whole : newTrans.transaction.outputTotal 2 = first.1.toNat + second.1.toNat := by
    simp [Transaction.outputTotal, values]
  by_cases short : count ≤ 2
  · exact whole ▸ outputTotal_mono short
  · rw [Transaction.outputTotal, values, List.take_of_length_le (by simp; omega)]
    simp

theorem SpendsTwice.ownsInputs (spends : SpendsTwice newTrans outpoint first second)
    (found : currentState.lookup outpoint = some coin)
    (owner : coin.2 = addressOf crypto newTrans.sig.key) :
    newTrans.OwnsInputs crypto currentState := by
  intro i bound
  rw [spends.inputs] at bound
  have oneOfTwo : i = 0 ∨ i = 1 := by omega
  rcases oneOfTwo with rfl | rfl
  · exact ⟨outpoint, coin, spends.input0, found, owner⟩
  · exact ⟨outpoint, coin, spends.input1, found, owner⟩

/-- The handler keeps the value of the last input and adds up both outputs, so that it
admits a transaction that shares out the value of its coin. -/
theorem SpendsTwice.admits (spends : SpendsTwice newTrans outpoint first second)
    (verified : newTrans.verified crypto = true)
    (values : newTrans.transaction.outputValue = [first.1, second.1])
    (found : currentState.lookup outpoint = some coin)
    (owner : coin.2 = addressOf crypto newTrans.sig.key)
    (shared : first.1.toNat + second.1.toNat = coin.1.toNat)
    {receiver : Node} {tip : H256} (tipState : receiver.globState.lookup tip = some currentState)
    (fresh : newTrans.hash crypto ∉ receiver.txPool) :
    Admits crypto receiver tip newTrans := by
  have owns := spends.ownsInputs found owner
  obtain ⟨unspent, owned⟩ := loops_of_owned owns
  have long : newTrans.transaction.inputPrevious.length ≤
      newTrans.transaction.outputValue.length := spends.wellShaped.values
  obtain ⟨sums, summed, last, total⟩ := sumsLoop_of_owned owns (le_refl _) long
  refine ⟨fresh, verified, currentState, sums, tipState, unspent, owned, summed, ?_⟩
  have lastInput : sums.1.toNat = coin.1.toNat := by
    rw [last, spends.inputs, if_neg (by omega), spends.input1]
    simp [Ledger.valueAt, HashMap.weightAt_of_lookup found]
  have within := outputTotal_le_of_pair values newTrans.transaction.inputPrevious.length
  have less := Nat.mod_le (newTrans.transaction.outputTotal
    newTrans.transaction.inputPrevious.length) (2 ^ 32)
  rw [UInt32.lt_iff_toNat_lt]
  omega

end Admission

/-- For every ledger, every coin in it that one of the node's own addresses holds and
every draw, the generator builds a transaction within the range of `u32`.  Every
node with this ledger at its tip admits it when it is new, and the update of the
ledger replaces the coin by the two outputs, which share out its value. -/
theorem admitted_of_generated
    (correct : ∀ key message,
      crypto.ed25519Verify (crypto.publicKey key) message (crypto.ed25519Sign key message) = true)
    {Peer : Type*} [DecidableEq Peer] {graph : Graph Peer}
    (run : Run (Network.step crypto graph) (Network.Initial crypto)) {index : Nat}
    (bound : index ≤ run.length) (peer : Peer) {node : Node}
    (same : (run.states index).nodes peer = node) {currentState : Ledger} {draw : Draw}
    {coin : Coin} (found : currentState.lookup draw.outpoint = some coin) (nonzero : coin.1 ≠ 0)
    (owned : coin.2 ∈ node.myAddrKey) :
    ∃ newTrans first second,
      generateFrom crypto node currentState draw = .ok
        ({ node with txPool := node.txPool.insert (newTrans.hash crypto) newTrans },
          [.broadcast (.newTransactionHashes [newTrans.hash crypto])]) ∧
      draw.InRange node.allAddr coin ∧
      (∀ count, newTrans.transaction.outputTotal count < 2 ^ 32) ∧
      (∀ receiver tip, receiver.globState.lookup tip = some currentState →
        newTrans.hash crypto ∉ receiver.txPool →
        handleTransaction crypto receiver tip newTrans = .ok
          { node := { receiver with
              txPool := receiver.txPool.insert (newTrans.hash crypto) newTrans }
            sent := [.broadcast (.newTransactionHashes [newTrans.hash crypto])] }) ∧
      newTrans.transaction.outputValue = [first.1, second.1] ∧
      newTrans.transaction.outputAddress = [first.2, second.2] ∧
      first.1.toNat + second.1.toNat = coin.1.toNat ∧
      ((∀ idx, (newTrans.hash crypto, idx) ∉ currentState) →
        ∃ after, updateState crypto currentState newTrans = some after ∧
          after.lookup draw.outpoint = none ∧
          after.lookup (newTrans.hash crypto, 0) = some first ∧
          after.lookup (newTrans.hash crypto, 1) = some second ∧
          ∀ other, other ≠ draw.outpoint → other ≠ (newTrans.hash crypto, 0) →
            other ≠ (newTrans.hash crypto, 1) →
              after.lookup other = currentState.lookup other) := by
  have owns : node.OwnsAddresses crypto := same ▸ ownsAddresses_of_run run bound peer
  obtain ⟨key, keyed⟩ := HashMap.lookup_of_mem owned
  have nonempty : node.allAddr ≠ [] := List.ne_nil_of_mem (owns.known coin.2 owned)
  obtain ⟨newTrans, first, second, built, signer, values, addresses, spends, shared⟩ :=
    @exists_build crypto node.allAddr key draw coin nonempty nonzero
  have sound := sound_of_build correct nonzero built
  have owner : coin.2 = addressOf crypto newTrans.sig.key := by
    rw [signer]
    exact owns.ownKeys coin.2 key keyed
  refine ⟨newTrans, first, second, ?_, Draw.inRange nonempty nonzero, fun count => ?_,
    fun receiver tip tipState fresh => ?_, values, addresses, shared, fun fresh => ?_⟩
  · simp [generateFrom, found, keyed, nonzero, built]
  · have value := coin.1.toNat_lt
    have within := outputTotal_le_of_pair values count
    omega
  · exact (spends.admits sound.1 values found owner shared tipState fresh).ran
  · have present : draw.outpoint ∈ currentState := Finmap.mem_of_lookup_eq_some found
    have apart : ∀ idx, (newTrans.hash crypto, idx) ≠ draw.outpoint := by
      intro idx equal
      exact fresh idx (equal ▸ present)
    refine ⟨_, spends.updateState_of_mem present, ?_, ?_, ?_, fun other spent new0 new1 => ?_⟩
    · rw [lookup_spent, if_pos rfl]
    · rw [lookup_spent, if_neg (apart 0), if_neg (by simp), if_pos rfl]
    · rw [lookup_spent, if_neg (apart 1), if_pos rfl]
    · rw [lookup_spent, if_neg spent, if_neg new1, if_neg new0]

/-- The ledger that the two ends of `addressRun` would offer. -/
def addressState : Ledger :=
  icoState [addressOf Crypto.sample [65], addressOf Crypto.sample [66]]

theorem admitted_addressRun :
    ∃ node newTrans first second after, (addressRun.states 10).nodes .left = node ∧
      generateFrom Crypto.sample node addressState ⟨(H256.zero, 0), 5, 2299⟩ =
        .ok ({ node with txPool := node.txPool.insert (newTrans.hash Crypto.sample) newTrans },
          [.broadcast (.newTransactionHashes [newTrans.hash Crypto.sample])]) ∧
      first.1.toNat + second.1.toNat = 1000 ∧
      updateState Crypto.sample addressState newTrans = some after ∧
      after.lookup (H256.zero, 0) = none ∧
      after.lookup (newTrans.hash Crypto.sample, 0) = some first ∧
      after.lookup (newTrans.hash Crypto.sample, 1) = some second := by
  have correct : ∀ key message, Crypto.sample.ed25519Verify (Crypto.sample.publicKey key) message
      (Crypto.sample.ed25519Sign key message) = true := by
    simp [Crypto.sample]
  have found : addressState.lookup (⟨(H256.zero, 0), 5, 2299⟩ : Draw).outpoint =
      some (1000, addressOf Crypto.sample [65]) := by decide +kernel
  have nonzero : (1000, addressOf Crypto.sample [65]).1 ≠ (0 : UInt32) := by
    change (1000 : UInt32) ≠ 0
    decide
  have owned : addressOf Crypto.sample [65] ∈
      ((addressRun.states 10).nodes .left).myAddrKey := by decide +kernel
  have bound : 10 ≤ addressRun.length := by decide
  obtain ⟨newTrans, first, second, generated, -, -, -, -, -, shared, updates⟩ :=
    admitted_of_generated correct addressRun bound .left rfl found nonzero owned
  have fresh : ∀ idx, (newTrans.hash Crypto.sample, idx) ∉ addressState := by
    intro idx member
    have original : addressState.Original := original_icoState _
    have zero : newTrans.hash Crypto.sample = H256.zero :=
      original (newTrans.hash Crypto.sample, idx) member
    have firstByte := congrArg (fun hash => hash.bytes[0]) zero
    simp [SignedTransaction.hash, Crypto.sample, H256.fill, H256.zero] at firstByte
  obtain ⟨after, updated, spent, new0, new1, -⟩ := updates fresh
  exact ⟨_, newTrans, first, second, after, rfl, generated, shared, updated, spent, new0, new1⟩

end SimplifiedPrism
