import SimplifiedPrism.GeneratorAcceptance
import SimplifiedPrism.LedgerAgreement

/-!
# Balances

A node prints how much money its addresses have in the ledger of its tip.  The
ledgers of a network with one offering are all worth the offering, and every
coin belongs to exactly one node, so that the printed balances of nodes with the
same tip add up to what has been offered.
-/

namespace SimplifiedPrism

variable {crypto : Crypto}

/-! ## The control signal -/

/-- Addition of amounts of money, which panics when it overflows. -/
def addMoney (first second : UInt32) : Except Panic UInt32 :=
  if first.toNat + second.toNat < 2 ^ 32 then .ok (first + second) else .error .arithmetic

/-- One pass of the loop over the ledger: a coin of an own address is added to the
money of the address. -/
def addCoin (node : Node) (myAddrMoney : HashMap H160 UInt32) (coin : Coin) :
    Except Panic (HashMap H160 UInt32) :=
  if coin.2 ∈ node.myAddrKey then
    match myAddrMoney.lookup coin.2 with
    | some x => do
        let sum ← addMoney x coin.1
        return myAddrMoney.insert coin.2 sum
    | none => .ok (myAddrMoney.insert coin.2 coin.1)
  else
    .ok myAddrMoney

/-- The control signal for the balance: what is printed. -/
def handleBalanceSignal (coins : HashMap.Order Outpoint Coin) (money : HashMap.Order H160 UInt32)
    (node : Node) : Except Panic UInt32 := do
  let currState ← index .globState (node.globState.lookup node.blockchain.tip)
  let myAddrMoney ← (coins.entries currState).foldlM
    (fun myAddrMoney entry => addCoin node myAddrMoney entry.2) ∅
  (money.entries myAddrMoney).foldlM (fun total entry => addMoney total entry.2) 0

/-- The value of a coin for a node: nothing if it is not its own. -/
def Node.ownValue (node : Node) (coin : Coin) : Nat :=
  if coin.2 ∈ node.myAddrKey then coin.1.toNat else 0

section Sums

variable {node : Node}

theorem addMoney_eq {first second : UInt32} (bound : first.toNat + second.toNat < 2 ^ 32) :
    ∃ sum, addMoney first second = .ok sum ∧ sum.toNat = first.toNat + second.toNat := by
  refine ⟨first + second, if_pos bound, ?_⟩
  rw [UInt32.toNat_add, Nat.mod_eq_of_lt bound]

theorem addCoin_eq {myAddrMoney : HashMap H160 UInt32} {coin : Coin}
    (bound : myAddrMoney.weight UInt32.toNat + node.ownValue coin < 2 ^ 32) :
    ∃ after, addCoin node myAddrMoney coin = .ok after ∧
      after.weight UInt32.toNat = myAddrMoney.weight UInt32.toNat + node.ownValue coin := by
  unfold addCoin
  unfold Node.ownValue at bound ⊢
  split
  · next own =>
      rw [if_pos own] at bound
      have inserted := HashMap.weight_insert UInt32.toNat myAddrMoney coin.2
      cases found : myAddrMoney.lookup coin.2 with
      | none =>
          refine ⟨_, rfl, ?_⟩
          have added := inserted coin.1
          rw [HashMap.weightAt_of_notMem (Finmap.lookup_eq_none.mp found)] at added
          omega
      | some x =>
          have erased := HashMap.weight_erase UInt32.toNat myAddrMoney coin.2
          rw [HashMap.weightAt_of_lookup found] at erased
          obtain ⟨sum, added, value⟩ : ∃ sum, addMoney x coin.1 = .ok sum ∧ _ :=
            addMoney_eq (by omega)
          refine ⟨_, by simp [added]; rfl, ?_⟩
          have replaced := inserted sum
          rw [HashMap.weightAt_of_lookup found] at replaced
          omega
  · exact ⟨myAddrMoney, rfl, by omega⟩

theorem addCoins_eq (node : Node) (entries : List (Σ _ : Outpoint, Coin))
    (myAddrMoney : HashMap H160 UInt32)
    (bound : myAddrMoney.weight UInt32.toNat +
      (entries.map fun entry => node.ownValue entry.2).sum < 2 ^ 32) :
    ∃ after, entries.foldlM (fun myAddrMoney entry => addCoin node myAddrMoney entry.2)
        myAddrMoney = .ok after ∧
      after.weight UInt32.toNat = myAddrMoney.weight UInt32.toNat +
        (entries.map fun entry => node.ownValue entry.2).sum := by
  induction entries generalizing myAddrMoney with
  | nil => exact ⟨myAddrMoney, rfl, by simp⟩
  | cons entry entries ih =>
      rw [List.map_cons, List.sum_cons] at bound
      obtain ⟨middle, added, value⟩ : ∃ middle, addCoin node myAddrMoney entry.2 = .ok middle ∧ _ :=
        addCoin_eq (by omega)
      obtain ⟨after, looped, total⟩ := ih middle (by omega)
      refine ⟨after, ?_, ?_⟩
      · rw [List.foldlM_cons, added]
        exact looped
      · rw [List.map_cons, List.sum_cons, total, value]
        omega

theorem addMoneys_eq (entries : List (Σ _ : H160, UInt32)) (total : UInt32)
    (bound : total.toNat + (entries.map fun entry => entry.2.toNat).sum < 2 ^ 32) :
    ∃ sum, entries.foldlM (fun total entry => addMoney total entry.2) total = .ok sum ∧
      sum.toNat = total.toNat + (entries.map fun entry => entry.2.toNat).sum := by
  induction entries generalizing total with
  | nil => exact ⟨total, rfl, by simp⟩
  | cons entry entries ih =>
      rw [List.map_cons, List.sum_cons] at bound
      obtain ⟨middle, added, value⟩ : ∃ middle, addMoney total entry.2 = .ok middle ∧ _ :=
        addMoney_eq (by omega)
      obtain ⟨sum, looped, same⟩ := ih middle (by omega)
      refine ⟨sum, ?_, ?_⟩
      · rw [List.foldlM_cons, added]
        exact looped
      · rw [List.map_cons, List.sum_cons, same, value]
        omega

theorem handleBalanceSignal_eq (coins : HashMap.Order Outpoint Coin)
    (money : HashMap.Order H160 UInt32) {currState : Ledger}
    (tipState : node.globState.lookup node.blockchain.tip = some currState)
    (bound : currState.weight node.ownValue < 2 ^ 32) :
    ∃ printed, handleBalanceSignal coins money node = .ok printed ∧
      printed.toNat = currState.weight node.ownValue := by
  have collected := coins.sum_entries node.ownValue currState
  have empty : HashMap.weight UInt32.toNat (∅ : HashMap H160 UInt32) = 0 := rfl
  obtain ⟨myAddrMoney, looped, own⟩ : ∃ after, _ = Except.ok after ∧ _ :=
    addCoins_eq node (coins.entries currState) ∅ (by omega)
  have added := money.sum_entries UInt32.toNat myAddrMoney
  obtain ⟨printed, summed, total⟩ : ∃ sum, _ = Except.ok sum ∧ _ :=
    addMoneys_eq (money.entries myAddrMoney) 0 (by simp; omega)
  refine ⟨printed, ?_, ?_⟩
  · rw [handleBalanceSignal, tipState]
    simp only [index, ok_bind]
    rw [looped, ok_bind, summed]
  · rw [total, added, own, collected, empty]
    simp

/-- When every coin belongs to exactly one node, the own values add up to the total. -/
theorem sum_ownValue {Peer : Type*} [Fintype Peer] (nodes : Peer → Node) {ledger : Ledger}
    (owned : ∀ outpoint coin, ledger.lookup outpoint = some coin →
      ∃ peer, coin.2 ∈ (nodes peer).myAddrKey ∧
        ∀ other, coin.2 ∈ (nodes other).myAddrKey → other = peer) :
    ∑ peer, ledger.weight (nodes peer).ownValue = ledger.total := by
  have swapped : ∑ peer, ledger.weight (nodes peer).ownValue =
      (ledger.entries.map fun entry => ∑ peer, (nodes peer).ownValue entry.2).sum :=
    Multiset.sum_map_sum_map _ _
  rw [swapped, Ledger.total, HashMap.weight]
  congr 1
  apply Multiset.map_congr rfl
  intro entry member
  obtain ⟨peer, owner, unique⟩ :=
    owned entry.1 entry.2 ((HashMap.mem_entries_iff ledger entry.1 entry.2).mp member)
  rw [Finset.sum_eq_single peer]
  · rw [Node.ownValue, if_pos owner]
  · intro other _ different
    rw [Node.ownValue, if_neg fun own => different (unique other own)]
  · exact fun absent => absurd (Finset.mem_univ peer) absent

end Sums

/-! ## Owners -/

section Owners

variable {Peer : Type*} [DecidableEq Peer] {graph : Graph Peer}

omit [DecidableEq Peer] in
theorem mem_myAddrKey_of_performed {network : Network Peer} {event : Network.Event Peer}
    {outcome : Outcome} (performed : Performed crypto network event outcome)
    (completed : outcome.panic = none) (addr : H160) :
    addr ∈ outcome.node.myAddrKey ↔
      addr ∈ (network.nodes event.actor).myAddrKey ∨ addr ∈ event.generated crypto := by
  have same {node : Node} (keys : node.myAddrKey = (network.nodes event.actor).myAddrKey)
      (nothing : event.generated crypto = []) : addr ∈ node.myAddrKey ↔
        addr ∈ (network.nodes event.actor).myAddrKey ∨ addr ∈ event.generated crypto := by
    rw [keys, nothing]
    simp
  cases performed with
  | deliver packet _ _ served =>
      subst served
      exact same (keepsAddresses_of_runTasks _ _ completed).myAddrKey rfl
  | mine peer choice progress possible ran =>
      exact same (mined_of_minerLoop possible ran).keepsAddresses.myAddrKey rfl
  | mineAttacker peer choice progress ran =>
      exact same (mined_of_minerLoopAttacker ran).keepsAddresses.myAddrKey rfl
  | generateAddress peer key =>
      simp only [SimplifiedPrism.generateAddress, Finmap.mem_insert, Network.Event.generated,
        Network.Event.actor, List.mem_singleton]
      tauto
  | generate peer draws =>
      rcases @generated_of_round crypto (network.nodes peer) draws with
        unchanged | ⟨_, -, generated⟩
      · exact same (congrArg Node.myAddrKey unchanged) rfl
      · exact same ((congrArg Node.myAddrKey generated.onlyPool).trans rfl) rfl
  | ico peer => exact same rfl rfl

variable {run : Run (Network.step crypto graph) (Network.Initial crypto)}

theorem mem_myAddrKey_iff {index : Nat} (bound : index ≤ run.length) (peer : Peer) (addr : H160) :
    addr ∈ ((run.states index).nodes peer).myAddrKey ↔
      ∃ earlier < index, (run.actions earlier).actor = peer ∧
        addr ∈ (run.actions earlier).generated crypto := by
  induction index with
  | zero =>
      rw [run.starts.1 peer]
      simp [Node.initial, Finmap.notMem_empty]
  | succ index ih =>
      obtain ⟨outcome, performs, completed, -, nodes, -⟩ :=
        Network.step_cases (run.steps index (by omega))
      have before := ih (by omega)
      have acted := mem_myAddrKey_of_performed (performed_of_perform performs completed) completed
        addr
      rw [nodes]
      simp only [Nat.lt_succ_iff_lt_or_eq, or_and_right, exists_or, exists_eq_left]
      rw [← before]
      by_cases actor : (run.actions index).actor = peer
      · subst actor
        rw [Function.update_self, acted]
        simp
      · rw [Function.update_of_ne (Ne.symm actor)]
        simp [actor]

theorem owner_of_generated (distinct : (generatedAddrs run run.length).Nodup) {index : Nat}
    (bound : index ≤ run.length) {addr : H160} (generated : addr ∈ generatedAddrs run index) :
    ∃ peer, addr ∈ ((run.states index).nodes peer).myAddrKey ∧
      ∀ other, addr ∈ ((run.states index).nodes other).myAddrKey → other = peer := by
  obtain ⟨earlier, within, made⟩ := List.mem_flatMap.mp generated
  rw [List.mem_range] at within
  refine ⟨(run.actions earlier).actor, (mem_myAddrKey_iff bound _ _).mpr
    ⟨earlier, within, rfl, made⟩, fun other own => ?_⟩
  obtain ⟨later, before, rfl, madeToo⟩ := (mem_myAddrKey_iff bound _ _).mp own
  have apart : (List.range index).Pairwise fun first second => List.Disjoint
      ((run.actions first).generated crypto) ((run.actions second).generated crypto) :=
    (List.nodup_flatMap.mp (nodup_generatedAddrs distinct bound)).2
  rw [List.pairwise_iff_getElem] at apart
  have disjoint {first second : Nat} (less : first < second) (bounded : second < index)
      (inFirst : addr ∈ (run.actions first).generated crypto)
      (inSecond : addr ∈ (run.actions second).generated crypto) : False := by
    have different := apart first second (by simp; omega) (by simp; omega) less
    simp only [List.getElem_range] at different
    exact different inFirst inSecond
  rcases Nat.lt_trichotomy earlier later with less | same | greater
  · exact (disjoint less before made madeToo).elim
  · rw [same]
  · exact (disjoint greater within madeToo made).elim

end Owners

/-! ## Recipients -/

/-- All outputs go to addresses of the list. -/
def SignedTransaction.PaysWithin (tx : SignedTransaction) (addrs : List H160) : Prop :=
  ∀ position coin, tx.transaction.output position = some coin → coin.2 ∈ addrs

/-- All coins of a ledger belong to addresses of the list. -/
def Ledger.PaidWithin (ledger : Ledger) (addrs : List H160) : Prop :=
  ∀ outpoint coin, ledger.lookup outpoint = some coin → coin.2 ∈ addrs

theorem paysWithin_of_build {allAddr addrs : List H160} {key : KeyPair} {draw : Draw} {coin : Coin}
    {tx : SignedTransaction} (built : buildTransaction crypto allAddr key draw coin = some tx)
    (known : ∀ addr ∈ allAddr, addr ∈ addrs) (owner : coin.2 ∈ addrs) : tx.PaysWithin addrs := by
  simp only [buildTransaction, Option.bind_eq_bind, Option.bind_eq_some_iff,
    Option.pure_def, Option.some.injEq] at built
  obtain ⟨dest, drawn, rfl⟩ := built
  have destKnown : dest ∈ addrs := known dest (List.mem_of_getElem? drawn)
  intro position paid output
  simp only [Transaction.output, Option.bind_eq_bind, Option.bind_eq_some_iff, Option.pure_def,
    Option.some.injEq] at output
  obtain ⟨value, -, addr, listed, rfl⟩ := output
  rcases List.mem_pair.mp (List.mem_of_getElem? listed) with rfl | rfl
  · exact destKnown
  · exact owner

namespace Network

variable {Peer : Type*} [DecidableEq Peer] {graph : Graph Peer}
variable {before after : Network Peer} {event : Event Peer}

theorem generate_of_made (stepped : before.step crypto graph event = some after)
    {tx : SignedTransaction} (made : (before.made event after).transaction tx) :
    ∃ draws ledger hash, (before.nodes event.actor).globState.lookup
          (before.nodes event.actor).blockchain.tip = some ledger ∧
      (generateAll crypto (before.nodes event.actor) ledger draws).node.txPool.lookup hash =
        some tx ∧
      (before.nodes event.actor).txPool.lookup hash ≠ some tx := by
  obtain ⟨outcome, performs, completed, -, nodes, -⟩ := step_cases stepped
  have actor : after.nodes event.actor = outcome.node := by rw [nodes, Function.update_self]
  obtain ⟨own, hash, found, new⟩ := made
  rw [actor] at found
  cases performed_of_perform performs completed with
  | deliver _ _ _ _ => exact own.elim
  | mine peer choice progress possible ran =>
      exact absurd ((mined_of_minerLoop possible ran).txPool found) new
  | mineAttacker peer choice progress ran =>
      exact absurd ((mined_of_minerLoopAttacker ran).txPool found) new
  | generateAddress _ _ | ico _ => exact absurd found new
  | generate peer draws =>
      unfold generatorLoop at found
      split at found
      · exact absurd found new
      · next ledger tipState => exact ⟨draws, ledger, hash, tipState, found, new⟩

end Network

section Recipients

variable {Peer : Type*} [DecidableEq Peer] {graph : Graph Peer}
variable {run : Run (Network.step crypto graph) (Network.Initial crypto)}

theorem paidWithin_of_applied {txs : Set SignedTransaction} (singles : SingleSpends crypto txs)
    {offered ledger : Ledger} {history : List SignedTransaction} {addrs : List H160}
    (members : ∀ tx ∈ history, tx ∈ txs) (paid : offered.PaidWithin addrs)
    (pays : ∀ tx ∈ history, tx.PaysWithin addrs)
    (applied : applyTransactions crypto offered history = some ledger) :
    ledger.PaidWithin addrs := by
  intro outpoint coin found
  have among : SingleSpends crypto {tx | tx ∈ history} :=
    ⟨fun tx member => singles.spends tx (members tx member),
      singles.injective.mono members, fun tx member => singles.nonzero tx (members tx member)⟩
  rcases issued_of_lookup among (fun tx member => member) applied found with
    initial | ⟨tx, member, -, output⟩
  · exact paid outpoint coin initial
  · exact pays tx member _ coin output

theorem paidWithin_icoState {allAddr addrs : List H160} (known : ∀ addr ∈ allAddr, addr ∈ addrs) :
    (icoState allAddr).PaidWithin addrs := by
  have kept : ∀ (entries : List (H160 × Nat)) (state : Ledger), state.PaidWithin addrs →
      (∀ entry ∈ entries, entry.1 ∈ addrs) →
      Ledger.PaidWithin (entries.foldl
        (fun state entry => state.insert (H256.zero, UInt32.ofNat entry.2) (1000, entry.1))
        state) addrs := by
    intro entries
    induction entries with
    | nil => exact fun _ paid _ => paid
    | cons entry entries ih =>
        intro state paid listed
        apply ih
        · exact HashMap.forall_lookup_insert paid (listed entry (by simp))
        · exact fun other member => listed other (by simp [member])
  apply kept
  · intro outpoint coin found
    simp at found
  · exact fun entry member => known _ (List.fst_mem_of_mem_zipIdx member)

theorem total_icoState {allAddr : List H160} (bound : allAddr.length ≤ 2 ^ 32) :
    (icoState allAddr).total = 1000 * allAddr.length := by
  have filled : ∀ (entries : List H160) (start : Nat) (state : Ledger),
      start + entries.length ≤ 2 ^ 32 →
      (∀ outpoint ∈ state, outpoint.2.toNat < start) →
      Ledger.total ((entries.zipIdx start).foldl
        (fun state entry => state.insert (H256.zero, UInt32.ofNat entry.2) (1000, entry.1))
        state) = state.total + 1000 * entries.length := by
    intro entries
    induction entries with
    | nil => exact fun _ _ _ _ => rfl
    | cons addr entries ih =>
        intro start state room filledBelow
        rw [List.length_cons] at room
        have position : (UInt32.ofNat start).toNat = start := by
          rw [UInt32.toNat_ofNat']
          exact Nat.mod_eq_of_lt (by omega)
        have new : (H256.zero, UInt32.ofNat start) ∉ state := by
          intro member
          have below : (UInt32.ofNat start).toNat < start := filledBelow _ member
          omega
        rw [List.zipIdx_cons, List.foldl_cons, ih (start + 1) _ (by omega)]
        · rw [Ledger.total, HashMap.weight_insert_of_notMem _ _ new, Ledger.total,
            List.length_cons]
          simp
          omega
        · intro outpoint member
          rcases Finmap.mem_insert.mp member with rfl | member
          · simp only [position]
            omega
          · exact Nat.lt_succ_of_lt (filledBelow outpoint member)
  have total := filled allAddr 0 ∅ (by omega)
    fun outpoint member => absurd member Finmap.notMem_empty
  have empty : Ledger.total ∅ = 0 := rfl
  rwa [empty, Nat.zero_add] at total

theorem generatedAddrs_mono {index later : Nat} (bound : index ≤ later) {addr : H160}
    (generated : addr ∈ generatedAddrs run index) : addr ∈ generatedAddrs run later := by
  induction bound with
  | refl => exact generated
  | step _ ih =>
      rw [generatedAddrs_succ]
      exact List.mem_append_left _ ih

theorem ico_of_offer {index : Nat} {offered : Ledger}
    (given : offerBefore run index = some offered) :
    ∃ earlier < index, ∃ peer, run.actions earlier = .ico peer ∧
      offered = icoState ((run.states earlier).nodes peer).allAddr := by
  induction index with
  | zero => cases given
  | succ index ih =>
      rw [offerBefore, Option.or_eq_some_iff] at given
      rcases given with before | ⟨-, now⟩
      · obtain ⟨earlier, bound, made⟩ := ih before
        exact ⟨earlier, Nat.lt_succ_of_lt bound, made⟩
      · cases action : run.actions index with
        | ico peer =>
            rw [action, Network.offered, Option.some.injEq] at now
            exact ⟨index, Nat.lt_succ_self index, peer, action, now.symm⟩
        | deliver _ | mine _ _ | mineAttacker _ _ | generateAddress _ _ | generate _ _ =>
            rw [action] at now
            cases now

end Recipients

/-! ## The money of a network -/

/-- The hashes of transactions tell them apart, from each other and from the offering. -/
structure Origin.Separate (crypto : Crypto) (origin : Origin) : Prop where
  injective : Set.InjOn (SignedTransaction.hash crypto) {tx | origin.transaction tx}
  nonzero : ∀ tx, origin.transaction tx → tx.hash crypto ≠ H256.zero

section Runs

variable {Peer : Type*} [DecidableEq Peer] {graph : Graph Peer}
variable {run : Run (Network.step crypto graph) (Network.Initial crypto)}

theorem singleSpends_of_run (separate : (madeBefore run run.length).Separate crypto) :
    SingleSpends crypto {tx | (madeBefore run run.length).transaction tx} := by
  refine ⟨?_, separate.injective, separate.nonzero⟩
  rintro tx ⟨index, bound, made⟩
  obtain ⟨ledger, -, generated⟩ := (makes_of_run run index bound).transaction tx made
  obtain ⟨outpoint, _, first, second, -, spends, -⟩ := generated.spendsTwice
  exact ⟨outpoint, first, second, spends⟩

/-- A ledger in the tree applies transactions that were made before to the offering. -/
theorem applied_of_lookup (single : OneOffering run)
    (noCollision : NoCollision crypto (madeBefore run run.length)) {index : Nat}
    (bound : index ≤ run.length) {peer : Peer} {hash : H256} {ledger : Ledger}
    (inTree : hash ∈ ((run.states index).nodes peer).blockchain.blocks)
    (found : ((run.states index).nodes peer).globState.lookup hash = some ledger) :
    ∃ offered txs, offerBefore run index = some offered ∧
      applyTransactions crypto offered txs = some ledger ∧
      ∀ tx ∈ txs, (madeBefore run index).transaction tx := by
  obtain ⟨offered, refs, txs, given, describes⟩ :=
    describes_of_lookup single noCollision bound inTree found
  exact ⟨offered, txs, given, describes.applied, transaction_of_describes bound describes⟩

/-- A ledger in the tree pays to generated addresses if all transactions made before do. -/
theorem paidWithin_of_lookup (single : OneOffering run)
    (noCollision : NoCollision crypto (madeBefore run run.length))
    (distinct : (generatedAddrs run run.length).Nodup)
    (separate : (madeBefore run run.length).Separate crypto) {index : Nat}
    (bound : index ≤ run.length)
    (pays : ∀ tx, (madeBefore run index).transaction tx → tx.PaysWithin (generatedAddrs run index))
    {peer : Peer} {hash : H256} {ledger : Ledger}
    (inTree : hash ∈ ((run.states index).nodes peer).blockchain.blocks)
    (found : ((run.states index).nodes peer).globState.lookup hash = some ledger) :
    ledger.PaidWithin (generatedAddrs run index) := by
  obtain ⟨offered, txs, given, applied, made⟩ :=
    applied_of_lookup single noCollision bound inTree found
  obtain ⟨earlier, before, maker, -, rfl⟩ := ico_of_offer given
  have gossip := addrGossip_of_run distinct earlier (by omega)
  apply paidWithin_of_applied (singleSpends_of_run separate)
    (fun tx member => (madeBefore_le run bound).transaction tx (made tx member))
    (paidWithin_icoState fun addr known =>
      generatedAddrs_mono (Nat.le_of_lt before) (gossip.known maker addr known))
    (fun tx member => pays tx (made tx member)) applied

theorem paysWithin_of_made (single : OneOffering run)
    (noCollision : NoCollision crypto (madeBefore run run.length))
    (distinct : (generatedAddrs run run.length).Nodup)
    (separate : (madeBefore run run.length).Separate crypto) :
    ∀ index ≤ run.length, ∀ tx, (madeBefore run index).transaction tx →
      tx.PaysWithin (generatedAddrs run index) := by
  intro index bound
  induction index with
  | zero =>
      rintro tx ⟨_, impossible, -⟩
      exact absurd impossible (Nat.not_lt_zero _)
  | succ index ih =>
      rintro tx ⟨earlier, before, made⟩ position coin output
      have pays := ih (by omega)
      apply generatedAddrs_mono (Nat.le_succ index)
      rcases Nat.lt_succ_iff_lt_or_eq.mp before with before | rfl
      · exact pays tx ⟨earlier, before, made⟩ position coin output
      obtain ⟨draws, ledger, hash, tipState, found, new⟩ :=
        Network.generate_of_made (run.steps earlier (by omega)) made
      obtain ⟨draw, source, key, present, built, -⟩ :=
        (built_of_generateAll ledger draws _ found).resolve_left new
      have formed := (within_of_run run earlier (by omega)).formed (run.actions earlier).actor
      have paid := paidWithin_of_lookup single noCollision distinct separate (by omega) pays
        formed.chain.tip tipState
      exact paysWithin_of_build built
        ((addrGossip_of_run distinct earlier (by omega)).known _)
        (paid draw.outpoint source present) position coin output

theorem balanced_of_run (single : OneOffering run)
    (noCollision : NoCollision crypto (madeBefore run run.length))
    (separate : (madeBefore run run.length).Separate crypto) {offered : Ledger}
    (given : offerBefore run run.length = some offered) :
    Balanced crypto offered {tx | (madeBefore run run.length).transaction tx} := by
  rintro tx ⟨index, bound, made⟩
  obtain ⟨ledger, tipState, generated⟩ := (makes_of_run run index bound).transaction tx made
  obtain ⟨outpoint, coin, first, second, found, spends, shared⟩ := generated.spendsTwice
  have formed := (within_of_run run index (by omega)).formed (run.actions index).actor
  obtain ⟨offeredThen, txs, givenThen, applied, earlier⟩ :=
    applied_of_lookup single noCollision (by omega) formed.chain.tip tipState
  have same : offeredThen = offered :=
    Option.some.inj ((offerBefore_mono (by omega) givenThen).symm.trans given)
  subst same
  refine ⟨outpoint, coin, first, second, ?_, spends, shared⟩
  exact issued_of_lookup (singleSpends_of_run separate)
    (fun other member => (madeBefore_le run (by omega)).transaction other (earlier other member))
    applied found

/-- Every ledger of a tree is worth what has been offered. -/
theorem total_of_lookup (single : OneOffering run)
    (noCollision : NoCollision crypto (madeBefore run run.length))
    (separate : (madeBefore run run.length).Separate crypto) {index : Nat}
    (bound : index ≤ run.length) {offered : Ledger}
    (given : offerBefore run index = some offered) {peer : Peer} {hash : H256} {ledger : Ledger}
    (inTree : hash ∈ ((run.states index).nodes peer).blockchain.blocks)
    (found : ((run.states index).nodes peer).globState.lookup hash = some ledger) :
    ledger.total = offered.total := by
  obtain ⟨offeredThen, txs, givenThen, applied, made⟩ :=
    applied_of_lookup single noCollision bound inTree found
  have same : offeredThen = offered := Option.some.inj (givenThen.symm.trans given)
  subst same
  obtain ⟨_, -, _, -, isOffering⟩ := ico_of_offer given
  exact total_of_balanced (singleSpends_of_run separate) (isOffering ▸ original_icoState _)
    (balanced_of_run single noCollision separate (offerBefore_mono bound given))
    (fun tx member => (madeBefore_le run bound).transaction tx (made tx member)) applied

/-- Once a peer has made the offering to some addresses and all peers have taken it
over, peers that have the same tip print balances that add up to a thousand coins
for each of the addresses, however their transactions have moved the money. -/
theorem balances_of_run [Fintype Peer]
    (run : Run (Network.step crypto graph) (Network.Initial crypto)) (single : OneOffering run)
    (noCollision : NoCollision crypto (madeBefore run run.length))
    (distinct : (generatedAddrs run run.length).Nodup)
    (separate : (madeBefore run run.length).Separate crypto)
    (coins : Peer → HashMap.Order Outpoint Coin) (money : Peer → HashMap.Order H160 UInt32)
    {made index : Nat} (before : made < index) (bound : index ≤ run.length) {maker : Peer}
    (ico : run.actions made = .ico maker)
    (fits : 1000 * ((run.states made).nodes maker).allAddr.length < 2 ^ 32)
    (taken : ∀ peer, genesisHash crypto ∈ ((run.states index).nodes peer).globState)
    {tip : H256} (sameTip : ∀ peer, ((run.states index).nodes peer).blockchain.tip = tip) :
    ∃ printed : Peer → UInt32,
      (∀ peer, handleBalanceSignal (coins peer) (money peer) ((run.states index).nodes peer) =
        .ok (printed peer)) ∧
      ∑ peer, (printed peer).toNat = 1000 * ((run.states made).nodes maker).allAddr.length := by
  have offering : (icoState ((run.states made).nodes maker).allAddr).total =
      1000 * ((run.states made).nodes maker).allAddr.length := total_icoState (by omega)
  have offers : (run.states made).offered (run.actions made) =
      some (icoState ((run.states made).nodes maker).allAddr) := by rw [ico]; rfl
  have given : offerBefore run index = some (icoState ((run.states made).nodes maker).allAddr) := by
    apply offerBefore_mono (Nat.succ_le_of_lt before)
    rw [offerBefore, single made (by omega) (by simp [offers]), Option.none_or, offers]
  have within := within_of_run run index bound
  have inTree (peer : Peer) : tip ∈ ((run.states index).nodes peer).blockchain.blocks :=
    sameTip peer ▸ (within.formed peer).chain.tip
  have published (peer : Peer) : tip ∈ ((run.states index).nodes peer).globState := by
    rcases ((anchored_of_run run single noCollision index bound).nodes peer).offered with
      unoffered | ⟨_, -, offered⟩
    · exact absurd (unoffered.globState ▸ taken peer) Finmap.notMem_empty
    · exact (offered.published tip (inTree peer)).1
  obtain ⟨ledger, found⟩ := HashMap.lookup_of_mem (published maker)
  have sameLedger (peer : Peer) : ((run.states index).nodes peer).globState.lookup tip =
      some ledger := by
    obtain ⟨other, foundToo⟩ := HashMap.lookup_of_mem (published peer)
    have agree := agreeOn_of_honest noCollision (honest_of_run single noCollision bound maker)
      (honest_of_run single noCollision bound peer) (inTree maker) (inTree peer)
    rw [foundToo, agree.globState ledger found other foundToo]
  have total := total_of_lookup single noCollision separate bound given (inTree maker) found
  have paid := paidWithin_of_lookup single noCollision distinct separate bound
    (paysWithin_of_made single noCollision distinct separate index bound) (inTree maker) found
  have shared := sum_ownValue (run.states index).nodes fun outpoint coin present =>
    owner_of_generated distinct bound (paid outpoint coin present)
  have prints (peer : Peer) : ∃ printed, handleBalanceSignal (coins peer) (money peer)
      ((run.states index).nodes peer) = .ok printed ∧
        printed.toNat = ledger.weight ((run.states index).nodes peer).ownValue := by
    apply handleBalanceSignal_eq
    · rw [sameTip, sameLedger]
    · have part : ledger.weight ((run.states index).nodes peer).ownValue ≤
          ∑ other, ledger.weight ((run.states index).nodes other).ownValue :=
        Finset.sum_le_sum_of_subset (Finset.subset_univ {peer}) |>.trans' (by simp)
      omega
  choose printed isPrinted value using prints
  refine ⟨printed, isPrinted, ?_⟩
  rw [Finset.sum_congr rfl fun peer _ => value peer, shared, total, offering]

end Runs

theorem separate_tradeRun : (madeBefore tradeRun tradeRun.length).Separate Crypto.sample := by
  have made : ∀ tx, (madeBefore tradeRun tradeRun.length).transaction tx →
      tx ∈ [splitPayment] := by
    apply transaction_of_entries tradeRun
    change ∀ index < 15, _
    decide +kernel
  refine ⟨fun tx member other memberToo _ => ?_, fun tx member => ?_⟩
  · rw [List.mem_singleton.mp (made tx member), List.mem_singleton.mp (made other memberToo)]
  · rw [List.mem_singleton.mp (made tx member)]
    decide +kernel

theorem balances_tradeRun :
    ∃ printed : Bool → UInt32,
      (∀ peer, handleBalanceSignal (.any _ _) (.any _ _) ((tradeRun.states 15).nodes peer) =
        .ok (printed peer)) ∧
      ∑ peer, (printed peer).toNat = 1000 * 2 := by
  have before : 4 < 15 := by decide
  have ico : tradeRun.actions 4 = .ico false := rfl
  have sameTip : ∀ peer, ((tradeRun.states 15).nodes peer).blockchain.tip = sampleHash 2 := by
    decide +kernel
  have prints := balances_of_run tradeRun oneOffering_tradeRun noCollision_tradeRun
    (by decide +kernel) separate_tradeRun (fun _ => .any _ _) (fun _ => .any _ _) before
    (by decide) ico (by decide +kernel) (by decide +kernel) sameTip
  have addresses : ((tradeRun.states 4).nodes false).allAddr.length = 2 := by decide +kernel
  rwa [addresses] at prints

end SimplifiedPrism
