import SimplifiedPrism.Worker

/-!
# The generator

The generator spends every coin of the tip's ledger that one of its addresses
owns: a part of the value goes to some known address, the rest back to the
owner.  A generated transaction lists its single input twice, once for each of
its two outputs.  The generator also makes the addresses of the node and the
initial coin offering.
-/

namespace SimplifiedPrism

variable (crypto : Crypto)

/-- One pass of the loop in which a node makes its addresses, for a random key. -/
def generateAddress (node : Node) (key : KeyPair) : Progress :=
  let addr := addressOf crypto (crypto.publicKey key)
  let allAddr := node.allAddr ++ [addr]
  { node := { node with myAddrKey := node.myAddrKey.insert addr key, allAddr }
    sent := [.broadcast (.newAddr allAddr)] }

/-- The random numbers drawn for one entry of the ledger. -/
structure Draw where
  outpoint : Outpoint
  dest : UInt32
  value : UInt32
deriving DecidableEq

/-- The transaction that spends a coin; `none` where the random choice among no
addresses would panic. -/
def buildTransaction (allAddr : List H160) (key : KeyPair) (draw : Draw) (coin : Coin) :
    Option SignedTransaction := do
  let dest ← allAddr[draw.dest.toNat % allAddr.length]?
  let val := 1 + draw.value % coin.1
  let trans : Transaction :=
    { inputPrevious := [draw.outpoint.1, draw.outpoint.1]
      inputIndex := [draw.outpoint.2, draw.outpoint.2]
      outputAddress := [dest, coin.2]
      outputValue := [val, coin.1 - val] }
  return ⟨trans, ⟨sign crypto trans key, crypto.publicKey key⟩⟩

/-- One pass of the loop over the ledger of the tip. -/
def generateFrom (node : Node) (currentState : Ledger) (draw : Draw) :
    Except Panic (Node × List Outgoing) := do
  let coin ← index .globState (currentState.lookup draw.outpoint)
  match node.myAddrKey.lookup coin.2 with
  | none => return (node, [])
  | some key =>
      if coin.1 = 0 then
        return (node, [])
      let newTrans ← index .arithmetic (buildTransaction crypto node.allAddr key draw coin)
      let hash := newTrans.hash crypto
      return ({ node with txPool := node.txPool.insert hash newTrans },
        [.broadcast (.newTransactionHashes [hash])])

/-- The loop over the ledger of the tip, with the maps left by a panic. -/
def generateAll (node : Node) (currentState : Ledger) : List Draw → Outcome
  | [] => { node }
  | draw :: draws =>
      match generateFrom crypto node currentState draw with
      | .error panic => { node, panic := some panic }
      | .ok (next, sent) =>
          let outcome := generateAll next currentState draws
          { outcome with sent := sent ++ outcome.sent }

/-- One iteration of `generator_loop` after the tip has changed. -/
def generatorLoop (node : Node) (draws : List Draw) : Outcome :=
  match node.globState.lookup node.blockchain.tip with
  | none => { node, panic := some .globState }
  | some currentState => generateAll crypto node currentState draws

/-- The ledger of the initial coin offering: a thousand coins for every address. -/
def icoState (allAddr : List H160) : Ledger :=
  allAddr.zipIdx.foldl
    (fun state entry => state.insert (H256.zero, UInt32.ofNat entry.2) (1000, entry.1)) ∅

/-- The control signal for the initial coin offering. -/
def handleIcoSignal (node : Node) : Progress :=
  let genesisHash := node.blockchain.tip
  let state := icoState node.allAddr
  { node := { node with globState := node.globState.insert genesisHash state }
    sent := [.broadcast (.ico genesisHash state)] }

variable {crypto}

/-- A transaction that the generator builds from a ledger: for a coin of that
ledger with non-zero value, whatever the addresses, keys and draws are. -/
def GeneratorMade (crypto : Crypto) (ledger : Ledger) (tx : SignedTransaction) : Prop :=
  ∃ allAddr key draw coin, ledger.lookup draw.outpoint = some coin ∧ coin.1 ≠ 0 ∧
    buildTransaction crypto allAddr key draw coin = some tx

/-- A transaction whose two inputs name the same outpoint. -/
structure SpendsTwice (tx : SignedTransaction) (outpoint : Outpoint) (first second : Coin) :
    Prop where
  inputs : tx.transaction.inputPrevious.length = 2
  input0 : tx.transaction.lookupKey 0 = some outpoint
  input1 : tx.transaction.lookupKey 1 = some outpoint
  output0 : tx.transaction.output 0 = some first
  output1 : tx.transaction.output 1 = some second

theorem one_add_mod_le {value : UInt32} (draw : UInt32) (nonzero : value ≠ 0) :
    (1 + draw % value).toNat ≤ value.toNat := by
  have positive : 0 < value.toNat := by
    rcases Nat.eq_zero_or_pos value.toNat with zero | positive
    · exact absurd (UInt32.toNat_inj.mp zero) nonzero
    · exact positive
  have small := value.toNat_lt
  have remainder := Nat.mod_lt draw.toNat positive
  rw [UInt32.toNat_add, UInt32.toNat_mod]
  simp only [UInt32.reduceToNat]
  omega

/-- A built transaction spends its coin and its outputs share out the value. -/
theorem spendsTwice_of_build {allAddr : List H160} {key : KeyPair} {draw : Draw} {coin : Coin}
    {tx : SignedTransaction} (nonzero : coin.1 ≠ 0)
    (built : buildTransaction crypto allAddr key draw coin = some tx) :
    ∃ first second, SpendsTwice tx draw.outpoint first second ∧
      first.1.toNat + second.1.toNat = coin.1.toNat := by
  simp only [buildTransaction, Option.bind_eq_bind, Option.bind_eq_some_iff,
    Option.pure_def, Option.some.injEq] at built
  obtain ⟨dest, -, rfl⟩ := built
  refine ⟨(1 + draw.value % coin.1, dest), (coin.1 - (1 + draw.value % coin.1), coin.2),
    ⟨rfl, rfl, rfl, rfl, rfl⟩, ?_⟩
  have bound := one_add_mod_le draw.value nonzero
  change (1 + draw.value % coin.1).toNat + (coin.1 - (1 + draw.value % coin.1)).toNat = _
  rw [UInt32.toNat_sub_of_le _ _ (UInt32.le_iff_toNat_le.mpr bound)]
  omega

theorem GeneratorMade.spendsTwice {ledger : Ledger} {tx : SignedTransaction}
    (made : GeneratorMade crypto ledger tx) :
    ∃ outpoint coin first second, ledger.lookup outpoint = some coin ∧
      SpendsTwice tx outpoint first second ∧
      first.1.toNat + second.1.toNat = coin.1.toNat := by
  obtain ⟨allAddr, key, draw, coin, found, nonzero, built⟩ := made
  obtain ⟨first, second, spends, shared⟩ := spendsTwice_of_build nonzero built
  exact ⟨draw.outpoint, coin, first, second, found, spends, shared⟩

theorem SpendsTwice.wellShaped {tx : SignedTransaction} {outpoint : Outpoint}
    {first second : Coin} (spends : SpendsTwice tx outpoint first second) :
    tx.transaction.WellShaped := by
  obtain ⟨inputs, -, input1, -, output1⟩ := spends
  simp only [Transaction.lookupKey, Option.bind_eq_bind, Option.bind_eq_some_iff] at input1
  simp only [Transaction.output, Option.bind_eq_bind, Option.bind_eq_some_iff] at output1
  obtain ⟨_, -, _, index, -⟩ := input1
  obtain ⟨_, value, _, address, -⟩ := output1
  have indexBound := (List.getElem?_eq_some_iff.mp index).1
  have valueBound := (List.getElem?_eq_some_iff.mp value).1
  have addressBound := (List.getElem?_eq_some_iff.mp address).1
  constructor
  · rw [Transaction.Indexed]
    omega
  · omega
  · omega

/-! ## Rounds of the generator -/

/-- A node whose mempool holds, besides what it held before, only generated
transactions. -/
structure Generated (crypto : Crypto) (before : Node) (ledger : Ledger) (after : Node) :
    Prop where
  onlyPool : after = { before with txPool := after.txPool }
  made : ∀ hash tx, after.txPool.lookup hash = some tx →
    before.txPool.lookup hash = some tx ∨ GeneratorMade crypto ledger tx

theorem generated_of_generateAll {node : Node} {ledger : Ledger} (draws : List Draw) :
    Generated crypto node ledger (generateAll crypto node ledger draws).node := by
  induction draws generalizing node with
  | nil => exact ⟨rfl, fun _ _ pooled => .inl pooled⟩
  | cons draw draws ih =>
      unfold generateAll
      split
      · exact ⟨rfl, fun _ _ pooled => .inl pooled⟩
      · next next sent passed =>
          have rest : Generated crypto next ledger (generateAll crypto next ledger draws).node := ih
          simp only [generateFrom, bind_eq_ok, index_eq_ok] at passed
          obtain ⟨coin, found, passed⟩ := passed
          split at passed
          · cases passed
            exact rest
          next key owned =>
          split at passed
          · cases passed
            exact rest
          next nonzero =>
          simp only [bind_eq_ok, index_eq_ok] at passed
          obtain ⟨newTrans, built, passed⟩ := passed
          cases passed
          refine ⟨rest.onlyPool, fun hash tx pooled => ?_⟩
          rcases rest.made hash tx pooled with earlier | made
          · rw [HashMap.lookup_insert_ite] at earlier
            split at earlier
            · cases earlier
              exact .inr ⟨node.allAddr, key, draw, coin, found, nonzero, built⟩
            · exact .inl earlier
          · exact .inr made

/-- A round changes nothing but the mempool, and adds generated transactions. -/
theorem generated_of_round {node : Node} (draws : List Draw) :
    (generatorLoop crypto node draws).node = node ∨
      ∃ ledger, node.globState.lookup node.blockchain.tip = some ledger ∧
        Generated crypto node ledger (generatorLoop crypto node draws).node := by
  unfold generatorLoop
  split
  · exact .inl rfl
  · next ledger found => exact .inr ⟨ledger, found, generated_of_generateAll draws⟩

end SimplifiedPrism
