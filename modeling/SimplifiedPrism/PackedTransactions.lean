import SimplifiedPrism.Mempool

/-!
# Pending and packed transactions

A transaction block takes its transactions out of the mempool when it arrives
or is mined.  The handler of transactions looks only at the mempool, so a packed
transaction that is sent again is admitted again.
-/

namespace SimplifiedPrism

variable {crypto : Crypto}

variable (crypto) in
/-- No hash is pending and packed. -/
def Node.PoolsDisjoint (node : Node) : Prop :=
  ∀ hash ∈ node.txPool, ¬ node.Packed crypto hash

/-- The step does not admit a transaction that a pooled block contains. -/
def NotReadmitted (crypto : Crypto) (state : State) (action : Action) : Prop :=
  ∀ tip each rest, action = .work → state.todo = .transaction tip each :: rest →
    Admits crypto state.node tip each → ¬ state.node.Packed crypto (each.hash crypto)

section Step

variable {before after : State} {action : Action}

theorem Initial.poolsDisjoint {state : State} (initial : Initial crypto state) :
    state.node.PoolsDisjoint crypto := by
  obtain ⟨-, -, allAddr, myAddrKey, same⟩ := initial
  rw [same]
  exact fun hash member => absurd member Finmap.notMem_empty

theorem Node.PoolsDisjoint.of_sub {node after : Node} (disjoint : node.PoolsDisjoint crypto)
    (sub : ∀ hash ∈ after.txPool, hash ∈ node.txPool)
    (same : after.txBlockPool = node.txBlockPool) : after.PoolsDisjoint crypto := by
  intro hash member packed
  rw [Node.Packed, same] at packed
  exact disjoint hash (sub hash member) packed

theorem mem_of_pruned {ledger : Ledger} {txPool after : HashMap H256 SignedTransaction}
    (prunes : Prunes ledger txPool after) {hash : H256} (member : hash ∈ after) :
    hash ∈ txPool := by
  obtain ⟨tx, found⟩ := HashMap.lookup_of_mem member
  exact Finmap.mem_of_lookup_eq_some ((prunes hash tx).mp found).1

/-- A block that enters the pool takes its transactions out of the mempool. -/
theorem Node.PoolsDisjoint.pack {node : Node} (disjoint : node.PoolsDisjoint crypto)
    (block : TXBlock) :
    Node.PoolsDisjoint crypto { node with
      txPool := removeTransactions crypto node.txPool block.content.transactionContent
      txBlockPool := node.txBlockPool.insert (block.hash crypto) block } := by
  intro hash member packed
  obtain ⟨pending, kept⟩ := HashMap.lookup_of_mem member
  obtain ⟨stored, others⟩ := lookup_removeTransactions.mp kept
  obtain ⟨ref, txBlock, found, tx, inside, hashed⟩ := packed
  rw [HashMap.lookup_insert_ite] at found
  split at found
  · cases found
    exact others tx inside hashed
  · have present := Finmap.mem_of_lookup_eq_some stored
    exact disjoint hash present ⟨ref, txBlock, found, tx, inside, hashed⟩

theorem Node.PoolsDisjoint.step (disjoint : before.node.PoolsDisjoint crypto)
    (formed : before.WellFormed crypto) (notReadmitted : NotReadmitted crypto before action)
    (stepped : before.stepWithoutGenerator crypto action = some after) :
    after.node.PoolsDisjoint crypto := by
  obtain ⟨original, notGenerated⟩ := step_of_stepWithoutGenerator stepped
  cases poolCases_of_step formed original with
  | kept same _ | panicked same _ =>
      refine disjoint.of_sub (fun hash member => ?_) same.txBlockPool
      rwa [same.txPool] at member
  | offered _ _ _ node =>
      rw [node]
      exact disjoint
  | admitted tip each rest work next admits node =>
      have notPacked := notReadmitted tip each rest work next admits
      rw [node]
      intro hash member
      rcases Finmap.mem_insert.mp member with rfl | old
      · exact notPacked
      · exact disjoint hash old
  | generated draws generate _ => exact absurd generate (notGenerated draws)
  | packed block _ node =>
      rw [node]
      exact disjoint.pack block
  | accepted _ _ _ _ _ accepts prunes =>
      exact disjoint.of_sub (fun hash member => mem_of_pruned prunes member) accepts.txBlockPool
  | copied _ _ _ accepts txPool =>
      refine disjoint.of_sub (fun hash member => ?_) accepts.txBlockPool
      rwa [txPool] at member

/-- Admitting a packed transaction makes it pending as well. -/
theorem notReadmitted_of_disjoint
    (stepped : before.stepWithoutGenerator crypto action = some after)
    (disjoint : after.node.PoolsDisjoint crypto) : NotReadmitted crypto before action := by
  rintro tip each rest rfl next admits packed
  simp only [State.stepWithoutGenerator, State.step, next, runTask, admits.ran,
    Option.some.injEq] at stepped
  rw [← stepped] at disjoint
  exact disjoint _ (Finmap.mem_insert.mpr (.inl rfl)) packed

end Step

/-! ## Two orders of delivery -/

section Orders

variable {node : Node} {tx : SignedTransaction} {block : TXBlock}

/-- The transaction-block pool takes a received block in. -/
def TakesIn (crypto : Crypto) (node : Node) (block : TXBlock) : Prop :=
  block.hash crypto ∉ node.txBlockPool ∧
    ¬ block.hash crypto > block.header.transactionDifficulty ∧
    ¬ block.hash crypto ≤ block.header.proposerDifficulty

variable (crypto) in
/-- The maps after a message, whether or not its worker panics. -/
def Node.serve (node : Node) (message : Message) : Node :=
  (workerLoop crypto node message).node

theorem serve_transaction (node : Node) (tx : SignedTransaction) :
    Admits crypto node node.blockchain.tip tx ∧ node.serve crypto (.transactions [tx]) =
        { node with txPool := node.txPool.insert (tx.hash crypto) tx } ∨
      ¬ Admits crypto node node.blockchain.tip tx ∧
        node.serve crypto (.transactions [tx]) = node := by
  rw [Node.serve, workerLoop, Message.tasks, List.map_singleton, runTasks]
  by_cases admits : Admits crypto node node.blockchain.tip tx
  · have ran : runTask crypto node (.transaction node.blockchain.tip tx) = _ := admits.ran
    left
    refine ⟨admits, ?_⟩
    split
    · next failed =>
        rw [ran] at failed
        cases failed
    · next progress passed =>
        rw [ran, Except.ok.injEq] at passed
        subst passed
        rw [List.append_nil, runTasks]
  · right
    refine ⟨admits, ?_⟩
    split
    · next failed =>
        cases failure_of_run failed with
        | transaction _ _ _ _ => rfl
        | signature _ _ _ checks _ => cases checks
        | apply _ _ _ checks _ _ => cases checks
    · next progress passed =>
        obtain ⟨after, todo, sent⟩ := progress
        cases effect_of_run passed with
        | skip => rw [List.append_nil, runTasks]
        | accept _ _ _ checks _ _ => cases checks
        | transaction _ _ currState sums fresh verified tipState unspent owned summed covered =>
            exact absurd ⟨fresh, verified, currState, sums, tipState, unspent, owned, summed,
              covered⟩ admits

/-- A message with one transaction block packs it or leaves the maps alone. -/
theorem serve_transactionBlock (node : Node) (block : TXBlock) :
    TakesIn crypto node block ∧ node.serve crypto (.transactionBlocks [block]) = { node with
        txPool := removeTransactions crypto node.txPool block.content.transactionContent
        txBlockPool := node.txBlockPool.insert (block.hash crypto) block } ∨
      ¬ TakesIn crypto node block ∧ node.serve crypto (.transactionBlocks [block]) = node := by
  have served : node.serve crypto (.transactionBlocks [block]) =
      (handleTransactionBlock crypto node block).node := by
    rw [Node.serve, workerLoop, Message.tasks, List.map_singleton, runTasks]
    split
    · next failed => cases failed
    · next progress passed =>
        cases passed
        have done : (handleTransactionBlock crypto node block).todo = [] := by
          unfold handleTransactionBlock
          split
          · rfl
          split
          · rfl
          split <;> rfl
        rw [done, List.append_nil, runTasks]
  rw [served, handleTransactionBlock, TakesIn]
  split
  · next known => exact .inr ⟨fun takes => takes.1 known, rfl⟩
  next unknown =>
  split
  · next tooHigh => exact .inr ⟨fun takes => takes.2.1 tooHigh, rfl⟩
  next work =>
  split
  · next tooLow => exact .inr ⟨fun takes => takes.2.2 tooLow, rfl⟩
  · next notProposer => exact .inl ⟨⟨unknown, work, notProposer⟩, rfl⟩

/-- Removing a packed transaction that has just been admitted undoes the admission. -/
theorem removeTransactions_insert {txPool : HashMap H256 SignedTransaction}
    {content : List SignedTransaction}
    (inside : ∃ packed ∈ content, packed.hash crypto = tx.hash crypto) :
    removeTransactions crypto (txPool.insert (tx.hash crypto) tx) content =
      removeTransactions crypto txPool content := by
  obtain ⟨packed, member, same⟩ := inside
  apply Finmap.ext_lookup
  intro hash
  apply Option.ext
  intro pending
  rw [lookup_removeTransactions, lookup_removeTransactions, HashMap.lookup_insert_ite]
  constructor
  · rintro ⟨stored, others⟩
    rw [if_neg fun equal => others packed member (same.trans equal.symm)] at stored
    exact ⟨stored, others⟩
  · rintro ⟨stored, others⟩
    rw [if_neg fun equal => others packed member (same.trans equal.symm)]
    exact ⟨stored, others⟩

theorem notMem_removeTransactions {txPool : HashMap H256 SignedTransaction}
    {content : List SignedTransaction} {hash : H256}
    (inside : ∃ packed ∈ content, packed.hash crypto = hash) :
    hash ∉ removeTransactions crypto txPool content := by
  intro member
  obtain ⟨packed, insideContent, same⟩ := inside
  obtain ⟨pending, kept⟩ := HashMap.lookup_of_mem member
  exact (lookup_removeTransactions.mp kept).2 packed insideContent same

/-- A transaction and a block that contains it leave the same mempool in both
orders, unless the block is taken in and the transaction passes the checks. -/
theorem same_txPool_iff
    (inside : ∃ packed ∈ block.content.transactionContent, packed.hash crypto = tx.hash crypto) :
    ((node.serve crypto (.transactions [tx])).serve crypto (.transactionBlocks [block])).txPool =
        ((node.serve crypto (.transactionBlocks [block])).serve crypto
          (.transactions [tx])).txPool ↔
      ¬ (TakesIn crypto node block ∧ Passes crypto node node.blockchain.tip tx) := by
  -- the block finds the same transaction-block pool before and after the transaction
  have blockLast : ∀ middle : Node, middle.txBlockPool = node.txBlockPool →
      TakesIn crypto node block →
      (middle.serve crypto (.transactionBlocks [block])).txPool =
        removeTransactions crypto middle.txPool block.content.transactionContent := by
    intro middle same takes
    rcases serve_transactionBlock middle block with ⟨-, served⟩ | ⟨refused, -⟩
    · rw [served]
    · exact absurd (by rwa [TakesIn, same]) refused
  have blockIgnored : ∀ middle : Node, middle.txBlockPool = node.txBlockPool →
      ¬ TakesIn crypto node block → middle.serve crypto (.transactionBlocks [block]) = middle := by
    intro middle same refuses
    rcases serve_transactionBlock middle block with ⟨takes, -⟩ | ⟨-, served⟩
    · exact absurd (by rwa [TakesIn, same] at takes) refuses
    · exact served
  have transactionFirst :
      (node.serve crypto (.transactions [tx])).txBlockPool = node.txBlockPool := by
    rcases serve_transaction node tx with ⟨-, served⟩ | ⟨-, served⟩ <;> rw [served]
  by_cases takes : TakesIn crypto node block
  · have first : ((node.serve crypto (.transactions [tx])).serve crypto
        (.transactionBlocks [block])).txPool =
          removeTransactions crypto node.txPool block.content.transactionContent := by
      rw [blockLast _ transactionFirst takes]
      rcases serve_transaction node tx with ⟨-, served⟩ | ⟨-, served⟩
      · rw [served]
        exact removeTransactions_insert inside
      · rw [served]
    have absent : tx.hash crypto ∉
        removeTransactions crypto node.txPool block.content.transactionContent :=
      notMem_removeTransactions inside
    rcases serve_transactionBlock node block with ⟨-, packs⟩ | ⟨refused, -⟩
    · rw [first, packs]
      rcases serve_transaction { node with
          txPool := removeTransactions crypto node.txPool block.content.transactionContent
          txBlockPool := node.txBlockPool.insert (block.hash crypto) block } tx with
        ⟨admits, served⟩ | ⟨refused, served⟩
      · rw [served]
        constructor
        · intro same
          exact absurd (same ▸ Finmap.mem_insert.mpr (.inl rfl)) absent
        · exact fun never => absurd ⟨takes, admits.passes⟩ never
      · rw [served]
        exact ⟨fun _ both => refused ⟨absent, both.2⟩, fun _ => rfl⟩
    · exact absurd takes refused
  · rw [blockIgnored node rfl takes, blockIgnored _ transactionFirst takes]
    exact ⟨fun _ both => takes both.1, fun _ => rfl⟩

end Orders

/-- The pools stay disjoint in exactly the runs in which no packed transaction
is admitted again, and a transaction and its block leave the same mempool in
both orders in exactly the cases in which it would not be. -/
theorem disjoint_iff_notReadmitted :
    (∀ run : Run (State.stepWithoutGenerator crypto) (Initial crypto),
      (∀ index ≤ run.length, (run.states index).node.PoolsDisjoint crypto) ↔
        run.Meets (NotReadmitted crypto)) ∧
    ∀ (node : Node) (tx : SignedTransaction) (block : TXBlock),
      (∃ packed ∈ block.content.transactionContent, packed.hash crypto = tx.hash crypto) →
      (((node.serve crypto (.transactions [tx])).serve crypto
          (.transactionBlocks [block])).txPool =
        ((node.serve crypto (.transactionBlocks [block])).serve crypto
          (.transactions [tx])).txPool ↔
        ¬ (TakesIn crypto node block ∧ Passes crypto node node.blockchain.tip tx)) := by
  refine ⟨fun run => ⟨fun disjoint index bound => ?_, fun meets index bound => ?_⟩,
    fun node tx block inside => same_txPool_iff inside⟩
  · exact notReadmitted_of_disjoint (run.steps index bound) (disjoint (index + 1) bound)
  · have invariant := run.invariant_of_meets meets
      (fun state => state.WellFormed crypto ∧ state.node.PoolsDisjoint crypto)
      (fun _ initial => ⟨initial.wellFormed, initial.poolsDisjoint⟩)
      (fun _ _ _ ⟨formed, disjoint⟩ notReadmitted stepped =>
        have original := (step_of_stepWithoutGenerator stepped).1
        ⟨(formed.step original).1, disjoint.step formed notReadmitted stepped⟩)
    exact (invariant index bound).2

theorem initial_sample : Initial Crypto.sample ⟨Node.sample, [], H256.zero⟩ :=
  ⟨rfl, rfl, _, _, rfl⟩

/-- A peer sends a transaction block and then its transaction. -/
def readmittedRun : Run (State.stepWithoutGenerator Crypto.sample) (Initial Crypto.sample) :=
  Run.ofActions ⟨Node.sample, [], H256.zero⟩ initial_sample
    [.ico, .receive (.transactionBlocks [paymentBlock .sample 1000]), .work,
      .receive (.transactions [payment .sample 1000]), .work] (by decide +kernel)

/-- The packed payment is pending again, and in the other order it is not. -/
theorem readmitted_readmittedRun :
    ¬ (readmittedRun.states 5).node.PoolsDisjoint Crypto.sample ∧
      ((((readmittedRun.states 1).node.serve Crypto.sample
          (.transactions [payment .sample 1000])).serve Crypto.sample
          (.transactionBlocks [paymentBlock .sample 1000])).txPool ≠
        (((readmittedRun.states 1).node.serve Crypto.sample
          (.transactionBlocks [paymentBlock .sample 1000])).serve Crypto.sample
          (.transactions [payment .sample 1000])).txPool) := by
  constructor
  · intro disjoint
    exact disjoint ((payment .sample 1000).hash Crypto.sample) (by decide +kernel)
      (by decide +kernel)
  · decide +kernel

end SimplifiedPrism
