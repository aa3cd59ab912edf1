import SimplifiedPrism.GeneratedSpending

/-!
# Chains of accepted blocks

Every ledger that a node publishes for a block of its tree is the ledger of the
initial coin offering after the transactions of some chain of acceptances.  For
generated transactions this gives the conservation of money on every branch
and the absence of double spends along a chain.
-/

namespace SimplifiedPrism

variable {crypto : Crypto}

theorem accepts_of_step {before after : State} {action : Action}
    (formed : before.WellFormed crypto) (published : before.node.Published)
    (stepped : before.stepAfterIco crypto action = some after) :
    (after.node.blockchain = before.node.blockchain ∧
      after.node.globState = before.node.globState) ∨
    ∃ block parentLedger txs ledger,
      Accepts crypto before.node block parentLedger txs ledger after.node := by
  obtain ⟨original, notIco⟩ := step_of_stepAfterIco stepped
  cases formed.cases original with
  | receive _ _ => exact .inl ⟨rfl, rfl⟩
  | looked _ _ => exact .inl ⟨rfl, rfl⟩
  | ico _ => exact absurd rfl notIco
  | generated _ _ _ _ _ _ generated =>
      rw [generated.onlyPool]
      exact .inl ⟨rfl, rfl⟩
  | minerPanicked _ _ _ failure =>
      rw [failure.onlyRefs]
      exact .inl ⟨rfl, rfl⟩
  | panicked task _ _ next failure =>
      rw [failure.onlyRefs formed.node (formed.grounded next)]
      exact .inl ⟨rfl, rfl⟩
  | mined _ _ _ mined =>
      cases mined with
      | nothing => exact .inl ⟨rfl, rfl⟩
      | transaction _ _ _ _ _ _ _ _ _ _ => exact .inl ⟨rfl, rfl⟩
      | proposer _ _ _ _ _ _ _ _ _ _ accepts => exact .inr ⟨_, _, _, _, accepts⟩
  | ran _ _ _ _ _ effect =>
      cases effect with
      | accept _ _ _ _ _ applied =>
          obtain ⟨parentLedger, txs, ledger, accepts⟩ := accepts_of_apply applied
          exact .inr ⟨_, parentLedger, txs, ledger, accepts⟩
      | ico _ _ first =>
          have genesis := (published _ formed.node.chain.genesis).1
          rw [first] at genesis
          exact absurd genesis Finmap.notMem_empty
      | buffer each _ _ _ =>
          rw [bufferOrphan_eq]
          exact .inl ⟨rfl, rfl⟩
      | skip | addr _ _ | transaction _ _ _ _ _ _ _ _ _ _ _ | transactionBlock _ _ _ _
      | release _ _ _ => exact .inl ⟨rfl, rfl⟩

section Chains

variable {initialLedger : Ledger}
variable (run : Run (State.stepAfterIco crypto) (AfterIco crypto initialLedger))

/-- A step of a run accepts a block on top of its parent's ledger. -/
structure AcceptsAt (index : Nat) (block : ProposerBlock) (parentLedger : Ledger)
    (txs : List SignedTransaction) (ledger : Ledger) : Prop where
  bound : index < run.length
  accepts : Accepts crypto (run.states index).node block parentLedger txs ledger
    (run.states (index + 1)).node

/-- The transactions that a run applies in accepted blocks. -/
def Applied : Set SignedTransaction :=
  {tx | ∃ index block parentLedger txs ledger,
    AcceptsAt run index block parentLedger txs ledger ∧ tx ∈ txs}

/-- A chain of accepted blocks leads from one block and its ledger to another,
each block applied to the ledger that its predecessor published. -/
inductive Extends : H256 × Ledger → List SignedTransaction → H256 × Ledger → Prop
  | refl (tip : H256 × Ledger) : Extends tip [] tip
  | accept {start : H256 × Ledger} {history txs : List SignedTransaction} {index : Nat}
      {block : ProposerBlock} {parentLedger ledger : Ledger}
      (chain : Extends start history (block.header.proposerParent, parentLedger))
      (accepted : AcceptsAt run index block parentLedger txs ledger) :
      Extends start (history ++ txs) (block.hash crypto, ledger)

variable {run}

theorem pooled_of_applied {tx : SignedTransaction} (applied : tx ∈ Applied run) :
    ∃ index < run.length, ∃ hash txBlock,
      (run.states index).node.txBlockPool.lookup hash = some txBlock ∧
        tx ∈ txBlock.content.transactionContent := by
  obtain ⟨index, block, _, txs, _, ⟨bound, accepts⟩, member⟩ := applied
  obtain ⟨ref, -, txBlock, found, inside⟩ := (mem_referenced accepts.references).mp member
  exact ⟨index, bound, ref, txBlock, found, inside⟩

theorem AcceptsAt.of_apply {index : Nat} {block : ProposerBlock} {parentLedger ledger : Ledger}
    {txs : List SignedTransaction} (bound : index < run.length)
    (applied : applyProposerBlock crypto (run.states index).node block =
      .ok (run.states (index + 1)).node)
    (parent : (run.states index).node.globState.lookup block.header.proposerParent =
      some parentLedger)
    (collected : referenced (run.states index).node.txBlockPool block.content.proposerContent =
      some txs)
    (published : (run.states (index + 1)).node.globState.lookup (block.hash crypto) =
      some ledger) :
    AcceptsAt run index block parentLedger txs ledger := by
  obtain ⟨sameParent, sameTxs, sameLedger, accepts⟩ := accepts_of_apply applied
  obtain rfl : sameParent = parentLedger :=
    Option.some.inj (accepts.parentState.symm.trans parent)
  obtain rfl : sameTxs = txs := Option.some.inj (accepts.references.symm.trans collected)
  rw [accepts.globState, Finmap.lookup_insert, Option.some.injEq] at published
  subst published
  exact ⟨bound, accepts⟩

/-- The ledger at the end of a chain results from the transactions in between. -/
theorem Extends.applied {start tip : H256 × Ledger} {history : List SignedTransaction}
    (chain : Extends run start history tip) :
    applyTransactions crypto start.2 history = some tip.2 := by
  induction chain with
  | refl => exact applyTransactions_nil _
  | accept chain accepted ih =>
      rw [applyTransactions_append, ih, Option.bind_some]
      exact accepted.accepts.applied

theorem Extends.subset_applied {start tip : H256 × Ledger} {history : List SignedTransaction}
    (chain : Extends run start history tip) : ∀ tx ∈ history, tx ∈ Applied run := by
  induction chain with
  | refl => simp
  | accept chain accepted ih =>
      intro tx member
      rcases List.mem_append.mp member with earlier | last
      · exact ih tx earlier
      · exact ⟨_, _, _, _, _, accepted, last⟩

/-- Every published ledger of the tree stands at the end of a chain from genesis. -/
theorem extends_of_published
    (run : Run (State.stepAfterIco crypto) (AfterIco crypto initialLedger)) :
    ∀ index ≤ run.length, ∀ hash ∈ (run.states index).node.blockchain.blocks, ∀ ledger,
      (run.states index).node.globState.lookup hash = some ledger →
        ∃ history, Extends run (genesisHash crypto, initialLedger) history (hash, ledger) := by
  intro index bound
  induction index with
  | zero =>
      intro hash member ledger found
      have start := run.starts
      have onlyGenesis : hash = genesisHash crypto := by
        simpa [start.chain, Blockchain.new, Finmap.notMem_empty] using member
      subst onlyGenesis
      rw [start.globState, Option.some.injEq] at found
      subst found
      exact ⟨[], .refl _⟩
  | succ index ih =>
      intro hash member ledger found
      obtain ⟨formed, published⟩ := published_of_run run index (by omega)
      have inside : index < run.length := bound
      have earlier := ih (by omega)
      rcases accepts_of_step formed published (run.steps index inside) with
        ⟨sameChain, sameState⟩ | ⟨block, parentLedger, txs, accepted, accepts⟩
      · rw [sameChain] at member
        rw [sameState] at found
        exact earlier hash member ledger found
      · rw [accepts.globState, HashMap.lookup_insert_ite] at found
        split at found
        · next same =>
            cases found
            have parent : block.header.proposerParent ∈
                (run.states index).node.blockchain.blocks := by
              obtain ⟨parentHeight, height, -⟩ := Blockchain.insert_ok accepts.inserted
              exact (formed.node.chain.heights _).mp (Finmap.mem_of_lookup_eq_some height)
            obtain ⟨history, chain⟩ := earlier _ parent _ accepts.parentState
            exact ⟨history ++ txs, same ▸ chain.accept ⟨inside, accepts⟩⟩
        · next other =>
            rw [accepts.blocks, Finmap.mem_insert] at member
            exact earlier hash (member.resolve_left other) ledger found

end Chains

/-! ## Conservation of money -/

section Conservation

variable {Peer : Type} {allAddr : List H160}
variable (runs : Peer → Run (State.stepAfterIco crypto) (AfterIco crypto (icoState allAddr)))

/-- A transaction that some node can have generated from the ledger of some
block of its tree. -/
def GeneratedInTree (tx : SignedTransaction) : Prop :=
  ∃ peer, ∃ index ≤ (runs peer).length,
    ∃ hash ∈ ((runs peer).states index).node.blockchain.blocks, ∃ ledger,
      ((runs peer).states index).node.globState.lookup hash = some ledger ∧
        GeneratorMade crypto ledger tx

/-- The transactions that some node applies in accepted blocks. -/
def AppliedSomewhere : Set SignedTransaction :=
  {tx | ∃ peer, tx ∈ Applied (runs peer)}

variable {runs}

theorem singleSpends_of_generated
    (made : ∀ tx ∈ AppliedSomewhere runs, GeneratedInTree runs tx)
    (injective : Set.InjOn (SignedTransaction.hash crypto) (AppliedSomewhere runs))
    (nonzero : ∀ tx ∈ AppliedSomewhere runs, tx.hash crypto ≠ H256.zero) :
    SingleSpends crypto (AppliedSomewhere runs) where
  spends := by
    intro tx applied
    obtain ⟨_, _, _, _, _, _, _, generated⟩ := made tx applied
    obtain ⟨outpoint, _, first, second, -, spends, -⟩ := generated.spendsTwice
    exact ⟨outpoint, first, second, spends⟩
  injective := injective
  nonzero := nonzero

/-- Money is conserved on every branch: with transactions generated from the
ledgers of the tree, in any order and with any duplicates and conflicts, every
block of every node has the total of the initial coin offering. -/
theorem total_of_generated (runs : Peer → Run (State.stepAfterIco crypto)
      (AfterIco crypto (icoState allAddr)))
    (made : ∀ tx ∈ AppliedSomewhere runs, GeneratedInTree runs tx)
    (injective : Set.InjOn (SignedTransaction.hash crypto) (AppliedSomewhere runs))
    (nonzero : ∀ tx ∈ AppliedSomewhere runs, tx.hash crypto ≠ H256.zero) :
    ∀ peer, ∀ index ≤ (runs peer).length,
      ∀ hash ∈ ((runs peer).states index).node.blockchain.blocks,
        ∃ ledger, ((runs peer).states index).node.globState.lookup hash = some ledger ∧
          ledger.total = (icoState allAddr).total := by
  have singles := singleSpends_of_generated made injective nonzero
  have original := original_icoState allAddr
  have members : ∀ {peer : Peer} {tip : H256 × Ledger} {history : List SignedTransaction},
      Extends (runs peer) (genesisHash crypto, icoState allAddr) history tip →
        ∀ tx ∈ history, tx ∈ AppliedSomewhere runs :=
    fun chain tx inside => ⟨_, chain.subset_applied tx inside⟩
  have balanced : Balanced crypto (icoState allAddr) (AppliedSomewhere runs) := by
    intro tx applied
    obtain ⟨peer, index, bound, hash, member, ledger, found, generated⟩ := made tx applied
    obtain ⟨history, chain⟩ := extends_of_published (runs peer) index bound hash member ledger found
    obtain ⟨outpoint, coin, first, second, coinFound, spends, shared⟩ := generated.spendsTwice
    exact ⟨outpoint, coin, first, second,
      issued_of_lookup singles (members chain) chain.applied coinFound, spends, shared⟩
  intro peer index bound hash member
  obtain ⟨-, published⟩ := published_of_run (runs peer) index bound
  obtain ⟨ledger, found⟩ := HashMap.lookup_of_mem (published hash member).1
  obtain ⟨history, chain⟩ := extends_of_published (runs peer) index bound hash member ledger found
  exact ⟨ledger, found, total_of_balanced singles original balanced (members chain) chain.applied⟩

/-- Three of the thousand coins go to the sample node itself, the rest back. -/
def SignedTransaction.sample : SignedTransaction :=
  let transaction : Transaction :=
    { inputPrevious := [H256.zero, H256.zero]
      inputIndex := [0, 0]
      outputValue := [300, 700]
      outputAddress := [.sample, .sample] }
  ⟨transaction, ⟨sign Crypto.sample transaction .sample, Crypto.sample.publicKey .sample⟩⟩

/-- Generate the transaction, mine it into a transaction block and refer to that
block from a proposer block. -/
def spendingActions : List Action :=
  [.generate [⟨(H256.zero, 0), 0, 299⟩],
    .mine ⟨[SignedTransaction.sample.hash Crypto.sample], [], 0x2001, 2⟩,
    .mine ⟨[], [sampleHash 0x2001], 2, 3⟩]

def spendingRun :
    Run (State.stepAfterIco Crypto.sample) (AfterIco Crypto.sample (icoState [.sample])) :=
  Run.sample spendingActions (by decide +kernel)

theorem generatorMade_sample :
    GeneratorMade Crypto.sample (icoState [.sample]) SignedTransaction.sample :=
  ⟨[.sample], .sample, ⟨(H256.zero, 0), 0, 299⟩, (1000, .sample), by decide +kernel, by decide,
    by decide +kernel⟩

def sampleBlock : TXBlock :=
  { header :=
      { Header.sample 0x2001 (genesisHash Crypto.sample) with
        timestamp := 2
        merkleTransaction := SignedTransaction.sample.hash Crypto.sample }
    content := ⟨[SignedTransaction.sample]⟩ }

theorem applied_spendingRun : Applied spendingRun ⊆ {SignedTransaction.sample} := by
  intro tx applied
  obtain ⟨index, bound, hash, txBlock, found, inside⟩ := pooled_of_applied applied
  change index < 3 at bound
  have empty : ∀ index < 2, (spendingRun.states index).node.txBlockPool = ∅ := by
    decide +kernel
  have filled : (spendingRun.states 2).node.txBlockPool =
      (∅ : HashMap H256 TXBlock).insert (sampleHash 0x2001) sampleBlock := by
    decide +kernel
  by_cases early : index < 2
  · rw [empty index early] at found
    simp at found
  · obtain rfl : index = 2 := by omega
    rw [filled, HashMap.lookup_insert_ite] at found
    split at found
    · cases found
      exact List.mem_singleton.mp inside
    · simp at found

theorem total_of_generated_spendingRun :
    ∃ ledger, (spendingRun.states 3).node.globState.lookup (sampleHash 2) = some ledger ∧
      ledger.total = (icoState [.sample]).total := by
  have applied : AppliedSomewhere (fun _ : Unit => spendingRun) ⊆ {SignedTransaction.sample} :=
    fun tx ⟨_, inside⟩ => applied_spendingRun inside
  refine total_of_generated (fun _ : Unit => spendingRun) ?_ ?_ ?_ () 3 (by decide) _
    (by decide +kernel)
  · intro tx inside
    obtain rfl := applied inside
    exact ⟨(), 0, by decide, genesisHash Crypto.sample, by decide +kernel, icoState [.sample],
      by decide +kernel, generatorMade_sample⟩
  · intro tx inside other otherInside _
    rw [applied inside, applied otherInside]
  · intro tx inside
    obtain rfl := applied inside
    decide +kernel

end Conservation

/-! ## No double spend along a chain -/

section DoubleSpends

/-- The ledger before the transaction at a position of a history. -/
def ledgerAt (crypto : Crypto) (initialLedger : Ledger) (history : List SignedTransaction)
    (position : Nat) : Option Ledger :=
  applyTransactions crypto initialLedger (history.take position)

/-- The application at a position takes an outpoint out of the ledger. -/
def Consumes (crypto : Crypto) (initialLedger : Ledger) (history : List SignedTransaction)
    (outpoint : Outpoint) (position : Nat) : Prop :=
  ∃ before after, ledgerAt crypto initialLedger history position = some before ∧
    ledgerAt crypto initialLedger history (position + 1) = some after ∧
      outpoint ∈ before ∧ outpoint ∉ after

variable {initialLedger : Ledger} {history : List SignedTransaction}

theorem ledgerAt_succ {position : Nat} {tx : SignedTransaction}
    (found : history[position]? = some tx) :
    ledgerAt crypto initialLedger history (position + 1) =
      (ledgerAt crypto initialLedger history position).bind
        fun currState => updateState crypto currState tx := by
  obtain ⟨bound, rfl⟩ := List.getElem?_eq_some_iff.mp found
  rw [ledgerAt, List.take_succ_eq_append_getElem bound, applyTransactions_append, ← ledgerAt]
  cases ledgerAt crypto initialLedger history position with
  | none => rfl
  | some currState =>
      rw [Option.bind_some, Option.bind_some, applyTransactions_cons]
      simp

theorem ledgerAt_length :
    ledgerAt crypto initialLedger history history.length =
      applyTransactions crypto initialLedger history := by
  rw [ledgerAt, List.take_length]

theorem ledgerAt_append {position : Nat} (bound : position ≤ history.length)
    (later : List SignedTransaction) :
    ledgerAt crypto initialLedger (history ++ later) position =
      ledgerAt crypto initialLedger history position := by
  rw [ledgerAt, List.take_append_of_le_length bound, ledgerAt]

theorem Consumes.spender {outpoint : Outpoint} {position : Nat}
    (consumes : Consumes crypto initialLedger history outpoint position) :
    ∃ tx before, history[position]? = some tx ∧ tx.transaction.lastInput = some outpoint ∧
      ledgerAt crypto initialLedger history position = some before ∧ outpoint ∈ before := by
  obtain ⟨before, after, reached, next, present, removed⟩ := consumes
  cases found : history[position]? with
  | none =>
      have short : history.length ≤ position := List.getElem?_eq_none_iff.mp found
      rw [ledgerAt, List.take_of_length_le (by omega)] at reached next
      rw [reached, Option.some.injEq] at next
      exact absurd (next ▸ present) removed
  | some tx =>
      rw [ledgerAt_succ found, reached, Option.bind_some] at next
      exact ⟨tx, before, rfl, lastInput_of_removed next present removed, reached, present⟩

theorem exists_consumes {outpoint : Outpoint} {first last : Nat} (ordered : first ≤ last)
    {before after : Ledger} (reached : ledgerAt crypto initialLedger history first = some before)
    (reachedLast : ledgerAt crypto initialLedger history last = some after)
    (present : outpoint ∈ before) (removed : outpoint ∉ after) :
    ∃ position < last, Consumes crypto initialLedger history outpoint position := by
  induction last, ordered using Nat.le_induction generalizing after with
  | base =>
      rw [reached, Option.some.injEq] at reachedLast
      exact absurd (reachedLast ▸ present) removed
  | succ last ordered ih =>
      have middle : ∃ currState, ledgerAt crypto initialLedger history last = some currState := by
        cases found : history[last]? with
        | none =>
            have short : history.length ≤ last := List.getElem?_eq_none_iff.mp found
            rw [ledgerAt, List.take_of_length_le (by omega)] at reachedLast
            exact ⟨after, by rw [ledgerAt, List.take_of_length_le short, reachedLast]⟩
        | some tx =>
            rw [ledgerAt_succ found, Option.bind_eq_some_iff] at reachedLast
            obtain ⟨currState, found, -⟩ := reachedLast
            exact ⟨currState, found⟩
      obtain ⟨currState, reachedMiddle⟩ := middle
      by_cases kept : outpoint ∈ currState
      · exact ⟨last, by omega, currState, after, reachedMiddle, reachedLast, kept, removed⟩
      · obtain ⟨position, earlier, consumes⟩ := ih reachedMiddle kept
        exact ⟨position, by omega, consumes⟩

section SingleSpends

variable {txs : Set SignedTransaction} (singles : SingleSpends crypto txs)
variable (original : initialLedger.Original) (members : ∀ tx ∈ history, tx ∈ txs)

include singles original members

/-- Once spent while present, an outpoint is in no later ledger. -/
theorem notMem_later {tx : SignedTransaction} {outpoint : Outpoint} {first last : Nat}
    (found : history[first]? = some tx) (spends : tx.transaction.lastInput = some outpoint)
    {before after : Ledger} (reached : ledgerAt crypto initialLedger history first = some before)
    (present : outpoint ∈ before) (later : first < last)
    (reachedLast : ledgerAt crypto initialLedger history last = some after) :
    outpoint ∉ after := by
  obtain ⟨bound, rfl⟩ := List.getElem?_eq_some_iff.mp found
  have taken : history.take last =
      history.take first ++ history[first] :: (history.take last).drop (first + 1) := by
    have split := List.take_append_drop (first + 1) (history.take last)
    rw [List.take_take, Nat.min_eq_left (by omega), List.take_succ_eq_append_getElem bound,
      List.append_assoc, List.singleton_append] at split
    exact split.symm
  have membersTaken : ∀ (count : Nat), ∀ other ∈ history.take count, other ∈ txs :=
    fun count other inside => members other (List.mem_of_mem_take inside)
  have keysFirst := keys_applyTransactions singles (membersTaken first) reached
  have keysLast := keys_applyTransactions singles (membersTaken last) reachedLast
  have input : (spendScheme crypto initialLedger).input history[first] = outpoint := by
    simp [spendScheme, spends]
  have unspent : (spendScheme crypto initialLedger).input history[first] ∈
      (spendScheme crypto initialLedger).unspent (history.take first) := by
    rw [← keysFirst, input]
    exact present
  have gone := SpendScheme.notMem_of_spent (fresh_of_singleSpends singles original)
    (taken ▸ membersTaken last) unspent
  rw [← taken, ← keysLast, input] at gone
  exact gone

theorem Consumes.unique {outpoint : Outpoint} {first last : Nat}
    (consumes : Consumes crypto initialLedger history outpoint first)
    (again : Consumes crypto initialLedger history outpoint last) : first = last := by
  have never : ∀ {earlier later : Nat}, Consumes crypto initialLedger history outpoint earlier →
      Consumes crypto initialLedger history outpoint later → ¬ earlier < later := by
    intro earlier later consumes again less
    obtain ⟨tx, before, found, spends, reached, present⟩ := consumes.spender
    obtain ⟨currState, -, reachedLater, -, presentLater, -⟩ := again
    exact notMem_later singles original members found spends reached present less reachedLater
      presentLater
  have notLess := never consumes again
  have notGreater := never again consumes
  omega

theorem effect_of_present {tx : SignedTransaction} {outpoint : Outpoint} {position : Nat}
    (found : history[position]? = some tx) (spends : tx.transaction.lastInput = some outpoint)
    {before : Ledger} (reached : ledgerAt crypto initialLedger history position = some before)
    (present : outpoint ∈ before) :
    ∃ after, ledgerAt crypto initialLedger history (position + 1) = some after ∧
      outpoint ∉ after ∧ (tx.hash crypto, 0) ∈ after ∧ (tx.hash crypto, 1) ∈ after := by
  have member : tx ∈ txs := members tx (List.mem_of_getElem? found)
  obtain ⟨input, first, second, twice⟩ := singles.spends tx member
  have same : input = outpoint := Option.some.inj (twice.lastInput.symm.trans spends)
  subst same
  have membersTaken : ∀ other ∈ history.take position, other ∈ txs :=
    fun other inside => members other (List.mem_of_mem_take inside)
  have keys := keys_applyTransactions singles membersTaken reached
  have unspent : (spendScheme crypto initialLedger).input tx ∈
      (spendScheme crypto initialLedger).unspent (history.take position) := by
    rw [← keys, twice.input]
    exact present
  have new : ∀ other ∈ (spendScheme crypto initialLedger).creates tx, other ≠ input := by
    rintro other created rfl
    have already : other ∈ (spendScheme crypto initialLedger).unspent (history.take position) :=
      keys ▸ present
    exact SpendScheme.creates_notMem_unspent (fresh_of_singleSpends singles original)
      membersTaken member unspent created already
  refine ⟨spent crypto before tx input first second, ?_, ?_, ?_, ?_⟩
  · rw [ledgerAt_succ found, reached, Option.bind_some, twice.updateState_of_mem present]
  · simp [mem_spent]
  · exact mem_spent.mpr ⟨new _ (.inl rfl), .inr (.inl rfl)⟩
  · exact mem_spent.mpr ⟨new _ (.inr rfl), .inl rfl⟩

theorem no_effect_of_spent {tx other : SignedTransaction} {outpoint : Outpoint} {first last : Nat}
    (found : history[first]? = some tx) (spends : tx.transaction.lastInput = some outpoint)
    (foundLast : history[last]? = some other)
    (spendsLast : other.transaction.lastInput = some outpoint)
    {before : Ledger} (reached : ledgerAt crypto initialLedger history first = some before)
    (present : outpoint ∈ before) (later : first < last) :
    ledgerAt crypto initialLedger history (last + 1) =
      ledgerAt crypto initialLedger history last := by
  rw [ledgerAt_succ foundLast]
  cases reachedLast : ledgerAt crypto initialLedger history last with
  | none => rfl
  | some currState =>
      have absent := notMem_later singles original members found spends reached present later
        reachedLast
      obtain ⟨input, _, _, twice⟩ := singles.spends other
        (members other (List.mem_of_getElem? foundLast))
      have same : input = outpoint := Option.some.inj (twice.lastInput.symm.trans spendsLast)
      subst same
      exact twice.updateState_of_notMem absent

end SingleSpends

/-- No double spend along a chain of accepted blocks with generated
transactions: an outpoint is consumed by at most one application; an outpoint
that has left the ledger of a block is in the ledger of no descendant; and of
the transactions that name an outpoint the first that finds it takes effect,
while the later ones do nothing. -/
theorem no_double_spend {allAddr : List H160}
    {run : Run (State.stepAfterIco crypto) (AfterIco crypto (icoState allAddr))}
    {ancestor descendant : H256 × Ledger} {upper lower : List SignedTransaction}
    (chain : Extends run (genesisHash crypto, icoState allAddr) upper ancestor)
    (extended : Extends run ancestor lower descendant)
    (made : ∀ tx ∈ upper ++ lower, ∃ ledger, GeneratorMade crypto ledger tx)
    (injective : Set.InjOn (SignedTransaction.hash crypto) {tx | tx ∈ upper ++ lower})
    (nonzero : ∀ tx ∈ upper ++ lower, tx.hash crypto ≠ H256.zero) :
    (∀ outpoint first last,
      Consumes crypto (icoState allAddr) (upper ++ lower) outpoint first →
      Consumes crypto (icoState allAddr) (upper ++ lower) outpoint last → first = last) ∧
    (∀ outpoint position before, position ≤ upper.length →
      ledgerAt crypto (icoState allAddr) upper position = some before →
      outpoint ∈ before → outpoint ∉ ancestor.2 → outpoint ∉ descendant.2) ∧
    (∀ outpoint first last tx other before, first < last →
      (upper ++ lower)[first]? = some tx → tx.transaction.lookupKey 0 = some outpoint →
      (upper ++ lower)[last]? = some other → other.transaction.lookupKey 0 = some outpoint →
      ledgerAt crypto (icoState allAddr) (upper ++ lower) first = some before →
      outpoint ∈ before →
        Consumes crypto (icoState allAddr) (upper ++ lower) outpoint first ∧
        (∃ after, ledgerAt crypto (icoState allAddr) (upper ++ lower) (first + 1) = some after ∧
          (tx.hash crypto, 0) ∈ after ∧ (tx.hash crypto, 1) ∈ after) ∧
        ledgerAt crypto (icoState allAddr) (upper ++ lower) (last + 1) =
          ledgerAt crypto (icoState allAddr) (upper ++ lower) last) := by
  have singles : SingleSpends crypto {tx | tx ∈ upper ++ lower} :=
    { spends := by
        intro tx member
        obtain ⟨ledger, generated⟩ := made tx member
        obtain ⟨outpoint, _, first, second, -, spends, -⟩ := generated.spendsTwice
        exact ⟨outpoint, first, second, spends⟩
      injective := injective
      nonzero := nonzero }
  have original := original_icoState allAddr
  have members : ∀ tx ∈ upper ++ lower, tx ∈ {tx | tx ∈ upper ++ lower} := fun _ inside => inside
  have input : ∀ {position : Nat} {tx : SignedTransaction} {outpoint : Outpoint},
      (upper ++ lower)[position]? = some tx → tx.transaction.lookupKey 0 = some outpoint →
        tx.transaction.lastInput = some outpoint := by
    intro position tx outpoint found key
    obtain ⟨named, _, _, spends⟩ := singles.spends tx (List.mem_of_getElem? found)
    rw [spends.lastInput, ← spends.input0, key]
  refine ⟨?_, ?_, ?_⟩
  · intro outpoint first last consumes again
    exact consumes.unique singles original members again
  · intro outpoint position before bound reached present left
    have reachedAncestor : ledgerAt crypto (icoState allAddr) (upper ++ lower) upper.length =
        some ancestor.2 := by
      rw [ledgerAt_append (le_refl _), ledgerAt_length]
      exact chain.applied
    have reachedDescendant :
        ledgerAt crypto (icoState allAddr) (upper ++ lower) (upper ++ lower).length =
          some descendant.2 := by
      rw [ledgerAt_length, applyTransactions_append, chain.applied, Option.bind_some]
      exact extended.applied
    rw [← ledgerAt_append bound lower] at reached
    obtain ⟨consumed, earlier, consumes⟩ :=
      exists_consumes bound reached reachedAncestor present left
    obtain ⟨tx, currState, found, spends, reachedConsumed, presentConsumed⟩ := consumes.spender
    have later : consumed < (upper ++ lower).length := by
      rw [List.length_append]
      omega
    exact notMem_later singles original members found spends reachedConsumed presentConsumed
      later reachedDescendant
  · intro outpoint first last tx other before less found key foundLast keyLast reached present
    have spends := input found key
    obtain ⟨after, reachedNext, removed, output0, output1⟩ :=
      effect_of_present singles original members found spends reached present
    exact ⟨⟨before, after, reached, reachedNext, present, removed⟩,
      ⟨after, reachedNext, output0, output1⟩,
      no_effect_of_spent singles original members found spends foundLast (input foundLast keyLast)
        reached present less⟩

/-- The coin that `SignedTransaction.sample` spends, spent in two halves. -/
def SignedTransaction.sampleHalves : SignedTransaction :=
  let transaction : Transaction :=
    { inputPrevious := [H256.zero, H256.zero]
      inputIndex := [0, 0]
      outputValue := [500, 500]
      outputAddress := [.sample, .sample] }
  ⟨transaction, ⟨sign Crypto.sample transaction .sample, Crypto.sample.publicKey .sample⟩⟩

theorem generatorMade_sampleHalves :
    GeneratorMade Crypto.sample (icoState [.sample]) SignedTransaction.sampleHalves :=
  ⟨[.sample], .sample, ⟨(H256.zero, 0), 0, 499⟩, (1000, .sample), by decide +kernel, by decide,
    by decide +kernel⟩

/-- A transaction block and a proposer block that refers to it. -/
def deliverSpends (nonce : UInt32) (txs : List SignedTransaction) (proposal : UInt32)
    (parent : H256) : List Action :=
  deliver ⟨Header.sample nonce (genesisHash Crypto.sample), ⟨txs⟩⟩
    ⟨Header.sample proposal parent, ⟨[sampleHash nonce]⟩⟩ ++ [.work]

/-- A block spends the first coin, and its child brings a conflicting transaction and the
same one again. -/
def conflictingRun :
    Run (State.stepAfterIco Crypto.sample) (AfterIco Crypto.sample (icoState [.sample])) :=
  Run.sample
    (deliverSpends 0x2001 [.sample] 2 (genesisHash Crypto.sample) ++
      deliverSpends 0x2002 [.sampleHalves, .sample] 3 (sampleHash 2))
    (by decide +kernel)

def conflictingHistory : List SignedTransaction :=
  [.sample] ++ [.sampleHalves, .sample]

theorem extends_conflictingRun :
    ∃ parentLedger ledger,
      Extends conflictingRun (genesisHash Crypto.sample, icoState [.sample]) [.sample]
        (sampleHash 2, parentLedger) ∧
      Extends conflictingRun (sampleHash 2, parentLedger) [.sampleHalves, .sample]
        (sampleHash 3, ledger) := by
  let parent : ProposerBlock :=
    ⟨Header.sample 2 (genesisHash Crypto.sample), ⟨[sampleHash 0x2001]⟩⟩
  let child : ProposerBlock := ⟨Header.sample 3 (sampleHash 2), ⟨[sampleHash 0x2002]⟩⟩
  have parentMember : sampleHash 2 ∈ (conflictingRun.states 4).node.globState := by
    decide +kernel
  have childMember : sampleHash 3 ∈ (conflictingRun.states 9).node.globState := by
    decide +kernel
  have kept : (conflictingRun.states 8).node.globState =
      (conflictingRun.states 4).node.globState := by
    decide +kernel
  obtain ⟨parentLedger, parentFound⟩ := HashMap.lookup_of_mem parentMember
  obtain ⟨ledger, found⟩ := HashMap.lookup_of_mem childMember
  have parentAccepted : AcceptsAt conflictingRun 3 parent (icoState [.sample]) [.sample]
      parentLedger :=
    .of_apply (by decide) (by decide +kernel) (by decide +kernel) (by decide +kernel) parentFound
  have accepted : AcceptsAt conflictingRun 8 child parentLedger [.sampleHalves, .sample]
      ledger :=
    .of_apply (by decide) (by decide +kernel) (kept ▸ parentFound) (by decide +kernel) found
  exact ⟨parentLedger, ledger, (Extends.refl _).accept parentAccepted,
    (Extends.refl _).accept accepted⟩

theorem no_double_spend_conflictingRun :
    ∃ parentLedger ledger,
      Extends conflictingRun (genesisHash Crypto.sample, icoState [.sample]) [.sample]
        (sampleHash 2, parentLedger) ∧
      Extends conflictingRun (sampleHash 2, parentLedger) [.sampleHalves, .sample]
        (sampleHash 3, ledger) ∧
      (H256.zero, 0) ∉ ledger ∧
      Consumes Crypto.sample (icoState [.sample]) conflictingHistory (H256.zero, 0) 0 ∧
      (∀ position,
        Consumes Crypto.sample (icoState [.sample]) conflictingHistory (H256.zero, 0) position →
          position = 0) ∧
      ledgerAt Crypto.sample (icoState [.sample]) conflictingHistory 2 =
        ledgerAt Crypto.sample (icoState [.sample]) conflictingHistory 1 ∧
      ledgerAt Crypto.sample (icoState [.sample]) conflictingHistory 3 =
        ledgerAt Crypto.sample (icoState [.sample]) conflictingHistory 2 := by
  obtain ⟨parentLedger, ledger, chain, extended⟩ := extends_conflictingRun
  have names : ∀ tx ∈ conflictingHistory, tx = .sample ∨ tx = .sampleHalves := by
    decide +kernel
  have apart : SignedTransaction.sample.hash Crypto.sample ≠
      SignedTransaction.sampleHalves.hash Crypto.sample := by
    decide +kernel
  have start : ledgerAt Crypto.sample (icoState [.sample]) conflictingHistory 0 =
      some (icoState [.sample]) :=
    applyTransactions_nil _
  have present : (H256.zero, 0) ∈ icoState [.sample] := by decide +kernel
  obtain ⟨once, gone, later⟩ := no_double_spend chain extended
    (by
      intro tx inside
      rcases names tx inside with rfl | rfl
      · exact ⟨_, generatorMade_sample⟩
      · exact ⟨_, generatorMade_sampleHalves⟩)
    (by
      intro tx inside other otherInside same
      rcases names tx inside with rfl | rfl <;> rcases names other otherInside with rfl | rfl
      · rfl
      · exact absurd same apart
      · exact absurd same.symm apart
      · rfl)
    (by decide +kernel)
  obtain ⟨consumes, -, unchanged⟩ := later (H256.zero, 0) 0 1 .sample .sampleHalves _
    (by decide) rfl (by decide +kernel) rfl (by decide +kernel) start present
  obtain ⟨-, -, unchangedAgain⟩ := later (H256.zero, 0) 0 2 .sample .sample _
    (by decide) rfl (by decide +kernel) rfl (by decide +kernel) start present
  have left : (H256.zero, 0) ∉ parentLedger := by
    have applied : (applyTransactions Crypto.sample (icoState [.sample]) [.sample]).all
        (fun ledger => (H256.zero, 0) ∉ ledger) = true := by
      decide +kernel
    rw [chain.applied] at applied
    simpa using applied
  exact ⟨parentLedger, ledger, chain, extended,
    gone (H256.zero, 0) 0 _ (by decide) (applyTransactions_nil _) present left, consumes,
    fun position again => once _ position 0 again consumes, unchanged, unchangedAgain⟩

end DoubleSpends

end SimplifiedPrism
