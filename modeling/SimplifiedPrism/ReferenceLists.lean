import SimplifiedPrism.MinerAcceptance
import SimplifiedPrism.RemainingOutputs

/-!
# Ledgers and reference lists

Accepting a block extends the reference list of its parent by the references
that are new, and applies the transaction blocks of all its references.  The two
agree as long as no repeated transaction can be spent again: none has its last input
left, and none has an output that is spent while the input behind it is left.
-/

namespace SimplifiedPrism

variable {crypto : Crypto}

variable (crypto) in
/-- The last input of the transaction is spent, and wherever another input is
left, the ledger has the output that is written for it. -/
def SignedTransaction.Inert (tx : SignedTransaction) (ledger : Ledger) : Prop :=
  (∀ key ∈ tx.transaction.lastInput, key ∉ ledger) ∧
    ∀ i < tx.transaction.inputPrevious.length,
      ∀ key ∈ tx.transaction.lookupKey i, key ∈ ledger →
        ∀ coin ∈ tx.transaction.output i,
          ledger.lookup (tx.hash crypto, UInt32.ofNat i) = some coin

variable (crypto) in
/-- Going through the references of a block with the references of its parent
and its ledger so far, every transaction of a repeated reference is inert. -/
def RepeatsInert (txBlockPool : HashMap H256 TXBlock) :
    List H256 → Ledger → List H256 → Prop
  | _, _, [] => True
  | seen, ledger, ref :: refs => ∀ txBlock ∈ txBlockPool.lookup ref,
      (ref ∈ seen → ∀ tx ∈ txBlock.content.transactionContent, tx.Inert crypto ledger) ∧
      ∀ next ∈ applyTransactions crypto ledger txBlock.content.transactionContent,
        RepeatsInert txBlockPool (if ref ∈ seen then seen else seen ++ [ref]) next refs

section Inert

variable {tx : SignedTransaction} {ledger : Ledger}

private theorem loop_of_inert (inert : tx.Inert crypto ledger) {count : Nat}
    {spending : Spending} (bound : count ≤ tx.transaction.inputPrevious.length)
    (looped : Spending.loop (tx.hash crypto) tx.transaction ledger count = some spending) :
    spending.currState = ledger := by
  induction count generalizing spending with
  | zero =>
      rw [Spending.loop_zero, Option.some.injEq] at looped
      rw [← looped]
  | succ count ih =>
      rw [Spending.loop_succ, Option.bind_eq_some_iff] at looped
      obtain ⟨before, looped, stepped⟩ := looped
      have unchanged := ih (by omega) looped
      obtain ⟨key, keyed, -, ⟨present, coin, produced, written, -⟩ | ⟨-, kept, -⟩⟩ :=
        Spending.next_cases stepped
      · rw [unchanged] at present
        have stored := inert.2 count (by omega) key keyed present coin produced
        rw [written, unchanged, HashMap.insert_lookup_self stored]
      · rw [kept, unchanged]

theorem SignedTransaction.Inert.updateState {after : Ledger} (inert : tx.Inert crypto ledger)
    (updated : updateState crypto ledger tx = some after) : after = ledger := by
  rcases updateState_cases updated with unchanged | ⟨-, spending, looped, last, erased⟩
  · exact unchanged
  · have absent := inert.1 _ last
    rw [erased, loop_of_inert inert (le_refl _) looped]
    apply Finmap.ext_lookup
    intro outpoint
    rw [HashMap.lookup_erase_ite]
    split
    · next same =>
        rw [same]
        exact (Finmap.lookup_eq_none.mpr absent).symm
    · rfl

theorem applyTransactions_of_inert {txs : List SignedTransaction} {after : Ledger}
    (inert : ∀ tx ∈ txs, tx.Inert crypto ledger)
    (applied : applyTransactions crypto ledger txs = some after) : after = ledger := by
  induction txs with
  | nil =>
      rw [applyTransactions_nil, Option.some.injEq] at applied
      exact applied.symm
  | cons tx txs ih =>
      rw [applyTransactions_cons, Option.bind_eq_some_iff] at applied
      obtain ⟨next, updated, applied⟩ := applied
      rw [(inert tx List.mem_cons_self).updateState updated] at applied
      exact ih (fun other member => inert other (List.mem_cons_of_mem _ member)) applied

end Inert

/-! ## Merged reference lists -/

section Merge

variable {txBlockPool : HashMap H256 TXBlock}

theorem mergeRef_cons (seen refs : List H256) (ref : H256) :
    mergeRef seen (ref :: refs) =
      mergeRef (if ref ∈ seen then seen else seen ++ [ref]) refs :=
  rfl

theorem mergeRef_nodup {seen refs : List H256} (nodup : seen.Nodup) :
    (mergeRef seen refs).Nodup := by
  induction refs generalizing seen with
  | nil => exact nodup
  | cons ref refs ih =>
      rw [mergeRef_cons]
      apply ih
      split
      · exact nodup
      · next unseen =>
          rw [← List.concat_eq_append]
          exact nodup.concat unseen

theorem prefix_mergeRef (seen refs : List H256) : seen <+: mergeRef seen refs := by
  induction refs generalizing seen with
  | nil => exact List.prefix_refl seen
  | cons ref refs ih =>
      rw [mergeRef_cons]
      refine List.IsPrefix.trans ?_ (ih _)
      split
      · exact List.prefix_refl seen
      · exact List.prefix_append seen [ref]

theorem referenced_append {first second : List H256} :
    referenced txBlockPool (first ++ second) =
      (referenced txBlockPool first).bind fun txs =>
        (referenced txBlockPool second).map (txs ++ ·) := by
  induction first with
  | nil => simp [referenced]
  | cons ref first ih =>
      rw [List.cons_append, referenced, referenced, ih]
      cases txBlockPool.lookup ref with
      | none => rfl
      | some txBlock =>
          cases referenced txBlockPool first with
          | none => rfl
          | some txs =>
              cases referenced txBlockPool second with
              | none => rfl
              | some rest => simp [List.append_assoc]

/-- The merged list describes the ledger when the list of the parent describes
the ledger of the parent and repeated references are inert. -/
theorem applied_mergeRef {initial ledger after : Ledger} {seen refs : List H256}
    {seenTxs txs : List SignedTransaction}
    (collected : referenced txBlockPool seen = some seenTxs)
    (applied : applyTransactions crypto initial seenTxs = some ledger)
    (inert : RepeatsInert crypto txBlockPool seen ledger refs)
    (references : referenced txBlockPool refs = some txs)
    (extended : applyTransactions crypto ledger txs = some after) :
    ∃ merged, referenced txBlockPool (mergeRef seen refs) = some merged ∧
      applyTransactions crypto initial merged = some after := by
  induction refs generalizing seen seenTxs ledger txs with
  | nil =>
      simp only [referenced, Option.some.injEq] at references
      subst references
      rw [applyTransactions_nil, Option.some.injEq] at extended
      subst extended
      exact ⟨seenTxs, collected, applied⟩
  | cons ref refs ih =>
      obtain ⟨txBlock, rest, found, restCollected, rfl⟩ := referenced_cons.mp references
      rw [applyTransactions_append, Option.bind_eq_some_iff] at extended
      obtain ⟨next, head, tail⟩ := extended
      obtain ⟨repeated, later⟩ := inert txBlock found
      have rest := later next head
      rw [mergeRef_cons]
      split at rest
      · next known =>
          rw [if_pos known]
          have same := applyTransactions_of_inert (repeated known) head
          rw [same] at rest tail
          exact ih collected applied rest restCollected tail
      · next unseen =>
          rw [if_neg unseen]
          have single : referenced txBlockPool [ref] =
              some txBlock.content.transactionContent := by
            simp [referenced, found]
          apply ih _ _ rest restCollected tail
          · exact seenTxs ++ txBlock.content.transactionContent
          · rw [referenced_append, collected, single]
            rfl
          · rw [applyTransactions_append, applied]
            exact head

/-! ## Harmless repetitions -/

/-- A transaction that is among the ones listed, the newest first, has no effect when
it comes again: its last input does not remain, and where another input does, so does
the output for it.  The outputs tell the transactions apart. -/
structure SignedTransaction.Harmless (crypto : Crypto) (tx : SignedTransaction)
    (initial : Ledger) (listed : List SignedTransaction) : Prop where
  lastInput : ∀ key ∈ tx.transaction.lastInput, ¬ Remains crypto initial listed key
  outputs : ∀ i < tx.transaction.inputPrevious.length, ∀ key ∈ tx.transaction.lookupKey i,
    Remains crypto initial listed key →
      Remains crypto initial listed (tx.hash crypto, UInt32.ofNat i)
  unoffered : ∀ i < tx.transaction.inputPrevious.length,
    (tx.hash crypto, UInt32.ofNat i) ∉ initial
  alone : ∀ other ∈ listed, other.hash crypto = tx.hash crypto → other = tx
  framed : tx.transaction.inputPrevious.length < 2 ^ 32

instance (tx : SignedTransaction) (initial : Ledger) (listed : List SignedTransaction) :
    Decidable (tx.Harmless crypto initial listed) :=
  decidable_of_iff
    ((∀ key ∈ tx.transaction.lastInput, ¬ Remains crypto initial listed key) ∧
      (∀ i < tx.transaction.inputPrevious.length, ∀ key ∈ tx.transaction.lookupKey i,
        Remains crypto initial listed key →
          Remains crypto initial listed (tx.hash crypto, UInt32.ofNat i)) ∧
      (∀ i < tx.transaction.inputPrevious.length,
        (tx.hash crypto, UInt32.ofNat i) ∉ initial) ∧
      (∀ other ∈ listed, other.hash crypto = tx.hash crypto → other = tx) ∧
      tx.transaction.inputPrevious.length < 2 ^ 32)
    ⟨fun harmless => ⟨harmless.1, harmless.2.1, harmless.2.2.1, harmless.2.2.2.1,
        harmless.2.2.2.2⟩,
      fun harmless => ⟨harmless.lastInput, harmless.outputs, harmless.unoffered,
        harmless.alone, harmless.framed⟩⟩

variable (crypto) in
/-- Going through the references of a block with the list of its parent, every
transaction of a repeated reference is harmless after the transactions of the list so
far, none of which names an output of its own. -/
def RepeatsHarmless (txBlockPool : HashMap H256 TXBlock) (initial : Ledger) :
    List H256 → List H256 → Prop
  | _, [] => True
  | seen, ref :: refs =>
      (ref ∈ seen → ∀ listed ∈ referenced txBlockPool seen,
        (∀ tx ∈ listed, tx.Foreign crypto) ∧
        ∀ txBlock ∈ txBlockPool.lookup ref, ∀ tx ∈ txBlock.content.transactionContent,
          tx.Harmless crypto initial listed.reverse) ∧
      RepeatsHarmless txBlockPool initial (if ref ∈ seen then seen else seen ++ [ref]) refs

instance decidableRepeatsHarmless (txBlockPool : HashMap H256 TXBlock) (initial : Ledger) :
    ∀ seen refs, Decidable (RepeatsHarmless crypto txBlockPool initial seen refs)
  | _, [] => .isTrue trivial
  | seen, ref :: refs =>
      have _ := decidableRepeatsHarmless txBlockPool initial
        (if ref ∈ seen then seen else seen ++ [ref]) refs
      inferInstanceAs (Decidable ((ref ∈ seen → ∀ listed ∈ referenced txBlockPool seen,
          (∀ tx ∈ listed, tx.Foreign crypto) ∧
          ∀ txBlock ∈ txBlockPool.lookup ref, ∀ tx ∈ txBlock.content.transactionContent,
            tx.Harmless crypto initial listed.reverse) ∧
        RepeatsHarmless crypto txBlockPool initial
          (if ref ∈ seen then seen else seen ++ [ref]) refs))

theorem SignedTransaction.Harmless.inert {tx : SignedTransaction} {initial ledger : Ledger}
    {txs : List SignedTransaction} (harmless : tx.Harmless crypto initial txs.reverse)
    (foreign : ∀ other ∈ txs, other.Foreign crypto)
    (applied : applyTransactions crypto initial txs = some ledger) : tx.Inert crypto ledger := by
  have reversed : applyTransactions crypto initial txs.reverse.reverse = some ledger := by
    rw [List.reverse_reverse, applied]
  have remains {key : Outpoint} (member : key ∈ ledger) : Remains crypto initial txs.reverse key :=
    remains_of_mem (fun other inside => foreign other (List.mem_reverse.mp inside)) reversed member
  refine ⟨fun key last member => harmless.lastInput key last (remains member), ?_⟩
  intro i bound key keyed member coin output
  have stays := (harmless.outputs i bound key keyed (remains member)).mem reversed
  obtain ⟨stored, found⟩ := HashMap.lookup_of_mem stays
  rcases origin_of_applied applied found with offered | ⟨other, inside, j, within, named, written⟩
  · exact absurd (Finmap.mem_of_lookup_eq_some offered) (harmless.unoffered i bound)
  · rw [Prod.mk.injEq] at named
    obtain rfl := harmless.alone other (List.mem_reverse.mpr inside) named.1.symm
    have sameIndex : i = j := by
      have counts := congrArg UInt32.toNat named.2
      rwa [UInt32.toNat_ofNat_of_lt' (Nat.lt_trans bound harmless.framed),
        UInt32.toNat_ofNat_of_lt' (Nat.lt_trans within harmless.framed)] at counts
    rw [found, ← written, ← sameIndex, output]

theorem repeatsInert_of_harmless {initial ledger : Ledger} {seen refs : List H256}
    {seenTxs : List SignedTransaction}
    (collected : referenced txBlockPool seen = some seenTxs)
    (applied : applyTransactions crypto initial seenTxs = some ledger)
    (harmless : RepeatsHarmless crypto txBlockPool initial seen refs) :
    RepeatsInert crypto txBlockPool seen ledger refs := by
  induction refs generalizing seen seenTxs ledger with
  | nil => trivial
  | cons ref refs ih =>
      obtain ⟨repeated, rest⟩ := harmless
      intro txBlock found
      have inert : ref ∈ seen → ∀ tx ∈ txBlock.content.transactionContent,
          tx.Inert crypto ledger := by
        intro known tx inside
        obtain ⟨foreign, each⟩ := repeated known seenTxs collected
        exact (each txBlock found tx inside).inert foreign applied
      refine ⟨inert, fun next extended => ?_⟩
      split at rest
      · next known =>
          rw [if_pos known, applyTransactions_of_inert (inert known) extended]
          exact ih collected applied rest
      · next unseen =>
          rw [if_neg unseen]
          have single : referenced txBlockPool [ref] =
              some txBlock.content.transactionContent := by
            simp [referenced, Option.mem_def.mp found]
          have collectedMore : referenced txBlockPool (seen ++ [ref]) =
              some (seenTxs ++ txBlock.content.transactionContent) := by
            rw [referenced_append, collected, single]
            rfl
          refine ih collectedMore ?_ rest
          rw [applyTransactions_append, applied]
          exact extended

theorem repeatsInert_of_nodup {seen refs : List H256} (nodup : refs.Nodup)
    (unseen : ∀ ref ∈ refs, ref ∉ seen) (ledger : Ledger) :
    RepeatsInert crypto txBlockPool seen ledger refs := by
  induction refs generalizing seen ledger with
  | nil => trivial
  | cons ref refs ih =>
      obtain ⟨notAgain, nodupRest⟩ := List.nodup_cons.mp nodup
      have new := unseen ref List.mem_cons_self
      intro txBlock _
      refine ⟨fun known => absurd known new, fun next _ => ?_⟩
      rw [if_neg new]
      apply ih nodupRest
      intro other member
      rw [List.mem_append, List.mem_singleton, not_or]
      exact ⟨unseen other (List.mem_cons_of_mem _ member), fun same => notAgain (same ▸ member)⟩

end Merge

/-! ## Accepted blocks -/

/-- The ledger of a block is what a list of references makes of the initial
ledger, each transaction block applied once and in order. -/
structure Describes (crypto : Crypto) (initialLedger : Ledger) (node : Node) (hash : H256)
    (refs : List H256) (txs : List SignedTransaction) (ledger : Ledger) : Prop where
  txBlockRef : node.txBlockRef.lookup hash = some refs
  nodup : refs.Nodup
  references : referenced node.txBlockPool refs = some txs
  applied : applyTransactions crypto initialLedger txs = some ledger
  globState : node.globState.lookup hash = some ledger

variable (crypto) in
/-- Every block of the tree has the ledger that its reference list describes. -/
def Node.FollowsRefs (initialLedger : Ledger) (node : Node) : Prop :=
  ∀ hash ∈ node.blockchain.blocks, ∃ refs txs ledger,
    Describes crypto initialLedger node hash refs txs ledger

/-- The step applies no block, or one whose repeated references are harmless on top of
the list of its parent. -/
def AppliesHarmless (crypto : Crypto) (initialLedger : Ledger) (state : State)
    (action : Action) : Prop :=
  ∀ block ∈ state.applied crypto action,
    ∀ parentRef ∈ state.node.txBlockRef.lookup block.header.proposerParent,
      RepeatsHarmless crypto state.node.txBlockPool initialLedger parentRef
        block.content.proposerContent

instance (initialLedger : Ledger) (state : State) (action : Action) :
    Decidable (AppliesHarmless crypto initialLedger state action) := by
  unfold AppliesHarmless
  infer_instance

/-- A header that wins the sortition has a hash that no block of the tree, or no
transaction block of the pool, has. -/
structure MinesFresh (crypto : Crypto) (state : State) (action : Action) : Prop where
  proposer : ∀ header ∈ state.proposerHeader crypto action,
    header.hash crypto ∉ state.node.blockchain.blocks
  transactionBlock : ∀ header ∈ state.transactionHeader crypto action,
    header.hash crypto ∉ state.node.txBlockPool

instance (state : State) (action : Action) : Decidable (MinesFresh crypto state action) :=
  decidable_of_iff
    ((∀ header ∈ state.proposerHeader crypto action,
        header.hash crypto ∉ state.node.blockchain.blocks) ∧
      ∀ header ∈ state.transactionHeader crypto action,
        header.hash crypto ∉ state.node.txBlockPool)
    ⟨fun fresh => ⟨fresh.1, fresh.2⟩, fun fresh => ⟨fresh.proposer, fresh.transactionBlock⟩⟩

section Step

variable {initialLedger : Ledger}

theorem Describes.congr {node after : Node} {hash : H256} {refs : List H256}
    {txs : List SignedTransaction} {ledger : Ledger}
    (describes : Describes crypto initialLedger node hash refs txs ledger)
    (sameRef : after.txBlockRef.lookup hash = node.txBlockRef.lookup hash)
    (sameLedger : after.globState.lookup hash = node.globState.lookup hash)
    (samePool : ∀ ref ∈ node.txBlockPool,
      after.txBlockPool.lookup ref = node.txBlockPool.lookup ref) :
    Describes crypto initialLedger after hash refs txs ledger where
  txBlockRef := sameRef.trans describes.txBlockRef
  nodup := describes.nodup
  references := by
    have present := mem_pool_of_referenced describes.references
    rw [referenced_congr fun ref member => samePool ref (present ref member)]
    exact describes.references
  applied := describes.applied
  globState := sameLedger.trans describes.globState

theorem Node.FollowsRefs.congr {node after : Node}
    (follows : node.FollowsRefs crypto initialLedger)
    (sameChain : after.blockchain = node.blockchain)
    (sameRef : ∀ hash ∈ node.blockchain.blocks,
      after.txBlockRef.lookup hash = node.txBlockRef.lookup hash)
    (sameLedger : after.globState = node.globState)
    (samePool : ∀ ref ∈ node.txBlockPool,
      after.txBlockPool.lookup ref = node.txBlockPool.lookup ref) :
    after.FollowsRefs crypto initialLedger := by
  intro hash member
  rw [sameChain] at member
  obtain ⟨refs, txs, ledger, describes⟩ := follows hash member
  exact ⟨refs, txs, ledger,
    describes.congr (sameRef hash member) (by rw [sameLedger]) samePool⟩

/-- An accepted block with inert repetitions gets the ledger that its reference
list describes. -/
theorem Node.FollowsRefs.accepts {node after : Node} {block : ProposerBlock}
    {parentLedger ledger : Ledger} {txs : List SignedTransaction}
    (follows : node.FollowsRefs crypto initialLedger) (formed : node.WellFormed crypto)
    (accepts : Accepts crypto node block parentLedger txs ledger after)
    (inert : ∀ parentRef parentTxs,
      node.txBlockRef.lookup block.header.proposerParent = some parentRef →
      referenced node.txBlockPool parentRef = some parentTxs →
      applyTransactions crypto initialLedger parentTxs = some parentLedger →
      RepeatsInert crypto node.txBlockPool parentRef parentLedger
        block.content.proposerContent) :
    after.FollowsRefs crypto initialLedger := by
  obtain ⟨parentHeight, found, -⟩ := Blockchain.insert_ok accepts.inserted
  have parentKnown : block.header.proposerParent ∈ node.blockchain.blocks :=
    (formed.chain.heights _).mp (Finmap.mem_of_lookup_eq_some found)
  obtain ⟨parentRef, parentRefFound, txBlockRef⟩ := accepts.txBlockRef
  have samePool : ∀ ref ∈ node.txBlockPool,
      after.txBlockPool.lookup ref = node.txBlockPool.lookup ref := by
    rw [accepts.txBlockPool]
    exact fun _ _ => rfl
  intro hash member
  by_cases same : hash = block.hash crypto
  · subst same
    obtain ⟨refs, parentTxs, stored, describes⟩ := follows _ parentKnown
    have sameRefs : refs = parentRef := by
      have found := describes.txBlockRef
      rw [parentRefFound, Option.some.injEq] at found
      exact found.symm
    have sameLedger : stored = parentLedger := by
      have found := describes.globState
      rw [accepts.parentState, Option.some.injEq] at found
      exact found.symm
    subst sameRefs sameLedger
    obtain ⟨merged, collected, applied⟩ := applied_mergeRef describes.references
      describes.applied
      (inert refs parentTxs parentRefFound describes.references describes.applied)
      accepts.references accepts.applied
    refine ⟨mergeRef refs block.content.proposerContent, merged, ledger, ?_⟩
    exact
      { txBlockRef := by rw [txBlockRef, Finmap.lookup_insert]
        nodup := mergeRef_nodup describes.nodup
        references := by rw [accepts.txBlockPool, collected]
        applied := applied
        globState := by rw [accepts.globState, Finmap.lookup_insert] }
  · rw [accepts.blocks, Finmap.mem_insert] at member
    obtain ⟨refs, otherTxs, stored, describes⟩ := follows hash (member.resolve_left same)
    refine ⟨refs, otherTxs, stored, describes.congr ?_ (accepts.globState_of_ne same) samePool⟩
    rw [txBlockRef, Finmap.lookup_insert_of_ne _ same]

theorem Failure.node_eq {node : Node} {task : Task} {panicked : Panicked}
    (failure : Failure crypto node task panicked) (formed : node.WellFormed crypto)
    (published : node.Published) (sound : SoundPools crypto node)
    (grounded : task.Grounded crypto node) : panicked.node = node := by
  cases failure with
  | transaction _ _ _ _ | signature _ _ _ _ _ => rfl
  | apply _ each _ checks signed failed =>
      obtain ⟨txs, collected, -⟩ := signedCorrectly_eq_true.mp signed
      have soundTxs : ∀ tx ∈ txs, tx.Sound crypto := by
        intro tx member
        obtain ⟨ref, -, txBlock, found, inside⟩ := (mem_referenced collected).mp member
        exact sound.txBlockPool ref txBlock found tx inside
      obtain ⟨after, applied, -⟩ :=
        accept_isOk formed published (checks.parent_mem grounded) collected soundTxs
      rw [applied] at failed
      cases failed

theorem Node.FollowsRefs.step {before after : State} {action : Action}
    (follows : before.node.FollowsRefs crypto initialLedger) (formed : before.WellFormed crypto)
    (published : before.node.Published) (sound : SoundPools crypto before.node)
    (fresh : MinesFresh crypto before action)
    (harmless : AppliesHarmless crypto initialLedger before action)
    (stepped : before.stepAfterIco crypto action = some after) :
    after.node.FollowsRefs crypto initialLedger := by
  obtain ⟨original, notIco⟩ := step_of_stepAfterIco stepped
  cases poolCases_of_step formed original with
  | kept same txBlockRef =>
      refine follows.congr same.blockchain ?_ same.globState ?_
      · rw [txBlockRef]
        exact fun _ _ => rfl
      · rw [same.txBlockPool]
        exact fun _ _ => rfl
  | panicked same cause =>
      refine follows.congr same.blockchain (fun hash member => ?_) same.globState ?_
      · rcases cause with ⟨task, rest, panic, next, failure⟩ | ⟨header, newRef, mined, written⟩
        · have grounded : task.Grounded crypto before.node := formed.grounded next
          have unchanged : after.node = before.node :=
            failure.node_eq formed.node published sound grounded
          rw [unchanged]
        · rw [written, Finmap.lookup_insert_of_ne]
          rintro rfl
          exact fresh.proposer header mined member
      · rw [same.txBlockPool]
        exact fun _ _ => rfl
  | offered _ _ offer _ =>
      rcases offer with ico | noLedger
      · exact absurd ico notIco
      · have genesis := (published _ formed.node.chain.genesis).1
        rw [noLedger] at genesis
        exact absurd genesis Finmap.notMem_empty
  | admitted _ _ _ _ _ _ node =>
      rw [node]
      exact follows.congr rfl (fun _ _ => rfl) rfl fun _ _ => rfl
  | generated draws _ node =>
      rcases generated_of_round draws with unchanged | ⟨ledger, -, generated⟩
      · rw [node, unchanged]
        exact follows
      · rw [node, generated.onlyPool]
        exact follows.congr rfl (fun _ _ => rfl) rfl fun _ _ => rfl
  | packed block source node =>
      have unknown : block.hash crypto ∉ before.node.txBlockPool := by
        rcases source with ⟨_, _, _, unknown⟩ | ⟨mined, _⟩
        · exact unknown
        · exact fresh.transactionBlock block.header mined
      rw [node]
      refine follows.congr rfl (fun _ _ => rfl) rfl fun ref member => ?_
      rw [Finmap.lookup_insert_of_ne]
      rintro rfl
      exact unknown member
  | copied block ledger mines accepts _ =>
      refine follows.accepts formed.node accepts fun parentRef _ found _ _ => ?_
      exact repeatsInert_of_nodup mines.nodup
        (mines.unpointed parentRef (mines.parent ▸ found)) _
  | accepted block parentLedger txs ledger source accepts _ =>
      refine follows.accepts formed.node accepts fun parentRef parentTxs found collected ran => ?_
      rcases source with applied | mines
      · exact repeatsInert_of_harmless collected ran (harmless block applied parentRef found)
      · exact repeatsInert_of_nodup mines.nodup
          (mines.unpointed parentRef (mines.parent ▸ found)) _

end Step

theorem AfterIco.followsRefs {initialLedger : Ledger} {state : State}
    (afterIco : AfterIco crypto initialLedger state) :
    state.node.FollowsRefs crypto initialLedger := by
  intro hash member
  have onlyGenesis : hash = genesisHash crypto := by
    simpa [afterIco.chain, Blockchain.new, Finmap.notMem_empty] using member
  subst onlyGenesis
  exact ⟨[], [], initialLedger, afterIco.txBlockRef, List.nodup_nil, rfl, rfl, afterIco.globState⟩

variable (crypto) in
/-- The offering has been made and both pools hold only sound transactions. -/
def OfferedSound (initialLedger : Ledger) (state : State) : Prop :=
  AfterIco crypto initialLedger state ∧ SoundPools crypto state.node

/-- With sound transactions every ledger of the tree is what its reference list
says, as long as the references that are repeated are harmless. -/
theorem follows_of_appliesHarmless
    (correct : ∀ key message,
      crypto.ed25519Verify (crypto.publicKey key) message (crypto.ed25519Sign key message) = true)
    {initialLedger : Ledger}
    (run : Run (State.stepAfterIco crypto) (OfferedSound crypto initialLedger))
    (sound : run.Meets (TakesSound crypto)) (fresh : run.Meets (MinesFresh crypto))
    (harmless : run.Meets (AppliesHarmless crypto initialLedger)) :
    ∀ index ≤ run.length, ∀ hash ∈ (run.states index).node.blockchain.blocks,
      ∃ refs txs ledger,
        Describes crypto initialLedger (run.states index).node hash refs txs ledger := by
  have meets : run.Meets fun state action => TakesSound crypto state action ∧
      MinesFresh crypto state action ∧ AppliesHarmless crypto initialLedger state action :=
    fun index bound => ⟨sound index bound, fresh index bound, harmless index bound⟩
  have invariant := run.invariant_of_meets meets
    (fun state => (state.WellFormed crypto ∧ state.node.Published) ∧
      SoundPools crypto state.node ∧ state.node.FollowsRefs crypto initialLedger)
    (fun _ ⟨afterIco, soundPools⟩ =>
      ⟨⟨afterIco.wellFormed, afterIco.published⟩, soundPools, afterIco.followsRefs⟩)
    (fun _ _ _ ⟨⟨formed, published⟩, soundPools, follows⟩ ⟨takes, fresh, harmless⟩ stepped =>
      have original := (step_of_stepAfterIco stepped).1
      ⟨⟨(formed.step original).1, published.mono (formed.publishes original)⟩,
        soundPools.step correct formed takes original,
        follows.step formed published soundPools fresh harmless stepped⟩)
  exact fun index bound => (invariant index bound).2.2

theorem offeredSound_sample :
    OfferedSound Crypto.sample (icoState [.sample]) State.sample := by
  refine ⟨afterIco_sample, ?_, ?_⟩
  · intro hash tx found
    change (∅ : HashMap H256 SignedTransaction).lookup hash = some tx at found
    simp at found
  · intro hash txBlock found
    change (∅ : HashMap H256 TXBlock).lookup hash = some txBlock at found
    simp at found

/-- A proposer block that refers to one transaction block twice. -/
def twiceProposal : ProposerBlock :=
  ⟨Header.sample 2 (genesisHash Crypto.sample), ⟨[sampleHash 0x2001, sampleHash 0x2001]⟩⟩

/-- A transaction of the sample key with some inputs and one output for each. -/
def spend (inputs : List Outpoint) : SignedTransaction :=
  let transaction : Transaction :=
    { inputPrevious := inputs.map Prod.fst
      inputIndex := inputs.map Prod.snd
      outputValue := inputs.map fun _ => 5
      outputAddress := inputs.map fun _ => .sample }
  ⟨transaction, ⟨sign Crypto.sample transaction .sample, Crypto.sample.publicKey .sample⟩⟩

/-- A peer sends a transaction, another one that spends its first output, and a block
that refers to the first, the second and the first again. -/
def repeatingActions (first : SignedTransaction) : List Action :=
  let header := fun nonce => Header.sample nonce (genesisHash Crypto.sample)
  let second := spend [(first.hash Crypto.sample, 0)]
  let refs := [sampleHash 0x2001, sampleHash 0x2002, sampleHash 0x2001]
  [.receive (.transactionBlocks [⟨header 0x2001, ⟨[first]⟩⟩, ⟨header 0x2002, ⟨[second]⟩⟩]),
    .work, .work, .receive (.proposerBlocks [⟨header 2, ⟨refs⟩⟩]), .work]

def repeatingRun :
    Run (State.stepAfterIco Crypto.sample) (OfferedSound Crypto.sample (icoState [.sample])) :=
  Run.ofActions State.sample offeredSound_sample (repeatingActions (spend [(H256.zero, 0)]))
    (by decide +kernel)

theorem follows_repeatingRun :
    ∃ refs txs ledger, Describes Crypto.sample (icoState [.sample]) (repeatingRun.states 5).node
      (sampleHash 2) refs txs ledger := by
  have correct : ∀ key message, Crypto.sample.ed25519Verify (Crypto.sample.publicKey key) message
      (Crypto.sample.ed25519Sign key message) = true := by
    simp [Crypto.sample]
  have sound : repeatingRun.Meets (TakesSound Crypto.sample) := by
    change ∀ index < 5, _
    decide +kernel
  have fresh : repeatingRun.Meets (MinesFresh Crypto.sample) := by
    change ∀ index < 5, _
    decide +kernel
  have harmless : repeatingRun.Meets (AppliesHarmless Crypto.sample (icoState [.sample])) := by
    change ∀ index < 5, _
    decide +kernel
  exact follows_of_appliesHarmless correct repeatingRun sound fresh harmless 5 (by decide)
    (sampleHash 2) (by decide +kernel)

/-- The last outpoint that it spends does not exist, so that the first coin stays. -/
def openSpend : SignedTransaction :=
  spend [(H256.zero, 0), (H256.zero, 7)]

def revivingRun :
    Run (State.stepAfterIco Crypto.sample) (OfferedSound Crypto.sample (icoState [.sample])) :=
  Run.ofActions State.sample offeredSound_sample (repeatingActions openSpend) (by decide +kernel)

/-- The repeated transaction block brings a spent coin back: the reference list
of the accepted block names it once, and describes a ledger without the coin. -/
theorem revived_revivingRun :
    revivingRun.Meets (TakesSound Crypto.sample) ∧
      revivingRun.Meets (MinesFresh Crypto.sample) ∧
      sampleHash 2 ∈ (revivingRun.states 5).node.blockchain.blocks ∧
      ¬ ∃ refs txs ledger, Describes Crypto.sample (icoState [.sample])
        (revivingRun.states 5).node (sampleHash 2) refs txs ledger := by
  refine ⟨?_, ?_, by decide +kernel, ?_⟩
  · change ∀ index < 5, _
    decide +kernel
  · change ∀ index < 5, _
    decide +kernel
  · rintro ⟨refs, txs, ledger, describes⟩
    have differs : (do
        let refs ← (revivingRun.states 5).node.txBlockRef.lookup (sampleHash 2)
        let txs ← referenced (revivingRun.states 5).node.txBlockPool refs
        applyTransactions Crypto.sample (icoState [.sample]) txs) ≠
          (revivingRun.states 5).node.globState.lookup (sampleHash 2) := by
      decide +kernel
    apply differs
    rw [describes.txBlockRef, describes.globState]
    simp only [Option.bind_eq_bind, Option.bind_some, describes.references, describes.applied]

end SimplifiedPrism
