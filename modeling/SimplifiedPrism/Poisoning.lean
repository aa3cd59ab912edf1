import SimplifiedPrism.PublicationOrder
import SimplifiedPrism.Simulation

/-!
# Poisoned locks

A thread that panics while it holds a lock poisons it, and whoever takes the lock
afterwards panics in turn.  So one panic closes a map for all threads and for good.
Every run with poisoned locks is a run without them in which some threads go no
further, hence all that holds whatever the order of the sections holds here as well.
Beyond that, this file says which locks can be poisoned at all.
-/

namespace SimplifiedPrism

/-! ## Locks -/

/-- The locks of a node, one for each map. -/
inductive Lock
  | blockchain
  | orphanHandler
  | txPool
  | globState
  | allAddr
  | myAddrKey
  | txBlockPool
  | txBlockRef
deriving DecidableEq

/-- What lies behind a lock is the same. -/
def Lock.Keeps (before after : Node) : Lock → Prop
  | .blockchain => after.blockchain = before.blockchain
  | .orphanHandler => after.orphanHandler = before.orphanHandler
  | .txPool => after.txPool = before.txPool
  | .globState => after.globState = before.globState
  | .allAddr => after.allAddr = before.allAddr
  | .myAddrKey => after.myAddrKey = before.myAddrKey
  | .txBlockPool => after.txBlockPool = before.txBlockPool
  | .txBlockRef => after.txBlockRef = before.txBlockRef

theorem Lock.Keeps.refl (node : Node) (lock : Lock) : lock.Keeps node node := by
  cases lock <;> rfl

theorem Lock.Keeps.trans {first second third : Node} {lock : Lock}
    (kept : lock.Keeps first second) (later : lock.Keeps second third) :
    lock.Keeps first third := by
  cases lock <;> exact Eq.trans later kept

namespace Section

/-- The lock that a section runs under. -/
def lock : Section → Lock
  | .readTip _ | .announcedProposerBlock _ | .requestedProposerBlock _ | .giveProposerBlock _
  | .testBlock _ | .testParent _ | .insertBlock _ _ | .transactionDifficulty _
  | .proposerDifficulty _ _ => .blockchain
  | .testBucket _ | .pushOrphan _ | .insertOrphan _ | .testWaiting _ | .cloneWaiting _
  | .removeWaiting _ _ => .orphanHandler
  | .announcedTransaction _ | .requestedTransaction _ | .giveTransaction _
  | .testTransaction _ _ | .insertTransaction _ | .testPooled _ | .removePooled _
  | .prunePool _ _ _ | .selectTransactions _ | .insertGenerated _ => .txPool
  | .testState _ _ | .insertIco _ _ | .checkTransaction _ _ | .readState _ | .insertState _ _ _
  | .minerState _ _ _ | .generatorState _ _ | .inspectState _ => .globState
  | .testAddr _ | .pushAddr _ | .relayAddr | .countCoins _ | .readCoin _ _ _ _ | .countAddr _ _
  | .pickAddr _ _ _ => .allAddr
  | .insertKey _ _ | .testOwned _ _ | .readKey _ _ _ => .myAddrKey
  | .announcedTransactionBlock _ | .requestedTransactionBlock _ | .giveTransactionBlock _
  | .testTransactionBlock _ | .insertTransactionBlock _ | .verifyRef _ _ _
  | .applyRef _ _ _ _ _ | .selectRefs _ => .txBlockPool
  | .readRef _ | .insertRef _ _ | .insertGenesisRef _ | .minerRef _
  | .publishRef _ _ _ _ => .txBlockRef

/-- The locks that a thread holds already when it takes that of the section: the
reference to the key keeps its lock until the transaction is in the pool. -/
def holds : Section → Finset Lock
  | .insertGenerated _ => {.myAddrKey}
  | _ => ∅

/-- The locks that are held where a section panics.  The checks of a transaction, its
application to a ledger and the Merkle trees come after the lock has been released. -/
def held (current : Section) : Stop → Finset Lock
  | .panic .vector =>
      match current with
      | .checkTransaction _ _ | .applyRef _ _ _ _ _ => ∅
      | _ => {current.lock}
  | .panic .arithmetic =>
      match current with
      | .proposerDifficulty _ _ => ∅
      | _ => {current.lock}
  | _ => {current.lock}

/-- The locks that running a section poisons. -/
def poisons (crypto : Crypto) (node : Node) (current : Section) : Finset Lock :=
  match (current.run crypto node).next with
  | .ok _ => ∅
  | .error stop => current.held stop

end Section

/-! ## Threads on locks -/

/-- The threads, the locks that are poisoned, and for each thread that has come to one
of these the lock it could not take. -/
structure Locks (Thread : Type*) where
  threads : Threads Thread
  poisoned : Finset Lock
  failed : Thread → Option Lock

namespace Locks

variable {Thread : Type*} [DecidableEq Thread] (crypto : Crypto)

/-- A thread turns to a handler or runs its next section, or finds its lock poisoned. -/
def step (locks : Locks Thread) : Threads.Event Thread → Option (Locks Thread)
  | .handle thread handler =>
      if locks.failed thread = none then
        (locks.threads.step crypto (.handle thread handler)).map fun threads =>
          { locks with threads }
      else
        none
  | .run thread =>
      match locks.failed thread, locks.threads.status thread with
      | none, .running (current :: _) =>
          if current.lock ∈ locks.poisoned then
            some { locks with
              poisoned := locks.poisoned ∪ current.holds
              failed := Function.update locks.failed thread (some current.lock) }
          else
            (locks.threads.step crypto (.run thread)).map fun threads =>
              { locks with
                threads
                poisoned := locks.poisoned ∪ current.poisons crypto locks.threads.node }
      | _, _ => none

/-- No lock has been poisoned yet. -/
structure Unpoisoned (start : Threads Thread → Prop) (locks : Locks Thread) : Prop where
  threads : start locks.threads
  poisoned : locks.poisoned = ∅
  failed : ∀ thread, locks.failed thread = none

/-- Everything a step can do. -/
inductive StepCases (before : Locks Thread) : Threads.Event Thread → Locks Thread → Prop
  | turned (thread : Thread) (handler : Handler) (threads : Threads Thread)
      (alive : before.failed thread = none)
      (stepped : before.threads.step crypto (.handle thread handler) = some threads) :
      StepCases before (.handle thread handler) { before with threads }
  | failed (thread : Thread) (current : Section) (rest : List Section)
      (alive : before.failed thread = none)
      (running : before.threads.status thread = .running (current :: rest))
      (poisoned : current.lock ∈ before.poisoned) :
      StepCases before (.run thread) { before with
        poisoned := before.poisoned ∪ current.holds
        failed := Function.update before.failed thread (some current.lock) }
  | ran (thread : Thread) (current : Section) (rest : List Section) (threads : Threads Thread)
      (alive : before.failed thread = none)
      (running : before.threads.status thread = .running (current :: rest))
      (sound : current.lock ∉ before.poisoned)
      (stepped : before.threads.step crypto (.run thread) = some threads) :
      StepCases before (.run thread) { before with
        threads
        poisoned := before.poisoned ∪ current.poisons crypto before.threads.node }

variable {crypto}

theorem cases_of_step {before after : Locks Thread} {event : Threads.Event Thread}
    (stepped : before.step crypto event = some after) : StepCases crypto before event after := by
  cases event with
  | handle thread handler =>
      simp only [step, Option.ite_none_right_eq_some, Option.map_eq_some_iff] at stepped
      obtain ⟨alive, threads, stepped, rfl⟩ := stepped
      exact .turned thread handler threads alive stepped
  | run thread =>
      simp only [step] at stepped
      split at stepped
      · next current rest alive running =>
          split at stepped
          · next poisoned =>
              cases stepped
              exact .failed thread current rest alive running poisoned
          · next sound =>
              obtain ⟨threads, moved, rfl⟩ := Option.map_eq_some_iff.mp stepped
              exact .ran thread current rest threads alive running sound moved
      · cases stepped

/-- Beside every run goes one of the threads without poisoned locks, with the same maps
and the same sections left. -/
theorem beside_of_run {start : Threads Thread → Prop} [Inhabited Thread]
    (run : Run (@step Thread _ crypto) (Unpoisoned start)) :
    ∃ (other : Run (@Threads.step crypto Thread _) start) (place : Nat → Nat),
      run.Beside other (fun locks threads => locks.threads = threads) place := by
  have simulation : Simulation (@step Thread _ crypto) (Unpoisoned start) (fun _ _ => True)
      (@Threads.step crypto Thread _) start (fun locks threads => locks.threads = threads) := by
    refine ⟨fun locks unpoisoned => ⟨_, unpoisoned.threads, rfl⟩, ?_⟩
    rintro before event after _ rfl - stepped
    cases cases_of_step stepped with
    | turned thread handler threads _ moved =>
        exact ⟨[.handle thread handler], threads, by simp [runActions, moved], rfl⟩
    | failed thread current rest _ _ _ => exact ⟨[], before.threads, rfl, rfl⟩
    | ran thread current rest threads _ _ _ moved =>
        exact ⟨[.run thread], threads, by simp [runActions, moved], rfl⟩
  exact simulation.beside run fun _ _ => trivial

/-- What holds of the threads at every point of every run holds with poisoned locks. -/
theorem threads_of_run {start : Threads Thread → Prop} [Inhabited Thread]
    {holds : Threads Thread → Prop}
    (always : ∀ (run : Run (@Threads.step crypto Thread _) start), ∀ index ≤ run.length,
      holds (run.states index))
    (run : Run (@step Thread _ crypto) (Unpoisoned start)) :
    ∀ index ≤ run.length, holds (run.states index).threads := by
  intro index bound
  obtain ⟨other, place, beside⟩ := beside_of_run run
  rw [beside.related index bound]
  apply always other
  rw [← beside.last]
  exact beside.ordered run.length (le_refl _) index bound

end Locks

/-! ## What a section changes -/

/-- A map is what it was, but for what lies behind a lock. -/
def Lock.Only (before after : Node) : Lock → Prop
  | .blockchain => after = { before with blockchain := after.blockchain }
  | .orphanHandler => after = { before with orphanHandler := after.orphanHandler }
  | .txPool => after = { before with txPool := after.txPool }
  | .globState => after = { before with globState := after.globState }
  | .allAddr => after = { before with allAddr := after.allAddr }
  | .myAddrKey => after = { before with myAddrKey := after.myAddrKey }
  | .txBlockPool => after = { before with txBlockPool := after.txBlockPool }
  | .txBlockRef => after = { before with txBlockRef := after.txBlockRef }

theorem Lock.Only.refl (node : Node) (lock : Lock) : lock.Only node node := by
  cases lock <;> rfl

theorem Lock.Only.keeps {before after : Node} {lock other : Lock} (only : lock.Only before after)
    (apart : other ≠ lock) : other.Keeps before after := by
  cases lock <;> cases other <;> first | exact absurd rfl apart | exact by rw [only]; rfl

/-- A section changes nothing but what lies behind its lock. -/
theorem Section.only_of_run (crypto : Crypto) (node : Node) (current : Section) :
    current.lock.Only node (current.run crypto node).node := by
  cases current with
  | giveTransaction _ | checkTransaction _ _ | giveTransactionBlock _ | giveProposerBlock _
  | applyRef _ _ _ _ _ | prunePool _ _ _ | insertBlock _ _ | proposerDifficulty _ _
  | countAddr _ _ =>
      rw [Section.run]
      split
      all_goals simp [Section.lock, Lock.Only]
  | verifyRef _ _ _ | readRef _ | readState _ | cloneWaiting _ | minerState _ _ _
  | selectTransactions _ | minerRef _ | transactionDifficulty _ | readCoin _ _ _ _
  | generatorState _ _ | pickAddr _ _ _ | readKey _ _ _ | inspectState _ =>
      rw [Section.run, Node.read_node]
      exact .refl _ _
  | _ => rfl

theorem Section.keeps_of_run {crypto : Crypto} {node : Node} {current : Section} {lock : Lock}
    (other : lock ≠ current.lock) : lock.Keeps node (current.run crypto node).node :=
  (current.only_of_run crypto node).keeps other

/-! ## Closed maps -/

namespace Locks

variable {Thread : Type*} [DecidableEq Thread] {crypto : Crypto}

theorem StepCases.kept {before after : Locks Thread} {event : Threads.Event Thread} {lock : Lock}
    (cases : StepCases crypto before event after) (poisoned : lock ∈ before.poisoned) :
    lock ∈ after.poisoned ∧ lock.Keeps before.threads.node after.threads.node := by
  cases cases with
  | turned thread handler threads _ moved =>
      rcases Threads.step_cases moved with ⟨_, _, -, -, sameNode, -⟩ | ⟨_, _, _, ⟨⟩, _⟩
      rw [sameNode]
      exact ⟨poisoned, .refl _ _⟩
  | failed thread current rest _ _ _ => exact ⟨Finset.mem_union_left _ poisoned, .refl _ _⟩
  | ran thread current rest threads _ running sound moved =>
      refine ⟨Finset.mem_union_left _ poisoned, ?_⟩
      rcases Threads.step_cases moved with ⟨_, _, ⟨⟩, _⟩ | ⟨_, _, _, ⟨⟩, same, node, -⟩
      cases running.symm.trans same
      rw [node]
      refine Section.keeps_of_run fun own => sound ?_
      rwa [← own]

/-- A lock that is poisoned stays so, and what lies behind it never changes again. -/
theorem closed_of_run {start : Locks Thread → Prop} (run : Run (@step Thread _ crypto) start)
    {index later : Nat} (ordered : index ≤ later) (bound : later ≤ run.length) {lock : Lock}
    (poisoned : lock ∈ (run.states index).poisoned) :
    lock ∈ (run.states later).poisoned ∧
      lock.Keeps (run.states index).threads.node (run.states later).threads.node := by
  induction later, ordered using Nat.le_induction with
  | base => exact ⟨poisoned, .refl _ _⟩
  | succ later ordered ih =>
      obtain ⟨still, kept⟩ := ih (by omega)
      obtain ⟨next, keptToo⟩ := (cases_of_step (run.steps later (by omega))).kept still
      exact ⟨next, kept.trans keptToo⟩

end Locks

/-! ## What the sections of other threads leave alone -/

/-- The sections that handlers begin with. -/
def Section.Starts : Section → Prop
  | .readTip _ | .testAddr _ | .testState _ _ | .announcedTransaction _
  | .requestedTransaction _ | .announcedTransactionBlock _ | .requestedTransactionBlock _
  | .testTransactionBlock _ | .announcedProposerBlock _ | .requestedProposerBlock _
  | .testBlock _ | .insertKey _ _ => True
  | _ => False

theorem starts_of_handler {crypto : Crypto} {handler : Handler} {current : Section}
    (member : current ∈ handler.sections crypto) : current.Starts := by
  cases handler with
  | receive message =>
      cases message with
      | ico _ _ | transactions _ =>
          rw [List.mem_singleton.mp member]
          trivial
      | newAddr _ | newTransactionHashes _ | getTransactions _ | newTransactionBlockHashes _
      | getTransactionBlocks _ | transactionBlocks _ | newProposerBlockHashes _
      | getProposerBlocks _ | proposerBlocks _ =>
          obtain ⟨each, -, rfl⟩ := List.mem_map.mp member
          trivial
  | startMiner | mine _ | mineAttacker _ | generateAddress _ | ico | generate _ | inspect =>
      rw [List.mem_singleton.mp member]
      trivial

/-- A condition on the maps and one on the sections a thread has left, which no section
of another thread takes back. -/
structure Stable (crypto : Crypto) (formed : Node → Prop) (holds : Node → Section → Prop) :
    Prop where
  begins : ∀ node (current : Section), current.Starts → holds node current
  maps : ∀ node current, formed node → holds node current →
    formed (current.run crypto node).node
  leads : ∀ node current todo, formed node → holds node current →
    (current.run crypto node).next = .ok todo →
      ∀ next ∈ todo, holds (current.run crypto node).node next
  mono : ∀ node current other, formed node → holds node current → holds node other →
    holds (current.run crypto node).node other

namespace Threads

variable {Thread : Type*} {crypto : Crypto}

/-- The conditions hold of the maps and of every section that is left. -/
structure Keeping (formed : Node → Prop) (holds : Node → Section → Prop)
    (threads : Threads Thread) : Prop where
  node : formed threads.node
  left : ∀ thread todo, threads.status thread = .running todo →
    ∀ current ∈ todo, holds threads.node current

variable {formed : Node → Prop} {holds : Node → Section → Prop} [DecidableEq Thread]

theorem Keeping.step {threads after : Threads Thread} {event : Event Thread}
    (stable : Stable crypto formed holds) (keeping : threads.Keeping formed holds)
    (stepped : threads.step crypto event = some after) : after.Keeping formed holds := by
  rcases step_cases stepped with ⟨thread, handler, -, -, sameNode, statuses⟩ |
    ⟨thread, current, rest, -, running, node, statuses⟩
  · refine ⟨sameNode ▸ keeping.node, fun other todo status => ?_⟩
    rw [sameNode]
    rw [statuses, Function.update_apply] at status
    split at status
    · cases status
      exact fun each member => stable.begins threads.node each (starts_of_handler member)
    · exact keeping.left other todo status
  · have own := keeping.left thread _ running current List.mem_cons_self
    have old : ∀ each, holds threads.node each → holds after.node each := by
      rw [node]
      exact fun each held => stable.mono _ current each keeping.node own held
    refine ⟨node ▸ stable.maps _ _ keeping.node own, fun other todo status => ?_⟩
    rw [statuses, Function.update_apply] at status
    split at status
    · unfold Passed.status at status
      split at status
      · next new goesOn =>
          cases status
          intro next member
          rcases List.mem_append.mp member with isNew | left
          · rw [node]
            exact stable.leads _ current new keeping.node own goesOn next isNew
          · exact old next (keeping.left thread _ running next (List.mem_cons_of_mem _ left))
      · cases status
    · exact fun each member => old each (keeping.left other todo status each member)

theorem keeping_of_run {start : Threads Thread → Prop} (stable : Stable crypto formed holds)
    (starts : ∀ threads, start threads → threads.Keeping formed holds)
    (run : Run (@step crypto Thread _) start) :
    ∀ index ≤ run.length, (run.states index).Keeping formed holds :=
  run.invariant _ starts fun _ _ _ keeping stepped => keeping.step stable stepped

omit [DecidableEq Thread] in
theorem keeping_of_idle {threads : Threads Thread} (node : formed threads.node)
    (idle : threads.Idle) : threads.Keeping formed holds := by
  refine ⟨node, fun thread todo status => ?_⟩
  cases (idle thread).symm.trans status
  simp

end Threads

/-! ## The addresses -/

/-- There is an address. -/
def Node.Addressed (node : Node) : Prop :=
  node.allAddr ≠ []

/-- The addresses that a section is about to read are there, and so is the key. -/
def Section.Reads (node : Node) : Section → Prop
  | .readCoin _ _ i left => i + left < node.allAddr.length
  | .countAddr _ coin | .readKey _ coin _ => coin.2 ∈ node.myAddrKey
  | .pickAddr _ coin destIdx => coin.2 ∈ node.myAddrKey ∧ destIdx < node.allAddr.length
  | _ => True

section Addresses

variable {crypto : Crypto} {node : Node} {current next : Section} {todo : List Section}

theorem prefix_of_run : node.allAddr <+: (current.run crypto node).node.allAddr := by
  by_cases own : Lock.allAddr = current.lock
  · cases current with
    | pushAddr each => exact List.prefix_append _ _
    | testAddr _ | relayAddr | countCoins _ => exact List.prefix_rfl
    | readCoin _ _ _ _ | pickAddr _ _ _ =>
        rw [Section.run, Node.read_node]
    | countAddr _ _ =>
        rw [Section.run]
        split
        all_goals exact List.prefix_rfl
    | _ => cases own
  · rw [show (current.run crypto node).node.allAddr = node.allAddr from Section.keeps_of_run own]

theorem key_of_run {addr : H160} (present : addr ∈ node.myAddrKey) :
    addr ∈ (current.run crypto node).node.myAddrKey := by
  by_cases own : Lock.myAddrKey = current.lock
  · cases current with
    | insertKey _ _ => exact Finmap.mem_insert.mpr (.inr present)
    | testOwned _ _ => exact present
    | readKey _ _ _ =>
        rw [Section.run, Node.read_node]
        exact present
    | _ => cases own
  · rwa [show (current.run crypto node).node.myAddrKey = node.myAddrKey from
      Section.keeps_of_run own]

theorem reads_coins {genesisHash : H256} {icoState : Ledger} {i left : Nat}
    (bound : i + left ≤ node.allAddr.length) :
    (Section.coins genesisHash icoState i left).Reads node := by
  cases left with
  | zero => trivial
  | succ left => exact bound

theorem Section.ReadsNone.reads (readsNone : current.ReadsNone) : current.Reads node := by
  cases current with
  | readCoin _ _ _ _ | countAddr _ _ | pickAddr _ _ _ | readKey _ _ _ => cases readsNone
  | _ => trivial

theorem readsNone_verify (each : ProposerBlock) (refs : List H256) :
    (Section.verify each refs).ReadsNone := by
  cases refs <;> trivial

theorem readsNone_apply (author : Author) (each : ProposerBlock) (currState : Ledger)
    (refs : List H256) : (Section.apply author each currState refs).ReadsNone := by
  cases refs <;> trivial

theorem readsNone_ofTip {tip : H256} {use : TipUse} (member : next ∈ Section.ofTip tip use) :
    next.ReadsNone := by
  cases use with
  | transactions transactionVec =>
      obtain ⟨each, -, rfl⟩ := List.mem_map.mp member
      trivial
  | startMiner | mine _ | mineAttacker _ | ico | generate _ | inspect =>
      rw [List.mem_singleton.mp member]
      trivial

theorem Leads.readsNone {after : Node} (leads : Leads crypto node current after next)
    (silent : current.Silent) : next.ReadsNone := by
  cases leads with
  | beside _ _ _ enters => exact enters.readsNone silent
  | tip _ _ member => exact readsNone_ofTip member
  | rooted _ _ | signed _ _ _ | release _ _ _ _ => exact readsNone_verify _ _
  | base _ _ _ | apply _ _ _ _ _ _ _ _ _ | own _ _ _ _ => exact readsNone_apply _ _ _ _
  | _ => trivial

theorem Section.Reads.leads (reads : current.Reads node) (addressed : node.Addressed)
    (goesOn : (current.run crypto node).next = .ok todo) (member : next ∈ todo) :
    next.Reads (current.run crypto node).node := by
  cases current with
  | countCoins genesisHash =>
      obtain rfl := Except.ok.inj goesOn
      rw [List.mem_singleton.mp member]
      exact reads_coins (by simp [Section.run])
  | readCoin genesisHash icoState i left =>
      obtain ⟨addr, -, rfl⟩ := read_eq_ok goesOn
      rw [List.mem_singleton.mp member, Section.run, Node.read_node]
      exact reads_coins (by rw [Section.Reads] at reads; omega)
  | countAddr draw coin =>
      have positive : node.allAddr.length ≠ 0 := List.length_eq_zero_iff.not.mpr addressed
      rw [Section.run, if_neg positive] at goesOn ⊢
      obtain rfl := Except.ok.inj goesOn
      rw [List.mem_singleton.mp member]
      exact ⟨reads, Nat.mod_lt _ (Nat.pos_of_ne_zero positive)⟩
  | pickAddr draw coin destIdx =>
      rw [Section.run, Node.read_node]
      obtain ⟨dest, -, rfl⟩ := read_eq_ok goesOn
      rw [List.mem_singleton.mp member]
      exact reads.1
  | testOwned draw coin =>
      obtain rfl := Except.ok.inj goesOn
      split at member
      · next owned =>
          rw [List.mem_singleton.mp member]
          exact owned.1
      · cases member
  | _ => exact ((leads_of_run goesOn member).readsNone (by trivial)).reads

theorem Section.Reads.mono {other : Section} (reads : other.Reads node) :
    other.Reads (current.run crypto node).node := by
  have longer : node.allAddr.length ≤ (current.run crypto node).node.allAddr.length :=
    prefix_of_run.length_le
  cases other with
  | readCoin _ _ i left => exact lt_of_lt_of_le reads longer
  | countAddr _ _ | readKey _ _ _ => exact key_of_run reads
  | pickAddr _ _ _ => exact ⟨key_of_run reads.1, lt_of_lt_of_le reads.2 longer⟩
  | _ => trivial

theorem stable_reads : Stable crypto Node.Addressed Section.Reads where
  begins := by
    intro node current begins
    cases current with
    | readCoin _ _ _ _ | countAddr _ _ | pickAddr _ _ _ | readKey _ _ _ => cases begins
    | _ => trivial
  maps := fun node current addressed _ none => addressed (List.prefix_nil.mp (none ▸ prefix_of_run))
  leads := fun _ _ _ addressed reads goesOn _ member => reads.leads addressed goesOn member
  mono := fun _ _ _ _ _ reads => reads.mono

end Addresses

/-! ## Which locks are poisoned -/

section Poisons

variable {crypto : Crypto} {node : Node} {current : Section} {lock : Lock}

theorem mem_poisons (poisons : lock ∈ current.poisons crypto node) :
    ∃ stop, (current.run crypto node).next = .error stop ∧ lock ∈ current.held stop := by
  unfold Section.poisons at poisons
  split at poisons
  · simp at poisons
  · next stop failed => exact ⟨stop, failed, poisons⟩

theorem held_subset (current : Section) (stop : Stop) : current.held stop ⊆ {current.lock} := by
  unfold Section.held
  split
  · split <;> simp
  · split <;> simp
  · simp

/-- The locks that a section can poison although the maps are in order. -/
def Lock.Exposed : Lock → Prop
  | .orphanHandler | .txPool | .txBlockPool => True
  | .blockchain | .globState | .allAddr | .myAddrKey | .txBlockRef => False

theorem exposed_of_poisons (ordered : node.Ordered crypto)
    (accounted : current.Accounted crypto node) (addressed : node.Addressed)
    (reads : current.Reads node) (poisons : lock ∈ current.poisons crypto node) :
    lock.Exposed := by
  obtain ⟨stop, failed, held⟩ := mem_poisons poisons
  have notBlock := not_atBlock_of_run ordered accounted failed
  have own : lock = current.lock := Finset.mem_singleton.mp (held_subset current stop held)
  subst own
  cases current with
  | checkTransaction _ _ =>
      rw [Section.run] at failed
      split at failed
      · cases failed
        exact absurd trivial notBlock
      · obtain ⟨-, rfl⟩ := read_eq_error failed
        simp [Section.held] at held
  | proposerDifficulty _ _ =>
      rw [Section.run] at failed
      split at failed
      · cases failed
        exact absurd trivial notBlock
      · obtain ⟨-, rfl⟩ := read_eq_error failed
        simp [Section.held] at held
  | giveProposerBlock _ | insertBlock _ _ =>
      rw [Section.run] at failed
      split at failed
      · cases failed
        exact absurd trivial notBlock
      · cases failed
  | readRef _ | readState _ | minerState _ _ _ | minerRef _ | transactionDifficulty _
  | generatorState _ _ | inspectState _ =>
      obtain ⟨-, rfl⟩ := read_eq_error failed
      exact absurd trivial notBlock
  | readCoin _ _ i left =>
      obtain ⟨missing, -⟩ := read_eq_error failed
      rw [Section.Reads] at reads
      rw [List.getElem?_eq_none_iff] at missing
      omega
  | countAddr _ _ =>
      rw [Section.run] at failed
      split at failed
      · next empty => exact absurd (List.length_eq_zero_iff.mp empty) addressed
      · cases failed
  | pickAddr _ _ _ =>
      obtain ⟨missing, -⟩ := read_eq_error failed
      rw [List.getElem?_eq_none_iff] at missing
      exact absurd reads.2 (Nat.not_lt.mpr missing)
  | readKey _ _ _ =>
      obtain ⟨missing, -⟩ := read_eq_error failed
      exact absurd reads (Finmap.lookup_eq_none.mp missing)
  | testBucket _ | pushOrphan _ | insertOrphan _ | testWaiting _ | cloneWaiting _
  | removeWaiting _ _ | announcedTransaction _ | requestedTransaction _ | giveTransaction _
  | testTransaction _ _ | insertTransaction _ | testPooled _ | removePooled _ | prunePool _ _ _
  | selectTransactions _ | insertGenerated _ | announcedTransactionBlock _
  | requestedTransactionBlock _ | giveTransactionBlock _ | testTransactionBlock _
  | insertTransactionBlock _ | verifyRef _ _ _ | applyRef _ _ _ _ _ | selectRefs _ => trivial
  | _ => cases failed

theorem holds_cases (held : lock ∈ current.holds) :
    lock = .myAddrKey ∧ current.lock = .txPool := by
  cases current with
  | insertGenerated _ => exact ⟨Finset.mem_singleton.mp held, rfl⟩
  | _ => simp [Section.holds] at held

end Poisons

namespace Locks

variable {Thread : Type*} [DecidableEq Thread] {crypto : Crypto}

/-- The offering has been made to somebody, and every thread is idle. -/
def Begun (crypto : Crypto) (threads : Threads Thread) : Prop :=
  threads.Start crypto ∧ threads.node.Addressed

/-- Only the locks of the orphan buffer and of the two pools are poisoned, and that of
the keys after that of the mempool. -/
def Confined (locks : Locks Thread) : Prop :=
  ∀ lock ∈ locks.poisoned, lock.Exposed ∨ lock = .myAddrKey ∧ .txPool ∈ locks.poisoned

theorem Confined.step {before after : Locks Thread} {event : Threads.Event Thread}
    (confined : before.Confined) (ordered : before.threads.Ordered crypto)
    (keeping : before.threads.Keeping Node.Addressed Section.Reads)
    (cases : StepCases crypto before event after) : after.Confined := by
  have old (more : Finset Lock) : ∀ lock ∈ before.poisoned,
      lock.Exposed ∨ lock = .myAddrKey ∧ .txPool ∈ before.poisoned ∪ more := fun lock poisoned =>
    (confined lock poisoned).imp_right fun both => ⟨both.1, Finset.mem_union_left _ both.2⟩
  cases cases with
  | turned thread handler threads _ _ => exact confined
  | failed thread current rest _ _ poisoned =>
      intro lock member
      rcases Finset.mem_union.mp member with earlier | held
      · exact old _ lock earlier
      · obtain ⟨rfl, pool⟩ := holds_cases held
        exact .inr ⟨rfl, Finset.mem_union_left _ (pool ▸ poisoned)⟩
  | ran thread current rest threads _ running _ _ =>
      intro lock member
      rcases Finset.mem_union.mp member with earlier | poisons
      · exact old _ lock earlier
      · have accounted := ordered.accounted thread _ running current List.mem_cons_self
        have reads := keeping.left thread _ running current List.mem_cons_self
        exact .inl (exposed_of_poisons ordered.node accounted keeping.node reads poisons)

theorem StepCases.failed_mem {before after : Locks Thread} {event : Threads.Event Thread}
    (failed : ∀ thread lock, before.failed thread = some lock → lock ∈ before.poisoned)
    (cases : StepCases crypto before event after) :
    ∀ thread lock, after.failed thread = some lock → lock ∈ after.poisoned := by
  intro thread lock isFailed
  cases cases with
  | turned _ _ _ _ _ => exact failed thread lock isFailed
  | ran _ _ _ _ _ _ _ _ => exact Finset.mem_union_left _ (failed thread lock isFailed)
  | failed other current rest _ _ poisoned =>
      apply Finset.mem_union_left
      simp only [Function.update_apply] at isFailed
      split at isFailed
      · cases isFailed
        exact poisoned
      · exact failed thread lock isFailed

theorem ordered_of_run [Inhabited Thread]
    (run : Run (@step Thread _ crypto) (Unpoisoned (Begun crypto))) :
    ∀ index ≤ run.length, (run.states index).threads.Ordered crypto :=
  threads_of_run (fun other => other.invariant _ (fun _ start => start.1.ordered)
    fun _ _ _ ordered stepped => ordered.step stepped) run

theorem exposed_of_run [Inhabited Thread]
    (run : Run (@step Thread _ crypto) (Unpoisoned (Begun crypto))) :
    ∀ index ≤ run.length, (run.states index).Confined ∧
      ∀ thread lock, (run.states index).failed thread = some lock →
        lock ∈ (run.states index).poisoned := by
  intro index bound
  induction index with
  | zero =>
      have start := run.starts
      refine ⟨?_, fun thread lock failed => ?_⟩
      · rw [Confined, start.poisoned]
        simp
      · rw [start.failed thread] at failed
        cases failed
  | succ index ih =>
      obtain ⟨confined, failed⟩ := ih (by omega)
      have cases := cases_of_step (run.steps index (by omega))
      have ordered := ordered_of_run run index (by omega)
      have keeping : (run.states index).threads.Keeping Node.Addressed Section.Reads :=
        threads_of_run (Threads.keeping_of_run stable_reads fun _ start =>
          Threads.keeping_of_idle start.2 start.1.idle) run index (by omega)
      exact ⟨confined.step ordered keeping cases, cases.failed_mem failed⟩

/-- The sample threads with no lock poisoned. -/
def sample (node : Node) : Locks Bool :=
  ⟨⟨node, fun _ => .running []⟩, ∅, fun _ => none⟩

theorem unpoisoned_sample {start : Threads Bool → Prop} {node : Node}
    (starts : start ⟨node, fun _ => .running []⟩) : (sample node).Unpoisoned start :=
  ⟨starts, rfl, fun _ => rfl⟩

theorem begun_sample :
    Begun Crypto.sample (⟨State.sample.node, fun _ => .running []⟩ : Threads Bool) :=
  ⟨Threads.start_sample, by rw [Node.Addressed]; decide +kernel⟩

/-- A worker panics over a block that refers to an unknown transaction block, and so
does the other when this arrives. -/
def missingRun : Run (@step Bool _ Crypto.sample) (Unpoisoned (Begun Crypto.sample)) :=
  Run.ofActions (sample State.sample.node) (unpoisoned_sample begun_sample)
    ([.handle false (.receive (.proposerBlocks [paymentProposal])), .run false, .run false,
      .run false, .handle true (.receive (.transactionBlocks [paymentBlock .sample 1000])),
      .run true])
    (by decide +kernel)

end Locks

end SimplifiedPrism
