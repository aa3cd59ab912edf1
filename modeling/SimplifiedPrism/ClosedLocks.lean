import SimplifiedPrism.Poisoning

/-!
# What a poisoned lock closes

With one of the pools closed a thread can only finish the block that it has in hand,
unless the block has no references; with the ledgers closed before the offering it
cannot even do that, and the tree stays as it was at the start.
-/

namespace SimplifiedPrism

/-! ## Blocks in hand -/

/-- The attacker has no references to publish, and no miner has any before it selects
them. -/
def Section.Unreferenced : Section → Prop
  | .selectTransactions draft | .minerRef draft => draft.propsBlockContent = []
  | .selectRefs draft => draft.author ≠ .attacker
  | .transactionDifficulty draft | .proposerDifficulty draft _ =>
      draft.author = .attacker → draft.propsBlockContent = []
  | .publishRef author newBlock _ _ =>
      author = .attacker → newBlock.content.proposerContent = []
  | _ => True

/-- The section of a block that is past the checks and the ledger. -/
def Section.Late : Section → Prop
  | .prunePool _ _ _ | .insertState _ _ _ | .insertBlock _ _ => True
  | _ => False

/-- The thread has a block in hand and does not need the lock for it any more. -/
def Section.Past (lock : Lock) (each : ProposerBlock) : Section → Prop
  | .prunePool _ block _ => block = each ∧ lock ≠ .txPool
  | .insertState _ block _ | .insertBlock _ block => block = each
  | _ => False

section Hand

variable {crypto : Crypto} {node : Node} {current next : Section} {todo : List Section}

theorem Section.Beside.not_late (beside : current.Beside) : ¬ current.Late := by
  cases current with
  | prunePool _ _ _ | insertState _ _ _ | insertBlock _ _ => cases beside
  | _ => exact id

theorem Section.Beside.unreferenced (beside : current.Beside) : current.Unreferenced := by
  cases current with
  | selectTransactions _ | minerRef _ | selectRefs _ | transactionDifficulty _
  | proposerDifficulty _ _ | publishRef _ _ _ _ => cases beside
  | _ => trivial

theorem not_late_verify (each : ProposerBlock) (refs : List H256) :
    ¬ (Section.verify each refs).Late := by
  cases refs <;> exact id

theorem not_late_ofTip {tip : H256} {use : TipUse} (member : next ∈ Section.ofTip tip use) :
    ¬ next.Late := by
  cases use with
  | transactions transactionVec =>
      obtain ⟨each, -, rfl⟩ := List.mem_map.mp member
      exact id
  | startMiner | mine _ | mineAttacker _ | ico | generate _ | inspect =>
      rw [List.mem_singleton.mp member]
      exact id

/-- The sections that can lead past the ledger. -/
def Section.Hands : Section → Prop
  | .readState _ | .applyRef _ _ _ _ _ | .prunePool _ _ _ | .insertState _ _ _
  | .publishRef _ _ _ _ => True
  | _ => False

theorem Leads.hands {after : Node} (leads : Leads crypto node current after next)
    (late : next.Late) : current.Hands := by
  cases leads with
  | base _ _ _ | apply _ _ _ _ _ _ _ _ _ | prune _ _ _ _ | state _ _ _ | copy _ _ _ _ _
  | own _ _ _ _ => trivial
  | beside _ _ _ enters => exact absurd late enters.beside.not_late
  | tip use _ member => exact absurd late (not_late_ofTip member)
  | rooted _ _ | signed _ _ _ | release _ _ _ _ => exact absurd late (not_late_verify _ _)
  | _ => exact late.elim

theorem Section.Hands.single (hands : current.Hands)
    (goesOn : (current.run crypto node).next = .ok todo) (member : next ∈ todo) :
    todo = [next] := by
  cases current with
  | readState _ =>
      obtain ⟨_, -, rfl⟩ := read_eq_ok goesOn
      rw [List.mem_singleton.mp member]
  | applyRef _ _ _ _ _ =>
      rw [Section.run] at goesOn
      split at goesOn
      · cases goesOn
      · obtain ⟨_, -, rfl⟩ := read_eq_ok goesOn
        rw [List.mem_singleton.mp member]
  | prunePool _ _ _ =>
      rw [Section.run] at goesOn
      split at goesOn
      · cases goesOn
      · obtain rfl := Except.ok.inj goesOn
        rw [List.mem_singleton.mp member]
  | insertState _ _ _ | publishRef _ _ _ _ =>
      obtain rfl := Except.ok.inj goesOn
      rw [List.mem_singleton.mp member]
  | _ => cases hands

theorem Section.Past.late {lock : Lock} {each : ProposerBlock} (past : current.Past lock each) :
    current.Late := by
  cases current with
  | prunePool _ _ _ | insertState _ _ _ | insertBlock _ _ => trivial
  | _ => cases past

theorem past_apply {lock : Lock} {author : Author} {block each : ProposerBlock}
    {currState : Ledger} {refs : List H256}
    (past : (Section.apply author block currState refs).Past lock each) :
    refs = [] ∧ block = each ∧ lock ≠ .txPool := by
  cases refs with
  | nil => exact ⟨rfl, past⟩
  | cons _ _ => cases past

/-- With a pool closed no further block with references gets past it. -/
theorem past_of_run {lock : Lock} {each : ProposerBlock}
    (pool : lock = .txPool ∨ lock = .txBlockPool) (unreferenced : current.Unreferenced)
    (sound : current.lock ≠ lock) (references : each.content.proposerContent ≠ [])
    (goesOn : (current.run crypto node).next = .ok todo) (member : next ∈ todo)
    (past : next.Past lock each) : current.Past lock each := by
  have hands := (leads_of_run goesOn member).hands past.late
  cases current with
  | readState block =>
      obtain ⟨_, -, rfl⟩ := read_eq_ok goesOn
      rw [List.mem_singleton.mp member] at past
      obtain ⟨none, rfl, -⟩ := past_apply past
      exact absurd none references
  | applyRef author block currState ref refs =>
      rw [Section.run] at goesOn
      split at goesOn
      · cases goesOn
      · obtain ⟨_, -, rfl⟩ := read_eq_ok goesOn
        rw [List.mem_singleton.mp member] at past
        obtain ⟨-, -, notPool⟩ := past_apply past
        exact absurd (pool.resolve_left notPool).symm sound
  | prunePool author block currState =>
      rw [Section.run] at goesOn
      split at goesOn
      · cases goesOn
      · obtain rfl := Except.ok.inj goesOn
        rw [List.mem_singleton.mp member] at past
        exact ⟨past, sound.symm⟩
  | insertState author block currState =>
      obtain rfl := Except.ok.inj goesOn
      rw [List.mem_singleton.mp member] at past
      exact past
  | publishRef author block concatenated currState =>
      obtain rfl := Except.ok.inj goesOn
      rw [List.mem_singleton.mp member] at past
      split at past
      · next attacker =>
          obtain rfl : block = each := past
          exact absurd (unreferenced attacker) references
      · obtain ⟨none, rfl, -⟩ := past_apply past
        exact absurd none references
  | _ => cases hands

theorem unreferenced_verify (each : ProposerBlock) (refs : List H256) :
    (Section.verify each refs).Unreferenced := by
  cases refs <;> trivial

theorem unreferenced_apply (author : Author) (each : ProposerBlock) (currState : Ledger)
    (refs : List H256) : (Section.apply author each currState refs).Unreferenced := by
  cases refs <;> trivial

theorem unreferenced_ofTip {tip : H256} {use : TipUse} (member : next ∈ Section.ofTip tip use) :
    next.Unreferenced := by
  cases use with
  | transactions transactionVec =>
      obtain ⟨each, -, rfl⟩ := List.mem_map.mp member
      trivial
  | startMiner | mine _ | mineAttacker _ | ico | generate _ | inspect =>
      rw [List.mem_singleton.mp member]
      trivial

theorem Leads.unreferenced {after : Node} (leads : Leads crypto node current after next)
    (unreferenced : current.Unreferenced) : next.Unreferenced := by
  cases leads with
  | beside _ _ _ enters => exact enters.beside.unreferenced
  | tip use _ member => exact unreferenced_ofTip member
  | rooted _ _ | signed _ _ _ | release _ _ _ _ => exact unreferenced_verify _ _
  | base _ _ _ | apply _ _ _ _ _ _ _ _ _ | own _ _ _ _ => exact unreferenced_apply _ _ _ _
  | attack _ _ _ _ _ | draft _ _ _ _ _ => exact rfl
  | transactions _ _ | threshold _ _ | mined _ _ _ _ => exact unreferenced
  | pointed _ _ honest _ => exact honest
  | unselected _ _ _ _ => exact fun _ => unreferenced
  | refs _ => exact fun attacker => absurd attacker unreferenced
  | _ => trivial

theorem stable_unreferenced :
    Stable crypto (fun _ => True) fun _ current => current.Unreferenced where
  begins := by
    intro node current begins
    cases current with
    | selectTransactions _ | minerRef _ | selectRefs _ | transactionDifficulty _
    | proposerDifficulty _ _ | publishRef _ _ _ _ => cases begins
    | _ => trivial
  maps := fun _ _ _ _ => trivial
  leads := fun _ _ _ _ unreferenced goesOn _ member =>
    (leads_of_run goesOn member).unreferenced unreferenced
  mono := fun _ _ _ _ _ unreferenced => unreferenced

end Hand

namespace Locks

variable {Thread : Type*} [DecidableEq Thread] {crypto : Crypto}

/-- Only the next section of a thread is past the ledger. -/
def Single (threads : Threads Thread) : Prop :=
  ∀ thread todo, threads.status thread = .running todo → ∀ current ∈ todo.tail, ¬ current.Late

theorem Single.step {threads after : Threads Thread} {event : Threads.Event Thread}
    (single : Single threads) (stepped : threads.step crypto event = some after) :
    Single after := by
  intro other todo status current member late
  rcases Threads.step_cases stepped with ⟨thread, handler, -, -, -, statuses⟩ |
    ⟨thread, section', rest, -, running, node, statuses⟩
  · rw [statuses, Function.update_apply] at status
    split at status
    · cases status
      have begins := starts_of_handler (List.mem_of_mem_tail member)
      cases current with
      | prunePool _ _ _ | insertState _ _ _ | insertBlock _ _ => cases begins
      | _ => cases late
    · exact single other todo status current member late
  · rw [statuses, Function.update_apply] at status
    split at status
    · unfold Passed.status at status
      split at status
      · next new goesOn =>
          cases status
          have left : ∀ each ∈ rest, ¬ each.Late := single thread _ running
          cases new with
          | nil => exact left current (List.mem_of_mem_tail member) late
          | cons first more =>
              rcases List.mem_append.mp member with isNew | old
              · have inNew : current ∈ first :: more := List.mem_cons_of_mem _ isNew
                have hands := (leads_of_run goesOn inNew).hands late
                cases hands.single goesOn inNew
                cases isNew
              · exact left current old late
      · cases status
    · exact single other todo status current member late

/-- The thread has a section of the block left that is past the lock. -/
def HasPast (locks : Locks Thread) (lock : Lock) (thread : Thread) (each : ProposerBlock) : Prop :=
  ∃ todo, locks.threads.status thread = .running todo ∧ ∃ current ∈ todo, current.Past lock each

/-- The step puts a block into the tree. -/
def Inserts (locks : Locks Thread) (event : Threads.Event Thread) (thread : Thread)
    (each : ProposerBlock) : Prop :=
  event = .run thread ∧ .blockchain ∉ locks.poisoned ∧ ∃ author rest,
    locks.threads.status thread = .running (.insertBlock author each :: rest)

/-- Without a pool, a thread has no block with references past it that it did not have. -/
theorem StepCases.hasPast {before after : Locks Thread} {event : Threads.Event Thread}
    {lock : Lock} {thread : Thread} {each : ProposerBlock}
    (cases : StepCases crypto before event after)
    (keeping : before.threads.Keeping (fun _ => True) fun _ current => current.Unreferenced)
    (pool : lock = .txPool ∨ lock = .txBlockPool) (poisoned : lock ∈ before.poisoned)
    (references : each.content.proposerContent ≠ []) (hasPast : after.HasPast lock thread each) :
    before.HasPast lock thread each := by
  obtain ⟨todo, status, current, member, past⟩ := hasPast
  cases cases with
  | failed _ _ _ _ _ _ => exact ⟨todo, status, current, member, past⟩
  | turned other handler threads _ moved =>
      rcases Threads.step_cases moved with ⟨_, _, ⟨⟩, -, -, statuses⟩ | ⟨_, _, _, ⟨⟩, _⟩
      simp only [statuses, Function.update_apply] at status
      split at status
      · cases status
        have begins := starts_of_handler member
        have late := past.late
        cases current with
        | prunePool _ _ _ | insertState _ _ _ | insertBlock _ _ => cases begins
        | _ => cases late
      · exact ⟨todo, status, current, member, past⟩
  | ran other own rest threads _ running sound moved =>
      rcases Threads.step_cases moved with ⟨_, _, ⟨⟩, _⟩ | ⟨_, _, _, ⟨⟩, same, node, statuses⟩
      cases running.symm.trans same
      simp only [statuses, Function.update_apply] at status
      split at status
      · next isOther =>
          subst isOther
          unfold Passed.status at status
          split at status
          · next new goesOn =>
              cases status
              refine ⟨_, running, ?_⟩
              rcases List.mem_append.mp member with isNew | left
              · have unreferenced := keeping.left thread _ running own List.mem_cons_self
                have apart : own.lock ≠ lock := fun equal => sound (equal ▸ poisoned)
                exact ⟨own, List.mem_cons_self,
                  past_of_run pool unreferenced apart references goesOn isNew past⟩
              · exact ⟨current, List.mem_cons_of_mem _ left, past⟩
          · cases status
      · exact ⟨todo, status, current, member, past⟩

/-- A thread that has put a block into the tree has no further one past the lock. -/
theorem StepCases.not_hasPast {before after : Locks Thread} {event : Threads.Event Thread}
    {lock : Lock} {thread : Thread} {each other : ProposerBlock}
    (cases : StepCases crypto before event after) (single : Single before.threads)
    (inserts : before.Inserts event thread each) : ¬ after.HasPast lock thread other := by
  rintro ⟨todo, status, current, member, past⟩
  obtain ⟨rfl, open', author, rest, inserting⟩ := inserts
  cases cases with
  | failed _ _ _ _ running poisoned =>
      cases inserting.symm.trans running
      exact open' poisoned
  | ran _ _ _ threads _ running sound moved =>
      rcases Threads.step_cases moved with ⟨_, _, ⟨⟩, _⟩ | ⟨_, _, _, ⟨⟩, same, -, statuses⟩
      cases inserting.symm.trans same
      simp only [statuses, Function.update_self] at status
      unfold Passed.status at status
      split at status
      · next new goesOn =>
          cases status
          rcases List.mem_append.mp member with isNew | left
          · exact (leads_of_run goesOn isNew).hands past.late
          · exact single thread _ inserting current left past.late
      · cases status

theorem hasPast_of_run [Inhabited Thread]
    (run : Run (@step Thread _ crypto) (Unpoisoned Threads.Idle)) {lock : Lock}
    (pool : lock = .txPool ∨ lock = .txBlockPool) {thread : Thread} {each : ProposerBlock}
    (references : each.content.proposerContent ≠ []) {index later : Nat}
    (poisoned : lock ∈ (run.states index).poisoned) (ordered : index ≤ later)
    (bound : later ≤ run.length) (hasPast : (run.states later).HasPast lock thread each) :
    (run.states index).HasPast lock thread each := by
  induction later, ordered using Nat.le_induction with
  | base => exact hasPast
  | succ later ordered ih =>
      have keeping := threads_of_run (Threads.keeping_of_run stable_unreferenced
        fun _ idle => Threads.keeping_of_idle trivial idle) run later (by omega)
      have still := (closed_of_run run ordered (by omega) poisoned).1
      have cases := cases_of_step (run.steps later (by omega))
      exact ih (by omega) (cases.hasPast keeping pool still references hasPast)

/-- From any maps: once the lock of one of the pools is poisoned, each thread puts at
most one more block with references into the tree, and one that it had past the checks
already. -/
theorem closing_of_run [Inhabited Thread]
    (run : Run (@step Thread _ crypto) (Unpoisoned Threads.Idle)) {index later : Nat}
    (ordered : index ≤ later) (bound : later < run.length) {lock : Lock}
    (pool : lock = .txPool ∨ lock = .txBlockPool) (poisoned : lock ∈ (run.states index).poisoned)
    {thread : Thread} {each : ProposerBlock} (references : each.content.proposerContent ≠ [])
    (inserts : (run.states later).Inserts (run.actions later) thread each) :
    (run.states index).HasPast lock thread each ∧
      ∀ again, later < again → again < run.length → ∀ other : ProposerBlock,
        other.content.proposerContent ≠ [] →
          ¬ (run.states again).Inserts (run.actions again) thread other := by
  have carried {time : Nat} {block : ProposerBlock}
      (inserts : (run.states time).Inserts (run.actions time) thread block) :
      (run.states time).HasPast lock thread block := by
    obtain ⟨-, -, author, rest, status⟩ := inserts
    exact ⟨_, status, _, List.mem_cons_self, rfl⟩
  refine ⟨hasPast_of_run run pool references poisoned ordered (by omega) (carried inserts), ?_⟩
  intro again after within other referencesToo insertsToo
  have single : Single (run.states later).threads :=
    threads_of_run (fun other => other.invariant Single (fun _ idle thread todo status => by
      cases (idle thread).symm.trans status
      simp) fun _ _ _ single stepped => single.step stepped) run later (by omega)
  have cases := cases_of_step (run.steps later bound)
  have hasPast : (run.states (later + 1)).HasPast lock thread other :=
    hasPast_of_run run pool referencesToo (closed_of_run run (by omega) (by omega) poisoned).1
      after (by omega) (carried insertsToo)
  exact cases.not_hasPast single inserts hasPast

theorem idle_sample (node : Node) : Threads.Idle (⟨node, fun _ => .running []⟩ : Threads Bool) :=
  fun _ => rfl

/-- One worker has a block past the checks when the other panics over a reference. -/
def handRun : Run (@step Bool _ Crypto.sample) (Unpoisoned Threads.Idle) :=
  Run.ofActions (sample State.sample.node) (unpoisoned_sample (idle_sample _))
    ([.handle true (.receive (.transactionBlocks [paymentBlock .sample 1000]))] ++
      List.replicate 3 (.run true) ++
      [.handle true (.receive (.proposerBlocks [paymentProposal]))] ++
      List.replicate 8 (.run true) ++
      [.handle false (.receive (.proposerBlocks
        [⟨Header.sample 3 (genesisHash Crypto.sample), ⟨[H256.zero]⟩⟩]))] ++
      List.replicate 3 (.run false) ++ List.replicate 2 (.run true))
    (by decide +kernel)

theorem closing_handRun :
    (handRun.states 17).HasPast .txBlockPool true paymentProposal ∧
      ∀ again, 18 < again → again < handRun.length → ∀ other : ProposerBlock,
        other.content.proposerContent ≠ [] →
          ¬ (handRun.states again).Inserts (handRun.actions again) true other := by
  have inserts : (handRun.states 18).Inserts (handRun.actions 18) true paymentProposal :=
    ⟨rfl, by decide +kernel, .worker, [], by decide +kernel⟩
  exact closing_of_run handRun (by decide) (by decide) (.inr rfl)
    (by decide +kernel : Lock.txBlockPool ∈ (handRun.states 17).poisoned) (by decide) inserts

end Locks

/-! ## Before the offering -/

/-- Without a ledger the tree holds genesis alone. -/
def Node.Bare (crypto : Crypto) (node : Node) : Prop :=
  (∀ hash, hash ∉ node.globState) → node.blockchain = Blockchain.new crypto

/-- A block goes into the tree after a ledger. -/
def Section.Ledgered (node : Node) : Section → Prop
  | .insertBlock _ _ => ∃ hash, hash ∈ node.globState
  | _ => True

/-- The section looks a ledger up. -/
def Section.Looks : Section → Prop
  | .checkTransaction _ _ | .readState _ | .minerState _ _ _ | .generatorState _ _
  | .inspectState _ => True
  | _ => False

section Bare

variable {crypto : Crypto} {node : Node} {current next : Section}

theorem Section.Ledgered.mono {other : Section} (ledgered : other.Ledgered node) :
    other.Ledgered (current.run crypto node).node := by
  cases other with
  | insertBlock _ _ =>
      have writes : Writes crypto node current (current.run crypto node).node := writes_of_run
      exact ledgered.imp fun hash member => writes.extends.globState hash member
  | _ => trivial

theorem ledgered_apply (author : Author) (each : ProposerBlock) (currState : Ledger)
    (refs : List H256) : (Section.apply author each currState refs).Ledgered node := by
  cases refs <;> trivial

theorem ledgered_of_run {todo : List Section} (goesOn : (current.run crypto node).next = .ok todo)
    (member : next ∈ todo) : next.Ledgered (current.run crypto node).node := by
  by_cases late : next.Late
  · have hands := (leads_of_run goesOn member).hands late
    have only := hands.single goesOn member
    subst only
    cases current with
    | insertState _ each currState =>
        cases goesOn
        exact ⟨each.hash crypto, Finmap.mem_insert.mpr (.inl rfl)⟩
    | readState _ =>
        obtain ⟨_, -, only⟩ := read_eq_ok goesOn
        rw [← List.singleton_inj.mp only]
        exact ledgered_apply _ _ _ _
    | applyRef _ _ _ _ _ =>
        rw [Section.run] at goesOn
        split at goesOn
        · cases goesOn
        · obtain ⟨_, -, only⟩ := read_eq_ok goesOn
          rw [← List.singleton_inj.mp only]
          exact ledgered_apply _ _ _ _
    | prunePool _ _ _ =>
        rw [Section.run] at goesOn
        split at goesOn
        · cases goesOn
        · cases goesOn
          trivial
    | publishRef _ _ _ _ =>
        rw [← List.singleton_inj.mp (Except.ok.inj goesOn)]
        split
        · trivial
        · exact ledgered_apply _ _ _ _
    | _ => cases hands
  · cases next with
    | insertBlock _ _ => exact absurd trivial late
    | _ => trivial

theorem blockchain_of_run (other : ∀ author each, current ≠ .insertBlock author each) :
    (current.run crypto node).node.blockchain = node.blockchain := by
  by_cases own : Lock.blockchain = current.lock
  · cases current with
    | insertBlock author each => exact absurd rfl (other author each)
    | giveProposerBlock _ | proposerDifficulty _ _ =>
        rw [Section.run]
        split
        · rfl
        · simp
    | transactionDifficulty _ => rw [Section.run, Node.read_node]
    | readTip _ | announcedProposerBlock _ | requestedProposerBlock _ | testBlock _
    | testParent _ => rfl
    | _ => cases own
  · exact Section.keeps_of_run own

theorem stable_bare : Stable crypto (Node.Bare crypto) Section.Ledgered where
  begins := by
    intro node current begins
    cases current with
    | insertBlock _ _ => cases begins
    | _ => trivial
  maps := by
    intro node current unoffered ledgered none
    have writes : Writes crypto node current (current.run crypto node).node := writes_of_run
    have before : ∀ hash, hash ∉ node.globState :=
      fun hash member => none hash (writes.extends.globState hash member)
    rw [blockchain_of_run, unoffered before]
    rintro author each rfl
    obtain ⟨hash, member⟩ := ledgered
    exact before hash member
  leads := fun _ _ _ _ _ goesOn _ member => ledgered_of_run goesOn member
  mono := fun _ _ _ _ _ ledgered => ledgered.mono

theorem node_of_looks (looks : current.Looks) : (current.run crypto node).node = node := by
  cases current with
  | checkTransaction _ _ =>
      rw [Section.run]
      split
      · rfl
      · rw [Node.read_node]
  | readState _ | minerState _ _ _ | generatorState _ _ | inspectState _ =>
      rw [Section.run, Node.read_node]
  | _ => cases looks

theorem poisons_of_looks (looks : current.Looks) (bare : ∀ hash, hash ∉ node.globState) :
    .globState ∈ current.poisons crypto node := by
  have missing (hash : H256) : node.globState.lookup hash = none :=
    Finmap.lookup_eq_none.mpr (bare hash)
  cases current with
  | checkTransaction _ _ | readState _ | minerState _ _ _ | generatorState _ _
  | inspectState _ =>
      simp [Section.poisons, Section.run, Node.read, missing, Section.held, Section.lock]
  | _ => cases looks

end Bare

namespace Locks

variable {Thread : Type*} [DecidableEq Thread] {crypto : Crypto}

/-- The maps at the start of the program, and every thread is idle. -/
def Bare (crypto : Crypto) (threads : Threads Thread) : Prop :=
  threads.node.globState = ∅ ∧ threads.node.blockchain = Blockchain.new crypto ∧ threads.Idle

/-- A step that looks a ledger up before the offering leaves the lock poisoned. -/
theorem StepCases.poisoned {before after : Locks Thread} {thread : Thread}
    (cases : StepCases crypto before (.run thread) after) {current : Section} {rest : List Section}
    (running : before.threads.status thread = .running (current :: rest)) (looks : current.Looks)
    (bare : ∀ hash, hash ∉ before.threads.node.globState) :
    .globState ∈ after.poisoned ∧ after.threads.node.globState = before.threads.node.globState := by
  have own : current.lock = .globState := by
    cases current with
    | checkTransaction _ _ | readState _ | minerState _ _ _ | generatorState _ _
    | inspectState _ => rfl
    | _ => cases looks
  cases cases with
  | failed _ _ _ _ same poisoned =>
      cases running.symm.trans same
      exact ⟨Finset.mem_union_left _ (own ▸ poisoned), rfl⟩
  | ran _ _ _ threads _ same _ moved =>
      cases running.symm.trans same
      refine ⟨Finset.mem_union_right _ (poisons_of_looks looks bare), ?_⟩
      rcases Threads.step_cases moved with ⟨_, _, ⟨⟩, _⟩ | ⟨_, _, _, ⟨⟩, again, node, -⟩
      cases running.symm.trans again
      exact congrArg Node.globState (node.trans (node_of_looks looks))

/-- Before the offering, one look for a ledger stops the node for good: whatever the
threads do afterwards, no ledger is ever stored and no block is ever added to genesis. -/
theorem stuck_of_run [Inhabited Thread]
    (run : Run (@step Thread _ crypto) (Unpoisoned (Bare crypto))) {index later : Nat}
    (after : index < later) (bound : later ≤ run.length) {thread : Thread} {current : Section}
    {rest : List Section} (event : run.actions index = .run thread)
    (running : (run.states index).threads.status thread = .running (current :: rest))
    (looks : current.Looks) (bare : (run.states index).threads.node.globState = ∅) :
    (run.states later).threads.node.globState = ∅ ∧
      (run.states later).threads.node.blockchain = Blockchain.new crypto := by
  have none : ∀ hash, hash ∉ (run.states index).threads.node.globState := by
    rw [bare]
    exact fun _ => Finmap.notMem_empty
  have stepped := cases_of_step (run.steps index (by omega))
  rw [event] at stepped
  obtain ⟨poisoned, same⟩ := stepped.poisoned running looks none
  obtain ⟨-, closed⟩ := closed_of_run run after bound poisoned
  have empty : (run.states later).threads.node.globState = ∅ :=
    (Eq.trans closed same).trans bare
  have keeping : (run.states later).threads.Keeping (Node.Bare crypto) Section.Ledgered :=
    threads_of_run (Threads.keeping_of_run stable_bare fun threads start =>
      Threads.keeping_of_idle (fun _ => start.2.1) start.2.2) run later bound
  refine ⟨empty, keeping.node ?_⟩
  rw [empty]
  exact fun _ => Finmap.notMem_empty

theorem bare_sample :
    Bare Crypto.sample (⟨Node.sample, fun _ => .running []⟩ : Threads Bool) :=
  ⟨rfl, rfl, idle_sample _⟩

/-- The balance is asked for before the offering, which then finds the lock poisoned. -/
def earlyRun : Run (@step Bool _ Crypto.sample) (Unpoisoned (Bare Crypto.sample)) :=
  Run.ofActions (sample Node.sample) (unpoisoned_sample bare_sample)
    ([.handle false .inspect, .run false, .run false,
      .handle true (.receive (.ico (genesisHash Crypto.sample) (icoState [.sample]))), .run true])
    (by decide +kernel)

theorem stuck_earlyRun :
    (earlyRun.states 5).failed true = some .globState ∧
      (earlyRun.states 5).threads.node.globState = ∅ ∧
      (earlyRun.states 5).threads.node.blockchain = Blockchain.new Crypto.sample := by
  have running : (earlyRun.states 2).threads.status false =
      .running (.inspectState (genesisHash Crypto.sample) :: []) := by
    decide +kernel
  exact ⟨by decide +kernel,
    stuck_of_run earlyRun (by decide) (by decide) rfl running trivial (by decide +kernel)⟩

end Locks

end SimplifiedPrism
