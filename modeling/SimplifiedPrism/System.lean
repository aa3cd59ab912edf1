import SimplifiedPrism.Generator
import SimplifiedPrism.Miner
import SimplifiedPrism.TransitionSystem

/-!
# A node as a transition system

The state of a node consists of the shared maps, the tasks left for the message
being handled, and the tip the generator saw last.  Messages are handled one at
a time; an iteration of the miner or the generator happens between messages.
`StepCases` lists once what a step can do, and the invariants that every
reachable state satisfies are derived from it.
-/

namespace SimplifiedPrism

structure State where
  node : Node
  todo : List Task
  lastState : H256
deriving DecidableEq

/-- A step of a node. -/
inductive Action
  | receive (message : Message)
  | work
  | mine (choice : MinerChoice)
  | mineAttacker (choice : MinerChoice)
  | generate (draws : List Draw)
  | ico
deriving DecidableEq

instance : Inhabited Action :=
  ⟨.work⟩

/-- The draws run through the ledger of the tip in some order. -/
def DrawsPossible (node : Node) (draws : List Draw) : Prop :=
  ∀ ledger ∈ node.globState.lookup node.blockchain.tip,
    HashMap.Enumerates ledger (draws.map Draw.outpoint)

instance (node : Node) (draws : List Draw) : Decidable (DrawsPossible node draws) :=
  inferInstanceAs (Decidable (∀ ledger ∈ node.globState.lookup node.blockchain.tip,
    HashMap.Enumerates ledger (draws.map Draw.outpoint)))

/-- The maps that an iteration of the miner leaves. -/
def minedNode : Except Panicked Progress → Node
  | .ok progress => progress.node
  | .error panicked => panicked.node

variable (crypto : Crypto)

/-- The step function of a node.  A panic drops what was left to do. -/
def State.step (state : State) : Action → Option State
  | .receive message =>
      if state.todo = [] then
        some { state with todo := message.tasks state.node }
      else
        none
  | .work =>
      match state.todo with
      | [] => none
      | task :: rest =>
          match runTask crypto state.node task with
          | .ok progress =>
              some { state with node := progress.node, todo := progress.todo ++ rest }
          | .error panicked => some { state with node := panicked.node, todo := [] }
  | .mine choice =>
      if state.todo = [] ∧ choice.Possible state.node then
        some { state with node := minedNode (minerLoop crypto state.node choice) }
      else
        none
  | .mineAttacker choice =>
      if state.todo = [] then
        some { state with node := minedNode (minerLoopAttacker crypto state.node choice) }
      else
        none
  | .generate draws =>
      if state.todo = [] ∧ DrawsPossible state.node draws then
        if state.lastState = state.node.blockchain.tip then
          some state
        else
          some { state with
            node := (generatorLoop crypto state.node draws).node
            lastState := state.node.blockchain.tip }
      else
        none
  | .ico =>
      if state.todo = [] then
        some { state with node := (handleIcoSignal state.node).node }
      else
        none

/-- The steps after the initial coin offering, which is not made again. -/
def State.stepAfterIco (state : State) : Action → Option State
  | .ico => none
  | action => state.step crypto action

/-- The maps at the start of the program.  The generator has made the addresses
and the miner has given genesis an empty list of references. -/
def Node.initial (allAddr : List H160) (myAddrKey : HashMap H160 KeyPair) : Node where
  blockchain := Blockchain.new crypto
  orphanHandler := ∅
  txPool := ∅
  globState := ∅
  allAddr := allAddr
  myAddrKey := myAddrKey
  txBlockPool := ∅
  txBlockRef := (∅ : HashMap H256 (List H256)).insert (genesisHash crypto) []

/-- The program has started and no message has been handled. -/
def Initial (state : State) : Prop :=
  state.todo = [] ∧ state.lastState = H256.zero ∧
    ∃ allAddr myAddrKey, state.node = Node.initial crypto allAddr myAddrKey

/-- The block that a step subjects to the signature check. -/
def State.checked (state : State) (action : Action) : Option ProposerBlock :=
  match action, state.todo with
  | .work, task :: _ => task.checked crypto state.node
  | _, _ => none

/-- The block that a worker step applies: it is checked, it is signed correctly and
nothing panics. -/
def State.applied (state : State) (action : Action) : Option ProposerBlock :=
  (state.checked crypto action).filter fun block =>
    decide (signedCorrectly crypto state.node.txBlockPool block.content.proposerContent =
      .ok true) && (applyProposerBlock crypto state.node block).isOk

/-- The header that a mining step hashes. -/
def State.minedHeader (state : State) (action : Action) : Option Header :=
  match action with
  | .mine choice => minerHeader crypto state.node choice
  | .mineAttacker choice => minerHeaderAttacker crypto state.node choice
  | _ => none

/-- The header of a mining step, if it wins the sortition for a proposer block. -/
def State.proposerHeader (state : State) (action : Action) : Option Header :=
  (state.minedHeader crypto action).filter fun header =>
    header.hash crypto < header.proposerDifficulty

/-- The header of a mining step, if it wins the sortition for a transaction block. -/
def State.transactionHeader (state : State) (action : Action) : Option Header :=
  (state.minedHeader crypto action).filter fun header =>
    ¬ header.hash crypto < header.proposerDifficulty ∧
      header.hash crypto < header.transactionDifficulty

/-- A worker step accepts a block, directly or out of the orphan buffer. -/
structure WorkerAccepts (crypto : Crypto) (before : State) (action : Action)
    (block : ProposerBlock) (after : State) : Prop where
  checked : block ∈ before.checked crypto action
  signed : signedCorrectly crypto before.node.txBlockPool block.content.proposerContent = .ok true
  applied : applyProposerBlock crypto before.node block = .ok after.node

instance (before : State) (action : Action) (block : ProposerBlock) (after : State) :
    Decidable (WorkerAccepts crypto before action block after) :=
  decidable_of_iff
    (block ∈ before.checked crypto action ∧
      signedCorrectly crypto before.node.txBlockPool block.content.proposerContent = .ok true ∧
      applyProposerBlock crypto before.node block = .ok after.node)
    ⟨fun accepts => ⟨accepts.1, accepts.2.1, accepts.2.2⟩,
      fun accepts => ⟨accepts.checked, accepts.signed, accepts.applied⟩⟩

/-! ## What a step does -/

/-- Everything a step can do. -/
inductive StepCases (crypto : Crypto) (before : State) : Action → State → Prop
  | receive (message : Message) (idle : before.todo = []) :
      StepCases crypto before (.receive message)
        { before with todo := message.tasks before.node }
  | ran (task : Task) (rest : List Task) (node : Node) (todo : List Task)
      (next : before.todo = task :: rest)
      (effect : Effect crypto before.node task node todo) :
      StepCases crypto before .work { before with node := node, todo := todo ++ rest }
  | panicked (task : Task) (rest : List Task) (panicked : Panicked)
      (next : before.todo = task :: rest)
      (failure : Failure crypto before.node task panicked) :
      StepCases crypto before .work { before with node := panicked.node, todo := [] }
  | mined (action : Action) (node : Node) (idle : before.todo = [])
      (mined : Mined crypto before.node (before.minedHeader crypto action) node) :
      StepCases crypto before action { before with node := node }
  | minerPanicked (action : Action) (node : Node) (idle : before.todo = [])
      (failure : MinerFailure crypto before.node (before.minedHeader crypto action) node) :
      StepCases crypto before action { before with node := node }
  | generated (action : Action) (ledger : Ledger) (node : Node) (lastState : H256)
      (idle : before.todo = [])
      (tipState : before.node.globState.lookup before.node.blockchain.tip = some ledger)
      (generated : Generated crypto before.node ledger node) :
      StepCases crypto before action { before with node := node, lastState := lastState }
  | looked (action : Action) (lastState : H256) :
      StepCases crypto before action { before with lastState := lastState }
  | ico (idle : before.todo = []) :
      StepCases crypto before .ico { before with node := (handleIcoSignal before.node).node }

variable {crypto}

theorem mem_checked {before : State} {task : Task} {rest : List Task} {block : ProposerBlock}
    (next : before.todo = task :: rest) (checks : Checks crypto before.node task block) :
    block ∈ before.checked crypto .work := by
  simpa [State.checked, next] using checks_iff.mp checks

theorem mem_applied {before : State} {action : Action} {block : ProposerBlock} {after : Node}
    (checked : block ∈ before.checked crypto action)
    (signed : signedCorrectly crypto before.node.txBlockPool block.content.proposerContent =
      .ok true)
    (ran : applyProposerBlock crypto before.node block = .ok after) :
    block ∈ before.applied crypto action := by
  rw [State.applied, Option.mem_def, Option.filter_eq_some_iff]
  exact ⟨checked, by simp [signed, ran, Except.isOk, Except.toBool]⟩

theorem mem_proposerHeader {state : State} {action : Action} {header : Header}
    (hashed : state.minedHeader crypto action = some header)
    (won : header.hash crypto < header.proposerDifficulty) :
    header ∈ state.proposerHeader crypto action := by
  rw [State.proposerHeader, Option.mem_def, Option.filter_eq_some_iff]
  exact ⟨hashed, by simp [won]⟩

theorem mem_transactionHeader {state : State} {action : Action} {header : Header}
    (hashed : state.minedHeader crypto action = some header)
    (lost : ¬ header.hash crypto < header.proposerDifficulty)
    (won : header.hash crypto < header.transactionDifficulty) :
    header ∈ state.transactionHeader crypto action := by
  rw [State.transactionHeader, Option.mem_def, Option.filter_eq_some_iff]
  exact ⟨hashed, by simp [lost, won]⟩

private theorem cases_of_work {before after : State}
    (stepped : before.step crypto .work = some after) :
    StepCases crypto before .work after := by
  rw [State.step] at stepped
  split at stepped
  · cases stepped
  next task rest next =>
  split at stepped
  · next progress ran =>
      cases stepped
      exact .ran task rest _ _ next (effect_of_run ran)
  · next panicked ran =>
      cases stepped
      exact .panicked task rest panicked next (failure_of_run ran)

theorem cases_of_step {before after : State} {action : Action}
    (tipHeight : before.node.blockchain.tip ∈ before.node.blockchain.heights)
    (stepped : before.step crypto action = some after) :
    StepCases crypto before action after := by
  cases action with
  | work => exact cases_of_work stepped
  | receive message =>
      simp only [State.step, Option.ite_none_right_eq_some, Option.some.injEq] at stepped
      obtain ⟨idle, rfl⟩ := stepped
      exact .receive message idle
  | mine choice =>
      simp only [State.step, Option.ite_none_right_eq_some, Option.some.injEq] at stepped
      obtain ⟨⟨idle, possible⟩, rfl⟩ := stepped
      cases iterated : minerLoop crypto before.node choice with
      | ok progress => exact .mined _ _ idle (mined_of_minerLoop possible iterated)
      | error panicked =>
          exact .minerPanicked _ _ idle (failure_of_minerLoop possible tipHeight iterated)
  | mineAttacker choice =>
      simp only [State.step, Option.ite_none_right_eq_some, Option.some.injEq] at stepped
      obtain ⟨idle, rfl⟩ := stepped
      cases iterated : minerLoopAttacker crypto before.node choice with
      | ok progress => exact .mined _ _ idle (mined_of_minerLoopAttacker iterated)
      | error panicked =>
          exact .minerPanicked _ _ idle (failure_of_minerLoopAttacker tipHeight iterated)
  | generate draws =>
      simp only [State.step, Option.ite_none_right_eq_some] at stepped
      obtain ⟨⟨idle, -⟩, stepped⟩ := stepped
      split at stepped
      · cases stepped
        exact .looked _ before.lastState
      · cases stepped
        have round : (generatorLoop crypto before.node draws).node = before.node ∨
            ∃ ledger, before.node.globState.lookup before.node.blockchain.tip = some ledger ∧
              Generated crypto before.node ledger (generatorLoop crypto before.node draws).node :=
          generated_of_round draws
        rcases round with unchanged | ⟨ledger, tipState, generated⟩
        · rw [unchanged]
          exact .looked _ before.node.blockchain.tip
        · exact .generated _ ledger _ _ idle tipState generated
  | ico =>
      simp only [State.step, Option.ite_none_right_eq_some, Option.some.injEq] at stepped
      obtain ⟨idle, rfl⟩ := stepped
      exact .ico idle

theorem step_of_stepAfterIco {before after : State} {action : Action}
    (stepped : before.stepAfterIco crypto action = some after) :
    before.step crypto action = some after ∧ action ≠ .ico := by
  cases action with
  | ico => cases stepped
  | receive _ | work | mine _ | mineAttacker _ | generate _ =>
      exact ⟨stepped, by simp⟩

end SimplifiedPrism
