import SimplifiedPrism.Balances
import SimplifiedPrism.History
import SimplifiedPrism.Requests
import SimplifiedPrism.Spreading

/-!
# A network under control

Every node has an HTTP interface, a miner that starts paused, and a generator that makes
its addresses and then starts paused as well.  Whatever the requests are, what the nodes
do is a run of the network of nodes; what the requests decide is which run.
-/

namespace SimplifiedPrism

variable {crypto : Crypto}

/-- The number of addresses that a generator makes before its loop. -/
def addrNum : Nat := 30

/-- The nodes and their messages, with the control of the miner and the generator of every
node, the addresses that the generator has made, and the tip that it saw last. -/
structure Program (Peer : Type*) where
  network : Network Peer
  miner : Peer → Context MinerSignal
  generator : Peer → Context GeneratorSignal
  addresses : Peer → Nat
  lastState : Peer → H256

/-- What can happen: a request, a delivery, an address, and a pass of the loop of a miner
or a generator.  The orders are those in which a balance is summed up. -/
inductive Program.Event (Peer : Type*)
  | request (peer : Peer) (url : Except String Url)
  | deliver (packet : Packet Peer)
  | generateAddress (peer : Peer) (key : KeyPair)
  | mine (peer : Peer) (choice : MinerChoice)
  | generate (peer : Peer) (draws : List Draw) (coins : HashMap.Order Outpoint Coin)
      (money : HashMap.Order H160 UInt32)

/-- The panic of a signal for which the generator looks at the maps of its node. -/
def GeneratorSignal.panic (coins : HashMap.Order Outpoint Coin)
    (money : HashMap.Order H160 UInt32) (node : Node) : GeneratorSignal → Option Panic
  | .balance =>
      match handleBalanceSignal coins money node with
      | .ok _ => none
      | .error panic => some panic
  | .printIco => if node.blockchain.tip ∈ node.globState then none else some .globState
  | .start _ | .paused | .exit | .ico | .printAddr | .printTransaction => none

/-- What an event does to the control, and the events of the network that it causes. -/
structure Directed (Peer : Type*) where
  program : Program Peer
  moves : List (Network.Event Peer)
  panic : Option Panic

namespace Program

variable {Peer : Type*} [DecidableEq Peer]

/-- A signal is put into the channel of the thread it is for. -/
def send (program : Program Peer) (peer : Peer) : Option Command → Program Peer
  | none => program
  | some (.miner signal) =>
      let miner := Function.update program.miner peer ((program.miner peer).send signal)
      { program with miner }
  | some (.generator signal) =>
      let generator := Function.update program.generator peer ((program.generator peer).send signal)
      { program with generator }

/-- A pass of the generator: the offering, and a round if the tip has changed. -/
def generatorPass (program : Program Peer) (peer : Peer) (draws : List Draw)
    (coins : HashMap.Order Outpoint Coin) (money : HashMap.Order H160 UInt32)
    (passed : Turn GeneratorSignal) : Directed Peer :=
  let tip := (program.network.nodes peer).blockchain.tip
  let next := { program with generator := Function.update program.generator peer passed.context }
  let offering := if passed.handled = some .ico then [.ico peer] else []
  let panic := passed.handled.bind (GeneratorSignal.panic coins money (program.network.nodes peer))
  if passed.continues = true ∧ program.lastState peer ≠ tip then
    { program := { next with lastState := Function.update program.lastState peer tip }
      moves := offering ++ [.generate peer draws], panic }
  else
    { program := next, moves := offering, panic }

variable (attacker : Peer → Bool)

/-- What the threads make of an event; `none` if the thread is blocked or has ended. -/
def direct (program : Program Peer) : Event Peer → Option (Directed Peer)
  | .request peer url => some ⟨program.send peer (serve url).2, [], none⟩
  | .deliver packet => some ⟨program, [.deliver packet], none⟩
  | .generateAddress peer key =>
      if program.addresses peer < addrNum then
        let made := Function.update program.addresses peer (program.addresses peer + 1)
        some ⟨{ program with addresses := made }, [.generateAddress peer key], none⟩
      else
        none
  | .mine peer choice =>
      ((program.miner peer).pass MinerSignal.handle).map fun passed =>
        let mines : Network.Event Peer :=
          if attacker peer then .mineAttacker peer choice else .mine peer choice
        { program := { program with miner := Function.update program.miner peer passed.context }
          moves := if passed.continues then [mines] else [], panic := none }
  | .generate peer draws coins money =>
      if program.addresses peer = addrNum then
        ((program.generator peer).pass GeneratorSignal.handle).map
          (program.generatorPass peer draws coins money)
      else
        none

variable (crypto) (graph : Graph Peer)

/-- The step function, for events in which no thread panics. -/
def step (program : Program Peer) (event : Event Peer) : Option (Program Peer) :=
  (program.direct attacker event).bind fun directed =>
    if directed.panic = none then
      (runActions (Network.step crypto graph) program.network directed.moves).map fun network =>
        { directed.program with network }
    else
      none

/-- Nothing has been asked for and no address has been made. -/
structure Initial (program : Program Peer) : Prop where
  network : program.network.Initial crypto
  miner : ∀ peer, program.miner peer = ⟨.paused, []⟩
  generator : ∀ peer, program.generator peer = ⟨.paused, []⟩
  addresses : ∀ peer, program.addresses peer = 0
  lastState : ∀ peer, program.lastState peer = H256.zero

/-! ## What an event does -/

/-- The events of the network that an event causes. -/
def moves (program : Program Peer) (event : Event Peer) : List (Network.Event Peer) :=
  match program.direct attacker event with
  | some directed => directed.moves
  | none => []

/-- The signals for a thread of a peer that an event sends. -/
def signalsFor {Signal : Type} (thread : Command → Option Signal) (peer : Peer) :
    Event Peer → List Signal
  | .request asked url => if asked = peer then ((serve url).2.bind thread).toList else []
  | .deliver _ | .generateAddress _ _ | .mine _ _ | .generate _ _ _ _ => []

/-- The signals that an event sends to the miner of a peer. -/
def minerSent (peer : Peer) (_ : Program Peer) (event : Event Peer) : List MinerSignal :=
  signalsFor Command.forMiner peer event

/-- The signals that an event sends to the generator of a peer. -/
def generatorSent (peer : Peer) (_ : Program Peer) (event : Event Peer) : List GeneratorSignal :=
  signalsFor Command.forGenerator peer event

/-- The signal that the miner of a peer handles. -/
def minerHandled (peer : Peer) (program : Program Peer) : Event Peer → List MinerSignal
  | .mine actor _ =>
      if actor = peer then
        (((program.miner peer).pass MinerSignal.handle).bind Turn.handled).toList
      else
        []
  | .request _ _ | .deliver _ | .generateAddress _ _ | .generate _ _ _ _ => []

/-- The signal that the generator of a peer handles. -/
def generatorHandled (peer : Peer) (program : Program Peer) : Event Peer → List GeneratorSignal
  | .generate actor _ _ _ =>
      if actor = peer then
        (((program.generator peer).pass GeneratorSignal.handle).bind Turn.handled).toList
      else
        []
  | .request _ _ | .deliver _ | .generateAddress _ _ | .mine _ _ => []

variable {crypto attacker graph} {before after : Program Peer} {event : Event Peer}

theorem step_cases (stepped : before.step crypto attacker graph event = some after) :
    ∃ directed, before.direct attacker event = some directed ∧ directed.panic = none ∧
      runActions (Network.step crypto graph) before.network (before.moves attacker event) =
        some after.network ∧
      after = { directed.program with network := after.network } := by
  simp only [step, Option.bind_eq_some_iff, Option.ite_none_right_eq_some,
    Option.map_eq_some_iff] at stepped
  obtain ⟨directed, direct, completed, network, moved, rfl⟩ := stepped
  refine ⟨directed, direct, completed, ?_, rfl⟩
  rw [moves, direct]
  exact moved

theorem moves_of_step (stepped : before.step crypto attacker graph event = some after) :
    runActions (Network.step crypto graph) before.network (before.moves attacker event) =
      some after.network := by
  obtain ⟨_, -, -, moved, -⟩ := step_cases stepped
  exact moved

theorem generatorPass_control (program : Program Peer) (peer : Peer) (draws : List Draw)
    (coins : HashMap.Order Outpoint Coin) (money : HashMap.Order H160 UInt32)
    (passed : Turn GeneratorSignal) :
    (program.generatorPass peer draws coins money passed).program.miner = program.miner ∧
      (program.generatorPass peer draws coins money passed).program.generator =
        Function.update program.generator peer passed.context ∧
      (program.generatorPass peer draws coins money passed).panic = passed.handled.bind
        (GeneratorSignal.panic coins money (program.network.nodes peer)) := by
  unfold generatorPass
  dsimp only
  split <;> exact ⟨rfl, rfl, rfl⟩

section Signals

variable {Signal : Type} {thread : Command → Option Signal} {peer : Peer}

theorem length_signalsFor (thread : Command → Option Signal) (peer : Peer) (event : Event Peer) :
    (signalsFor thread peer event).length ≤ 1 := by
  cases event with
  | request asked url =>
      rw [signalsFor]
      split
      · exact Option.length_toList_le
      · exact Nat.zero_le 1
  | deliver _ | generateAddress _ _ | mine _ _ | generate _ _ _ _ => exact Nat.zero_le 1

theorem mem_signalsFor {signal : Signal} :
    signal ∈ signalsFor thread peer event ↔ ∃ url command, event = .request peer url ∧
      (serve url).2 = some command ∧ thread command = some signal := by
  cases event with
  | request asked url =>
      rw [signalsFor]
      split
      · next same =>
          subst same
          simp only [Option.mem_toList, Option.bind_eq_some_iff, Event.request.injEq, true_and]
          constructor
          · rintro ⟨command, sent, chosen⟩
            exact ⟨url, command, rfl, sent, chosen⟩
          · rintro ⟨_, command, rfl, sent, chosen⟩
            exact ⟨command, sent, chosen⟩
      · next different => simp [different]
  | deliver _ | generateAddress _ _ | mine _ _ | generate _ _ _ _ => simp [signalsFor]

theorem length_generatorSent (peer : Peer) (program : Program Peer) (event : Event Peer) :
    (generatorSent peer program event).length ≤ 1 :=
  length_signalsFor Command.forGenerator peer event

theorem mem_minerSent {program : Program Peer} {signal : MinerSignal} :
    signal ∈ minerSent peer program event ↔
      ∃ url, event = .request peer url ∧ (serve url).2 = some (.miner signal) := by
  rw [minerSent, mem_signalsFor]
  constructor
  · rintro ⟨url, command, asked, sent, chosen⟩
    cases command with
    | miner other =>
        cases chosen
        exact ⟨url, asked, sent⟩
    | generator _ => cases chosen
  · rintro ⟨url, asked, sent⟩
    exact ⟨url, _, asked, sent, rfl⟩

theorem mem_generatorSent {program : Program Peer} {signal : GeneratorSignal} :
    signal ∈ generatorSent peer program event ↔
      ∃ url, event = .request peer url ∧ (serve url).2 = some (.generator signal) := by
  rw [generatorSent, mem_signalsFor]
  constructor
  · rintro ⟨url, command, asked, sent, chosen⟩
    cases command with
    | miner _ => cases chosen
    | generator other =>
        cases chosen
        exact ⟨url, asked, sent⟩
  · rintro ⟨url, asked, sent⟩
    exact ⟨url, _, asked, sent, rfl⟩

end Signals

/-- The channels are queues, and the operating states follow the handled signals. -/
theorem miner_of_step (stepped : before.step crypto attacker graph event = some after)
    (peer : Peer) :
    (before.miner peer).controlChan ++ minerSent peer before event =
        minerHandled peer before event ++ (after.miner peer).controlChan ∧
      (after.miner peer).operatingState = (minerHandled peer before event).foldl
        MinerSignal.handle (before.miner peer).operatingState := by
  obtain ⟨directed, direct, -, -, same⟩ := step_cases stepped
  rw [same]
  cases event with
  | request asked url =>
      cases direct
      cases sends : (serve url).2 with
      | none => simp [send, minerSent, signalsFor, Command.forMiner, minerHandled, sends]
      | some command =>
          cases command with
          | generator signal =>
              simp [send, minerSent, signalsFor, Command.forMiner, minerHandled, sends]
          | miner signal =>
              by_cases own : asked = peer
              · subst own
                simp [send, minerSent, signalsFor, Command.forMiner, minerHandled, sends,
                  Context.send]
              · simp [send, minerSent, signalsFor, minerHandled, own,
                  Function.update_of_ne (Ne.symm own)]
  | deliver packet =>
      cases direct
      exact ⟨List.append_nil _, rfl⟩
  | generateAddress actor key =>
      simp only [Program.direct, Option.ite_none_right_eq_some, Option.some.injEq] at direct
      obtain ⟨-, rfl⟩ := direct
      exact ⟨List.append_nil _, rfl⟩
  | mine actor choice =>
      simp only [Program.direct, Option.map_eq_some_iff] at direct
      obtain ⟨passed, passes, rfl⟩ := direct
      by_cases own : actor = peer
      · subst own
        obtain ⟨queue, state⟩ := Context.queue_of_pass passes
        simp [minerSent, signalsFor, minerHandled, passes, queue, state]
      · simp [minerSent, signalsFor, minerHandled, own, Function.update_of_ne (Ne.symm own)]
  | generate actor draws coins money =>
      simp only [Program.direct, Option.ite_none_right_eq_some, Option.map_eq_some_iff] at direct
      obtain ⟨-, passed, -, rfl⟩ := direct
      simp [minerSent, signalsFor, minerHandled, (generatorPass_control _ _ _ _ _ _).1]

theorem generator_of_step (stepped : before.step crypto attacker graph event = some after)
    (peer : Peer) :
    (before.generator peer).controlChan ++ generatorSent peer before event =
        generatorHandled peer before event ++ (after.generator peer).controlChan ∧
      (after.generator peer).operatingState = (generatorHandled peer before event).foldl
        GeneratorSignal.handle (before.generator peer).operatingState := by
  obtain ⟨directed, direct, -, -, same⟩ := step_cases stepped
  rw [same]
  cases event with
  | request asked url =>
      cases direct
      cases sends : (serve url).2 with
      | none =>
          simp [send, generatorSent, signalsFor, Command.forGenerator, generatorHandled, sends]
      | some command =>
          cases command with
          | miner signal =>
              simp [send, generatorSent, signalsFor, Command.forGenerator, generatorHandled, sends]
          | generator signal =>
              by_cases own : asked = peer
              · subst own
                simp [send, generatorSent, signalsFor, Command.forGenerator, generatorHandled,
                  sends, Context.send]
              · simp [send, generatorSent, signalsFor, generatorHandled, own,
                  Function.update_of_ne (Ne.symm own)]
  | deliver packet =>
      cases direct
      exact ⟨List.append_nil _, rfl⟩
  | generateAddress actor key =>
      simp only [Program.direct, Option.ite_none_right_eq_some, Option.some.injEq] at direct
      obtain ⟨-, rfl⟩ := direct
      exact ⟨List.append_nil _, rfl⟩
  | mine actor choice =>
      simp only [Program.direct, Option.map_eq_some_iff] at direct
      obtain ⟨passed, -, rfl⟩ := direct
      exact ⟨List.append_nil _, rfl⟩
  | generate actor draws coins money =>
      simp only [Program.direct, Option.ite_none_right_eq_some, Option.map_eq_some_iff] at direct
      obtain ⟨-, passed, passes, rfl⟩ := direct
      rw [(generatorPass_control _ _ _ _ _ _).2.1]
      by_cases own : actor = peer
      · subst own
        obtain ⟨queue, state⟩ := Context.queue_of_pass passes
        simp [generatorSent, signalsFor, generatorHandled, passes, queue, state]
      · simp [generatorSent, signalsFor, generatorHandled, own, Function.update_of_ne (Ne.symm own)]

/-- Everything that an event can make the network do. -/
inductive Moved (attacker : Peer → Bool) (before : Program Peer) :
    Event Peer → Network.Event Peer → Prop
  | deliver (packet : Packet Peer) : Moved attacker before (.deliver packet) (.deliver packet)
  | generateAddress (peer : Peer) (key : KeyPair) :
      Moved attacker before (.generateAddress peer key) (.generateAddress peer key)
  | mine (peer : Peer) (choice : MinerChoice) (lambda : UInt64) (honest : attacker peer = false)
      (runs : (before.miner peer).operatingState = .run lambda) :
      Moved attacker before (.mine peer choice) (.mine peer choice)
  | mineAttacker (peer : Peer) (choice : MinerChoice) (lambda : UInt64)
      (attacks : attacker peer = true) (runs : (before.miner peer).operatingState = .run lambda) :
      Moved attacker before (.mine peer choice) (.mineAttacker peer choice)
  | ico (peer : Peer) (event : Event Peer)
      (handled : .ico ∈ generatorHandled peer before event) :
      Moved attacker before event (.ico peer)
  | generate (peer : Peer) (draws : List Draw) (coins : HashMap.Order Outpoint Coin)
      (money : HashMap.Order H160 UInt32) (lambda : UInt64)
      (runs : (before.generator peer).operatingState = .run lambda) :
      Moved attacker before (.generate peer draws coins money) (.generate peer draws)

theorem moved_of_mem {move : Network.Event Peer} (moved : move ∈ before.moves attacker event) :
    Moved attacker before event move := by
  unfold moves at moved
  split at moved
  case h_2 => cases moved
  next directed direct =>
  cases event with
  | request asked url =>
      cases direct
      cases moved
  | deliver packet =>
      cases direct
      rw [List.mem_singleton.mp moved]
      exact .deliver packet
  | generateAddress actor key =>
      simp only [Program.direct, Option.ite_none_right_eq_some, Option.some.injEq] at direct
      obtain ⟨-, rfl⟩ := direct
      rw [List.mem_singleton.mp moved]
      exact .generateAddress actor key
  | mine actor choice =>
      simp only [Program.direct, Option.map_eq_some_iff] at direct
      obtain ⟨passed, passes, rfl⟩ := direct
      dsimp only at moved
      split at moved
      · next continues =>
          obtain ⟨lambda, runs⟩ := Context.run_of_pass passes continues
          rw [List.mem_singleton.mp moved]
          split
          · next attacks => exact .mineAttacker actor choice lambda attacks runs
          · next honest => exact .mine actor choice lambda (by simpa using honest) runs
      · cases moved
  | generate actor draws coins money =>
      simp only [Program.direct, Option.ite_none_right_eq_some, Option.map_eq_some_iff] at direct
      obtain ⟨-, passed, passes, rfl⟩ := direct
      have offering (moved : move ∈ if passed.handled = some .ico then
          [Network.Event.ico actor] else []) :
          Moved attacker before (.generate actor draws coins money) move := by
        split at moved
        · next handled =>
            rw [List.mem_singleton.mp moved]
            exact .ico actor _ (by simp [generatorHandled, passes, handled])
        · cases moved
      unfold generatorPass at moved
      dsimp only at moved
      split at moved
      · next round =>
          obtain ⟨lambda, runs⟩ := Context.run_of_pass passes round.1
          rcases List.mem_append.mp moved with offered | generated
          · exact offering offered
          · rw [List.mem_singleton.mp generated]
            exact .generate actor draws coins money lambda runs
      · exact offering moved

/-- The event is the offering of the peer. -/
def offersFor (peer : Peer) : Network.Event Peer → Bool
  | .ico maker => maker = peer
  | .deliver _ | .mine _ _ | .mineAttacker _ _ | .generateAddress _ _ | .generate _ _ => false

/-- A node makes an offering when its generator handles the signal for it. -/
theorem countP_moves (stepped : before.step crypto attacker graph event = some after)
    (peer : Peer) :
    (before.moves attacker event).countP (offersFor peer) =
      (generatorHandled peer before event).countP (· = .ico) := by
  obtain ⟨directed, direct, -, -, -⟩ := step_cases stepped
  rw [moves, direct]
  cases event with
  | request asked url =>
      cases direct
      rfl
  | deliver packet =>
      cases direct
      rfl
  | generateAddress actor key =>
      simp only [Program.direct, Option.ite_none_right_eq_some, Option.some.injEq] at direct
      obtain ⟨-, rfl⟩ := direct
      rfl
  | mine actor choice =>
      simp only [Program.direct, Option.map_eq_some_iff] at direct
      obtain ⟨passed, -, rfl⟩ := direct
      dsimp only [generatorHandled]
      split
      · split <;> rfl
      · rfl
  | generate actor draws coins money =>
      simp only [Program.direct, Option.ite_none_right_eq_some, Option.map_eq_some_iff] at direct
      obtain ⟨-, passed, passes, rfl⟩ := direct
      have offering : (if passed.handled = some .ico then [Network.Event.ico actor] else []).countP
          (offersFor peer) =
            (generatorHandled peer before (.generate actor draws coins money)).countP
              (· = .ico) := by
        by_cases own : actor = peer
        · subst own
          cases handled : passed.handled with
          | none => simp [generatorHandled, passes, handled]
          | some signal =>
              by_cases ico : signal = .ico <;>
                simp [generatorHandled, passes, handled, ico, offersFor]
        · split <;> simp [generatorHandled, own, offersFor]
      rw [← offering]
      unfold generatorPass
      dsimp only
      split
      · rw [List.countP_append]
        rfl
      · rfl

/-! ## Runs -/

section Runs

/-- What the requests to a node decide: its signals are handled in the order of the
requests and none is lost, it mines and generates only after it has been told to, it makes
an offering for every signal, and it is never paused again or stopped. -/
structure Controlled (run : Run (Program.step crypto attacker graph) (Program.Initial crypto))
    (index : Nat) (peer : Peer) : Prop where
  minerQueue : run.history (minerSent peer) index =
    run.history (minerHandled peer) index ++ ((run.states index).miner peer).controlChan
  generatorQueue : run.history (generatorSent peer) index =
    run.history (generatorHandled peer) index ++ ((run.states index).generator peer).controlChan
  minerState : ((run.states index).miner peer).operatingState =
    .started ((run.history (minerHandled peer) index).filterMap MinerSignal.lambda)
  generatorState : ((run.states index).generator peer).operatingState =
    .started ((run.history (generatorHandled peer) index).filterMap GeneratorSignal.lambda)
  mined : ∀ choice, .mine peer choice ∈ run.history (moves attacker) index →
    attacker peer = false ∧ ∃ lambda, .start lambda ∈ run.history (minerHandled peer) index
  minedAttacker : ∀ choice, .mineAttacker peer choice ∈ run.history (moves attacker) index →
    attacker peer = true ∧ ∃ lambda, .start lambda ∈ run.history (minerHandled peer) index
  generated : ∀ draws, .generate peer draws ∈ run.history (moves attacker) index →
    ∃ lambda, .start lambda ∈ run.history (generatorHandled peer) index
  offered : (run.history (moves attacker) index).countP (offersFor peer) =
    (run.history (generatorHandled peer) index).countP (· = .ico)

variable {run : Run (Program.step crypto attacker graph) (Program.Initial crypto)}
variable {index : Nat} {peer : Peer}

theorem minerQueue_of_run (bound : index ≤ run.length) (peer : Peer) :
    run.history (minerSent peer) index =
      run.history (minerHandled peer) index ++ ((run.states index).miner peer).controlChan := by
  refine run.history_queue (fun program => (program.miner peer).controlChan) ?_ ?_ index bound
  · intro program start
    rw [start.miner]
  · exact fun _ _ _ stepped => (miner_of_step stepped peer).1

theorem generatorQueue_of_run (bound : index ≤ run.length) (peer : Peer) :
    run.history (generatorSent peer) index =
      run.history (generatorHandled peer) index ++
        ((run.states index).generator peer).controlChan := by
  refine run.history_queue (fun program => (program.generator peer).controlChan) ?_ ?_ index bound
  · intro program start
    rw [start.generator]
  · exact fun _ _ _ stepped => (generator_of_step stepped peer).1

theorem minerState_of_run (bound : index ≤ run.length) (peer : Peer) :
    ((run.states index).miner peer).operatingState =
      .started ((run.history (minerHandled peer) index).filterMap MinerSignal.lambda) := by
  have folded := run.history_foldl (fun program => (program.miner peer).operatingState)
    (fun _ _ _ stepped => (miner_of_step stepped peer).2) index bound
  rw [folded, run.starts.miner]
  apply MinerSignal.foldl_handle
  intro signal member
  have sent : signal ∈ run.history (minerSent peer) index := by
    rw [minerQueue_of_run bound]
    exact List.mem_append_left _ member
  obtain ⟨time, -, contributed⟩ := Run.mem_history.mp sent
  obtain ⟨url, -, served⟩ := mem_minerSent.mp contributed
  exact offered_of_serve served

theorem generatorState_of_run (bound : index ≤ run.length) (peer : Peer) :
    ((run.states index).generator peer).operatingState =
      .started ((run.history (generatorHandled peer) index).filterMap GeneratorSignal.lambda) := by
  have folded := run.history_foldl (fun program => (program.generator peer).operatingState)
    (fun _ _ _ stepped => (generator_of_step stepped peer).2) index bound
  rw [folded, run.starts.generator]
  apply GeneratorSignal.foldl_handle
  intro signal member
  have sent : signal ∈ run.history (generatorSent peer) index := by
    rw [generatorQueue_of_run bound]
    exact List.mem_append_left _ member
  obtain ⟨time, -, contributed⟩ := Run.mem_history.mp sent
  obtain ⟨url, -, served⟩ := mem_generatorSent.mp contributed
  exact offered_of_serve served

theorem start_of_miner (bound : index ≤ run.length) {lambda : UInt64}
    (runs : ((run.states index).miner peer).operatingState = .run lambda) :
    .start lambda ∈ run.history (minerHandled peer) index := by
  rw [minerState_of_run bound] at runs
  obtain ⟨signal, member, started⟩ := List.mem_filterMap.mp (OperatingState.mem_of_started runs)
  cases signal with
  | exit => cases started
  | start value =>
      cases started
      exact member

theorem start_of_generator (bound : index ≤ run.length) {lambda : UInt64}
    (runs : ((run.states index).generator peer).operatingState = .run lambda) :
    .start lambda ∈ run.history (generatorHandled peer) index := by
  rw [generatorState_of_run bound] at runs
  obtain ⟨signal, member, started⟩ := List.mem_filterMap.mp (OperatingState.mem_of_started runs)
  cases signal with
  | start value =>
      cases started
      exact member
  | paused | exit | ico | balance | printAddr | printIco | printTransaction => cases started

/-- In every run of the program, whatever is requested when, the nodes do what a run of the
network does, and the requests decide when they mine, generate and offer. -/
theorem controlled_of_run
    (run : Run (Program.step crypto attacker graph) (Program.Initial crypto)) :
    ∀ index ≤ run.length,
      runActions (Network.step crypto graph) (run.states 0).network
          (run.history (moves attacker) index) = some (run.states index).network ∧
        ∀ peer, Controlled run index peer := by
  intro index bound
  have earlier {move : Network.Event Peer} (moved : move ∈ run.history (moves attacker) index) :
      ∃ time < index, Moved attacker (run.states time) (run.actions time) move := by
    obtain ⟨time, before, contributed⟩ := Run.mem_history.mp moved
    exact ⟨time, before, moved_of_mem contributed⟩
  constructor
  · exact run.runActions_history Program.network (fun _ _ _ stepped => moves_of_step stepped) index
      bound
  intro peer
  refine
    { minerQueue := minerQueue_of_run bound peer
      generatorQueue := generatorQueue_of_run bound peer
      minerState := minerState_of_run bound peer
      generatorState := generatorState_of_run bound peer
      mined := fun choice moved => ?_
      minedAttacker := fun choice moved => ?_
      generated := fun draws moved => ?_
      offered := ?_ }
  · obtain ⟨time, before, moved⟩ := earlier moved
    generalize run.actions time = event at moved
    cases moved with
    | mine _ _ lambda honest runs =>
        have started := start_of_miner (by omega) runs
        exact ⟨honest, lambda, (run.history_grows _ (by omega)).subset started⟩
  · obtain ⟨time, before, moved⟩ := earlier moved
    generalize run.actions time = event at moved
    cases moved with
    | mineAttacker _ _ lambda attacks runs =>
        have started := start_of_miner (by omega) runs
        exact ⟨attacks, lambda, (run.history_grows _ (by omega)).subset started⟩
  · obtain ⟨time, before, moved⟩ := earlier moved
    generalize run.actions time = event at moved
    cases moved with
    | generate _ _ coins money lambda runs =>
        have started := start_of_generator (by omega) runs
        exact ⟨lambda, (run.history_grows _ (by omega)).subset started⟩
  · exact run.history_countP (fun _ _ _ stepped => countP_moves stepped peer) index bound

end Runs

instance Event.inhabited [Inhabited Peer] : Inhabited (Event Peer) :=
  ⟨.generateAddress default ⟨[]⟩⟩

end Program

/-- The request for an endpoint with a query. -/
def getRequest (path : String) (queryPairs : List (String × String)) : Except String Url :=
  .ok ⟨path, queryPairs⟩

/-- A program in which nothing has happened. -/
def Program.fresh : Program Bool where
  network := ⟨fun _ => Node.initial Crypto.sample [] ∅, []⟩
  miner := fun _ => ⟨.paused, []⟩
  generator := fun _ => ⟨.paused, []⟩
  addresses := fun _ => 0
  lastState := fun _ => H256.zero

theorem Program.initial_fresh : Program.fresh.Initial Crypto.sample where
  network := ⟨fun _ => rfl, rfl⟩
  miner := fun _ => rfl
  generator := fun _ => rfl
  addresses := fun _ => rfl
  lastState := fun _ => rfl

/-- The first node makes its addresses, and is asked for the offering and at once to start
its generator; the signals are handled one after the other. -/
noncomputable def Program.startRun :
    Run (Program.step Crypto.sample (fun _ => false) Graph.pair)
      (Program.Initial Crypto.sample) :=
  let pass : Program.Event Bool := .generate false [] (.any _ _) (.any _ _)
  Run.ofActions Program.fresh Program.initial_fresh
    (.request false (getRequest "/generator/ico" []) ::
      .request false (getRequest "/generator/start" [("lambda", "5")]) ::
      (List.range 30).map (fun index => .generateAddress false ⟨[UInt8.ofNat index]⟩) ++
      [pass, pass])
    (by decide +kernel)

theorem Program.controlled_startRun :
    runActions (Network.step Crypto.sample Graph.pair) (startRun.states 0).network
        (startRun.history (moves fun _ => false) 34) = some (startRun.states 34).network ∧
      ∀ peer, Controlled startRun 34 peer :=
  controlled_of_run startRun 34 (by decide)

end SimplifiedPrism
