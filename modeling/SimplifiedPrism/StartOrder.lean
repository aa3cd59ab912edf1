import SimplifiedPrism.Control

/-!
# The order of requests

A miner or generator that is started before the offering has reached its node panics at
the missing ledger.  An answer of the HTTP interface does not mean that the offering has
been made.  But the signals of the generator are handled in the order of the requests, so
that it can be started as soon as the offering has been asked for at the same node; all
other threads have to wait for the offering itself.
-/

namespace SimplifiedPrism

variable {crypto : Crypto}

/-- The signal makes the generator look a ledger up, at once or in its rounds. -/
def GeneratorSignal.Looks : GeneratorSignal → Prop
  | .start _ | .balance | .printIco => True
  | .paused | .exit | .ico | .printAddr | .printTransaction => False

instance (signal : GeneratorSignal) : Decidable signal.Looks :=
  match signal with
  | .start _ | .balance | .printIco => isTrue trivial
  | .paused | .exit | .ico | .printAddr | .printTransaction => isFalse id

/-! ## Balances -/

theorem arithmetic_of_foldlM {Entry Value : Type} {add : Value → Entry → Except Panic Value}
    (only : ∀ value entry panic, add value entry = .error panic → panic = .arithmetic)
    {entries : List Entry} {value : Value} {panic : Panic}
    (failed : entries.foldlM add value = .error panic) : panic = .arithmetic := by
  induction entries generalizing value with
  | nil => cases failed
  | cons entry entries ih =>
      rw [List.foldlM_cons, bind_eq_error] at failed
      rcases failed with now | ⟨next, -, later⟩
      · exact only _ _ _ now
      · exact ih later

theorem arithmetic_of_addMoney {first second : UInt32} {panic : Panic}
    (failed : addMoney first second = .error panic) : panic = .arithmetic := by
  unfold addMoney at failed
  split at failed
  · cases failed
  · cases failed
    rfl

theorem arithmetic_of_addCoin {node : Node} {myAddrMoney : HashMap H160 UInt32} {coin : Coin}
    {panic : Panic} (failed : addCoin node myAddrMoney coin = .error panic) :
    panic = .arithmetic := by
  unfold addCoin at failed
  split at failed
  · split at failed
    · rw [bind_eq_error] at failed
      rcases failed with now | ⟨_, -, done⟩
      · exact arithmetic_of_addMoney now
      · cases done
    · cases failed
  · cases failed

/-- At a tip with a ledger a balance fails only at a sum that is too large. -/
theorem panic_of_handleBalanceSignal {coins : HashMap.Order Outpoint Coin}
    {money : HashMap.Order H160 UInt32} {node : Node} {panic : Panic}
    (present : node.blockchain.tip ∈ node.globState)
    (failed : handleBalanceSignal coins money node = .error panic) : panic = .arithmetic := by
  obtain ⟨ledger, found⟩ := HashMap.lookup_of_mem present
  rw [handleBalanceSignal, found, index_some, ok_bind, bind_eq_error] at failed
  rcases failed with collecting | ⟨myAddrMoney, -, adding⟩
  · exact arithmetic_of_foldlM (fun _ _ _ => arithmetic_of_addCoin) collecting
  · exact arithmetic_of_foldlM (fun _ _ _ => arithmetic_of_addMoney) adding

namespace Program

variable {Peer : Type*} [DecidableEq Peer] {attacker : Peer → Bool} {graph : Graph Peer}

/-- The event is a request for the command. -/
def Event.Asks (command : Command) : Event Peer → Prop
  | .request _ url => (serve url).2 = some command
  | .deliver _ | .generateAddress _ _ | .mine _ _ | .generate _ _ _ _ => False

instance (command : Command) (event : Event Peer) : Decidable (event.Asks command) :=
  match event with
  | .request _ url => inferInstanceAs (Decidable ((serve url).2 = some command))
  | .deliver _ | .generateAddress _ _ | .mine _ _ | .generate _ _ _ _ => isFalse id

/-! ## The offering -/

section Offering

variable {run : Run (Program.step crypto attacker graph) (Program.Initial crypto)}
variable {before after : Program Peer} {event : Event Peer} {peer : Peer} {index : Nat}

/-- The offering is asked for at most once. -/
def OneRequest (run : Run (Program.step crypto attacker graph) (Program.Initial crypto)) : Prop :=
  ∀ time < run.length, ∀ later < run.length,
    (run.actions time).Asks (.generator .ico) → (run.actions later).Asks (.generator .ico) →
      time = later

/-- Whatever needs the ledger of the offering is asked for after the offering: it is there,
or, for the generator, it stands before the signal in the channel. -/
def InOrder (run : Run (Program.step crypto attacker graph) (Program.Initial crypto))
    (peer : Peer) : Prop :=
  ∀ time < run.length,
    (minerSent peer (run.states time) (run.actions time) ≠ [] →
      ((run.states time).network.nodes peer).globState ≠ ∅) ∧
    ∀ signal ∈ generatorSent peer (run.states time) (run.actions time), signal.Looks →
      ((run.states time).network.nodes peer).globState ≠ ∅ ∨
        .ico ∈ run.history (generatorSent peer) time

/-- The run of the network. -/
def shown [Inhabited Peer]
    (run : Run (Program.step crypto attacker graph) (Program.Initial crypto)) :
    Run (Network.step crypto graph) (Network.Initial crypto) :=
  run.shown Program.network (fun _ _ _ stepped => moves_of_step stepped)
    fun _ start => start.network

theorem holds_of_moves {network later : Network Peer} {moves : List (Network.Event Peer)}
    (held : (network.nodes peer).Holds .offering)
    (moved : runActions (Network.step crypto graph) network moves = some later) :
    (later.nodes peer).Holds .offering := by
  induction moves generalizing network with
  | nil =>
      cases moved
      exact held
  | cons move moves ih =>
      obtain ⟨next, stepped, rest⟩ := Option.bind_eq_some_iff.mp moved
      exact ih (Network.holds_of_step stepped held) rest

theorem holds_of_ico {network later : Network Peer} {moves : List (Network.Event Peer)}
    (made : .ico peer ∈ moves)
    (moved : runActions (Network.step crypto graph) network moves = some later) :
    (later.nodes peer).Holds .offering := by
  induction moves generalizing network with
  | nil => cases made
  | cons move moves ih =>
      obtain ⟨next, stepped, rest⟩ := Option.bind_eq_some_iff.mp moved
      rcases List.mem_cons.mp made with rfl | member
      · have here : (next.nodes peer).Holds .offering := by
          simp only [Network.step, Network.perform, Network.outcomeOf, Option.bind_some, if_true,
            Option.some.injEq] at stepped
          rw [← stepped]
          simp only [Network.Event.actor, Function.update_self]
          exact ⟨_, Finmap.mem_insert.mpr (.inl rfl)⟩
        exact holds_of_moves here rest
      · exact ih member rest

theorem holds_later {later : Nat} (order : index ≤ later) (bound : later ≤ run.length)
    (held : ((run.states index).network.nodes peer).Holds .offering) :
    ((run.states later).network.nodes peer).Holds .offering := by
  induction order with
  | refl => exact held
  | step _ ih => exact holds_of_moves (ih (by omega)) (moves_of_step (run.steps _ (by omega)))

/-- Once its generator has handled the signal, a node has the offering. -/
theorem holds_of_handled (bound : index ≤ run.length)
    (handled : .ico ∈ run.history (generatorHandled peer) index) :
    ((run.states index).network.nodes peer).Holds .offering := by
  obtain ⟨time, before, now⟩ := Run.mem_history.mp handled
  have stepped := run.steps time (by omega)
  have some : 0 < ((run.states time).moves attacker (run.actions time)).countP
      (offersFor peer) := by
    rw [countP_moves stepped, List.countP_pos_iff]
    exact ⟨_, now, by simp⟩
  obtain ⟨move, member, offers⟩ := List.countP_pos_iff.mp some
  have made : .ico peer ∈ (run.states time).moves attacker (run.actions time) := by
    cases move with
    | ico maker =>
        simp only [offersFor, decide_eq_true_eq] at offers
        exact offers ▸ member
    | deliver _ | mine _ _ | mineAttacker _ _ | generateAddress _ _ | generate _ _ =>
        cases offers
  exact holds_later before bound (holds_of_ico made (moves_of_step stepped))

theorem asked_of_handled {signal : GeneratorSignal} (bound : index ≤ run.length)
    (handled : signal ∈ run.history (generatorHandled peer) index) :
    ∃ time < index, ∃ url, run.actions time = .request peer url ∧
      (serve url).2 = some (.generator signal) := by
  have sent : signal ∈ run.history (generatorSent peer) index := by
    rw [generatorQueue_of_run bound]
    exact List.mem_append_left _ handled
  obtain ⟨time, before, contributed⟩ := Run.mem_history.mp sent
  obtain ⟨url, asked⟩ := mem_generatorSent.mp contributed
  exact ⟨time, before, url, asked⟩

theorem peer_of_handled (once : OneRequest run) {other : Peer}
    (handled : .ico ∈ run.history (generatorHandled peer) run.length)
    (handledToo : .ico ∈ run.history (generatorHandled other) run.length) : other = peer := by
  obtain ⟨time, before, url, asked, sends⟩ := asked_of_handled (Nat.le_refl _) handled
  obtain ⟨later, beforeToo, urlToo, askedToo, sendsToo⟩ :=
    asked_of_handled (Nat.le_refl _) handledToo
  have same : time = later := by
    apply once time before later beforeToo
    · rw [asked]
      exact sends
    · rw [askedToo]
      exact sendsToo
  subst same
  rw [asked] at askedToo
  cases askedToo
  rfl

theorem countP_offersFor_le (once : OneRequest run) (peer : Peer) :
    (run.history (moves attacker) run.length).countP (offersFor peer) ≤ 1 := by
  rw [run.history_countP (fun _ _ _ stepped => countP_moves stepped peer) run.length
    (Nat.le_refl _)]
  have sent : (run.history (generatorSent peer) run.length).countP (· = .ico) ≤ 1 := by
    apply run.history_countP_le_one (length_generatorSent peer)
    have asks {time : Nat} (sends : ∃ signal ∈ generatorSent peer (run.states time)
        (run.actions time), decide (signal = .ico) = true) :
        (run.actions time).Asks (.generator .ico) := by
      obtain ⟨signal, member, ico⟩ := sends
      obtain ⟨url, asked, serves⟩ := mem_generatorSent.mp member
      rw [asked]
      rw [of_decide_eq_true ico] at serves
      exact serves
    exact fun time before later beforeToo first second =>
      once time before later beforeToo (asks first) (asks second)
  rw [generatorQueue_of_run (Nat.le_refl _), List.countP_append] at sent
  omega

theorem oneOffering_of_request [Inhabited Peer] (once : OneRequest run) :
    OneOffering (shown run) := by
  intro position bound offers
  by_contra given
  obtain ⟨ledger, given⟩ := Option.ne_none_iff_exists'.mp given
  obtain ⟨earlier, before, maker, made, -⟩ := ico_of_offer given
  obtain ⟨other, madeToo⟩ : ∃ other, (shown run).actions position = .ico other := by
    cases action : (shown run).actions position with
    | ico other => exact ⟨other, rfl⟩
    | deliver _ | mine _ _ | mineAttacker _ _ | generateAddress _ _ | generate _ _ =>
        rw [action] at offers
        exact absurd rfl offers
  let all := run.history (moves attacker) run.length
  have entry {place : Nat} (inside : place < all.length) :
      all[place] = (shown run).actions place := by
    change _ = all.getD place _
    rw [List.getD_eq_getElem _ _ inside]
  have inside : position < all.length := bound
  have insideToo : earlier < all.length := Nat.lt_trans before bound
  have first : all[earlier] = .ico maker := (entry insideToo).trans made
  have second : all[position] = .ico other := (entry inside).trans madeToo
  have handled {peer : Peer} (member : .ico peer ∈ all) :
      .ico ∈ run.history (generatorHandled peer) run.length := by
    obtain ⟨time, early, moved⟩ := Run.mem_history.mp member
    generalize same : run.actions time = event at moved
    cases moved_of_mem moved with
    | ico _ _ handled =>
        rw [← same] at handled
        exact Run.mem_history.mpr ⟨time, early, handled⟩
  have one : other = maker := peer_of_handled once (handled (first ▸ List.getElem_mem insideToo))
    (handled (second ▸ List.getElem_mem inside))
  subst one
  have atMost : all.countP (offersFor other) ≤ 1 := countP_offersFor_le once other
  have inFront : 0 < (all.take position).countP (offersFor other) := by
    rw [List.countP_pos_iff]
    refine ⟨.ico other, ?_, by simp [offersFor]⟩
    rw [List.mem_take_iff_getElem]
    exact ⟨earlier, by omega, first⟩
  have after : 0 < (all.drop position).countP (offersFor other) := by
    rw [List.countP_pos_iff]
    refine ⟨.ico other, ?_, by simp [offersFor]⟩
    rw [List.drop_eq_getElem_cons inside, second]
    exact List.mem_cons_self
  have split : all.countP (offersFor other) = (all.take position).countP (offersFor other) +
      (all.drop position).countP (offersFor other) := by
    rw [← List.countP_append, List.take_append_drop]
  omega

end Offering

/-! ## Starting -/

section Starting

variable {run : Run (Program.step crypto attacker graph) (Program.Initial crypto)}
variable {peer : Peer} {index : Nat}

/-- What stands in the channel behind what was handled, and needs the ledger, finds the
offering made. -/
theorem holds_of_sent (order : InOrder run peer) (bound : index ≤ run.length)
    {front back : List GeneratorSignal} {signal : GeneratorSignal} (looks : signal.Looks)
    (sent : run.history (generatorSent peer) index = front ++ signal :: back)
    (handled : ∀ earlier ∈ front, earlier ∈ run.history (generatorHandled peer) index) :
    ((run.states index).network.nodes peer).Holds .offering := by
  obtain ⟨time, before, contributed, same⟩ :=
    Run.exists_time (length_generatorSent peer) sent
  have member : signal ∈ generatorSent peer (run.states time) (run.actions time) := by
    rw [contributed]
    exact List.mem_singleton_self signal
  rcases (order time (by omega)).2 signal member looks with present | asked
  · exact holds_later (Nat.le_of_lt before) bound (HashMap.mem_of_ne_empty present)
  · rw [same] at asked
    exact holds_of_handled bound (handled _ asked)

/-- A generator runs, or looks at a ledger, only when its node has the offering. -/
theorem holds_of_generator (order : InOrder run peer) (bound : index ≤ run.length)
    (looking : (∃ lambda, ((run.states index).generator peer).operatingState = .run lambda) ∨
      ∃ signal rest, ((run.states index).generator peer).controlChan = signal :: rest ∧
        signal.Looks) :
    ((run.states index).network.nodes peer).Holds .offering := by
  have queue := generatorQueue_of_run bound peer
  rcases looking with ⟨lambda, runs⟩ | ⟨signal, rest, next, looks⟩
  · obtain ⟨front, back, split⟩ := List.append_of_mem (start_of_generator bound runs)
    rw [split, List.append_assoc, List.cons_append] at queue
    have looks : GeneratorSignal.Looks (.start lambda) := trivial
    apply holds_of_sent order bound looks queue
    intro earlier member
    rw [split]
    exact List.mem_append_left _ member
  · rw [next] at queue
    exact holds_of_sent order bound looks queue fun earlier member => member

/-- A miner runs only when its node has the offering. -/
theorem holds_of_miner (order : InOrder run peer) (bound : index ≤ run.length) {lambda : UInt64}
    (runs : ((run.states index).miner peer).operatingState = .run lambda) :
    ((run.states index).network.nodes peer).Holds .offering := by
  have sent : .start lambda ∈ run.history (minerSent peer) index := by
    rw [minerQueue_of_run bound]
    exact List.mem_append_left _ (start_of_miner bound runs)
  obtain ⟨time, before, contributed⟩ := Run.mem_history.mp sent
  have present := (order time (by omega)).1 (List.ne_nil_of_mem contributed)
  exact holds_later (Nat.le_of_lt before) bound (HashMap.mem_of_ne_empty present)

/-- The network of every state is one of the run of the network. -/
theorem exists_place [Inhabited Peer] (bound : index ≤ run.length) :
    ∃ place ≤ (shown run).length, (shown run).states place = (run.states index).network :=
  ⟨_, (run.history_grows (moves attacker) bound).length_le,
    run.states_shown Program.network (fun _ _ _ stepped => moves_of_step stepped)
      (fun _ start => start.network) bound⟩

/-- What a node with the offering needs for a pass of its threads. -/
structure Supplied (crypto : Crypto) (origin : Origin) (node : Node) : Prop where
  offered : ∃ ledger, node.Offered crypto ledger
  formed : node.WellFormed crypto
  within : node.Within crypto origin
  owns : node.OwnsAddresses crypto

theorem Supplied.present {origin : Origin} {node : Node}
    (supplied : Supplied crypto origin node) : node.blockchain.tip ∈ node.globState := by
  obtain ⟨ledger, offered⟩ := supplied.offered
  exact (offered.published _ supplied.formed.chain.tip).1

theorem supplied_of_holds [Inhabited Peer] (once : OneRequest run)
    (noCollision : NoCollision crypto (madeBefore (shown run) (shown run).length))
    (bound : index ≤ run.length)
    (held : ((run.states index).network.nodes peer).Holds .offering) :
    Supplied crypto (madeBefore (shown run) (shown run).length)
      ((run.states index).network.nodes peer) := by
  obtain ⟨place, inside, same⟩ := exists_place bound
  have within := within_of_run (shown run) place inside
  have anchored := anchored_of_run (shown run) (oneOffering_of_request once) noCollision place
    inside
  have owns := ownsAddresses_of_run (shown run) inside peer
  rw [same] at within anchored owns
  refine ⟨?_, within.formed peer, (within.nodes peer).mono (madeBefore_le (shown run) inside), owns⟩
  rcases (anchored.nodes peer).offered with unoffered | ⟨ledger, -, offered⟩
  · obtain ⟨hash, member⟩ := held
    rw [unoffered.globState] at member
    exact absurd member Finmap.notMem_empty
  · exact ⟨ledger, offered⟩

theorem completed_mine {network : Network Peer} {choice : MinerChoice} {origin : Origin}
    (supplied : Supplied crypto origin (network.nodes peer)) (shaped : origin.Shaped)
    (possible : choice.Possible (network.nodes peer)) :
    ∃ next, network.step crypto graph (.mine peer choice) = some next := by
  obtain ⟨ledger, offered⟩ := supplied.offered
  obtain ⟨progress, ran⟩ :=
    offered.minerLoop_isOk supplied.formed supplied.within shaped possible
  simp [Network.step, Network.perform, possible, ran, Network.outcomeOf]

theorem completed_mineAttacker {network : Network Peer} {choice : MinerChoice} {origin : Origin}
    (supplied : Supplied crypto origin (network.nodes peer)) :
    ∃ next, network.step crypto graph (.mineAttacker peer choice) = some next := by
  obtain ⟨ledger, offered⟩ := supplied.offered
  obtain ⟨progress, ran⟩ := offered.minerLoopAttacker_isOk choice supplied.formed
  simp [Network.step, Network.perform, ran, Network.outcomeOf]

theorem completed_ico (crypto : Crypto) (graph : Graph Peer) (network : Network Peer)
    (peer : Peer) :
    ∃ next, network.step crypto graph (.ico peer) = some next ∧
      next.nodes peer = (handleIcoSignal (network.nodes peer)).node := by
  simp [Network.step, Network.perform, Network.outcomeOf, Network.Event.actor]

theorem completed_generate {network : Network Peer} {draws : List Draw}
    (owns : (network.nodes peer).OwnsAddresses crypto)
    (present : (network.nodes peer).blockchain.tip ∈ (network.nodes peer).globState)
    (possible : DrawsPossible (network.nodes peer) draws) :
    ∃ next, network.step crypto graph (.generate peer draws) = some next := by
  have completes : (generatorLoop crypto (network.nodes peer) draws).panic = none := by
    cases panics : (generatorLoop crypto (network.nodes peer) draws).panic with
    | none => rfl
    | some panic => exact absurd present (panic_of_generatorLoop owns possible panics).2
  simp [Network.step, Network.perform, possible, completes]

/-- The maps with which a round in the next pass of the generator starts. -/
def roundNode (program : Program Peer) (peer : Peer) : Node :=
  let node := program.network.nodes peer
  if (program.generator peer).controlChan.head? = some .ico then
    (handleIcoSignal node).node
  else
    node

/-- A balance is all that can stop a generator which is started in order: by a sum that is
too large. -/
theorem panic_of_generator [Inhabited Peer] (once : OneRequest run)
    (noCollision : NoCollision crypto (madeBefore (shown run) (shown run).length))
    (order : InOrder run peer) (bound : index ≤ run.length) {signal : GeneratorSignal}
    {coins : HashMap.Order Outpoint Coin} {money : HashMap.Order H160 UInt32} {panic : Panic}
    (next : ((run.states index).generator peer).controlChan.head? = some signal)
    (panics : signal.panic coins money ((run.states index).network.nodes peer) = some panic) :
    signal = .balance ∧ panic = .arithmetic := by
  have present (looks : signal.Looks) :
      ((run.states index).network.nodes peer).blockchain.tip ∈
        ((run.states index).network.nodes peer).globState := by
    obtain ⟨rest, queue⟩ := List.head?_eq_some_iff.mp next
    have held := holds_of_generator order bound (.inr ⟨signal, rest, queue, looks⟩)
    exact (supplied_of_holds once noCollision bound held).present
  cases signal with
  | start _ | paused | exit | ico | printAddr | printTransaction => cases panics
  | printIco =>
      rw [GeneratorSignal.panic, if_pos (present trivial)] at panics
      cases panics
  | balance =>
      rw [GeneratorSignal.panic] at panics
      split at panics
      · cases panics
      · next failed =>
          cases panics
          exact ⟨rfl, panic_of_handleBalanceSignal (present trivial) failed⟩

theorem exists_step {program : Program Peer} {event : Event Peer} {directed : Directed Peer}
    (direct : program.direct attacker event = some directed) (completed : directed.panic = none)
    (moved : ∃ next, runActions (Network.step crypto graph) program.network directed.moves =
      some next) : ∃ after, program.step crypto attacker graph event = some after := by
  obtain ⟨next, moved⟩ := moved
  refine ⟨{ directed.program with network := next }, ?_⟩
  rw [step, direct, Option.bind_some, if_pos completed, moved]
  rfl

theorem runActions_single {network : Network Peer} {move : Network.Event Peer}
    (moved : ∃ next, network.step crypto graph move = some next) :
    ∃ next, runActions (Network.step crypto graph) network [move] = some next := by
  obtain ⟨next, stepped⟩ := moved
  exact ⟨next, by rw [runActions, stepped]; rfl⟩

/-- A pass of a miner completes when the miner runs only at a node with the offering. -/
theorem completed_minerPass [Inhabited Peer] (once : OneRequest run)
    (noCollision : NoCollision crypto (madeBefore (shown run) (shown run).length))
    (bound : index ≤ run.length)
    (held : ∀ lambda, ((run.states index).miner peer).operatingState = .run lambda →
      ((run.states index).network.nodes peer).Holds .offering)
    {choice : MinerChoice} {directed : Directed Peer}
    (direct : (run.states index).direct attacker (.mine peer choice) = some directed)
    (possible : attacker peer = false → choice.Possible ((run.states index).network.nodes peer)) :
    ∃ after, (run.states index).step crypto attacker graph (.mine peer choice) = some after := by
  have shaped := @shaped_madeBefore _ _ _ _ (shown run) _ (Nat.le_refl _)
  have passes := direct
  simp only [Program.direct, Option.map_eq_some_iff] at passes
  obtain ⟨passed, passes, rfl⟩ := passes
  refine exists_step direct rfl ?_
  by_cases continues : passed.continues = true
  · obtain ⟨lambda, runs⟩ := Context.run_of_pass passes continues
    have supplied := supplied_of_holds once noCollision bound (held lambda runs)
    rw [if_pos continues]
    apply runActions_single
    cases attacks : attacker peer with
    | true => exact completed_mineAttacker supplied
    | false => exact completed_mine supplied shaped (possible attacks)
  · rw [if_neg continues]
    exact ⟨_, rfl⟩

theorem completed_generatorPass [Inhabited Peer] (once : OneRequest run)
    (noCollision : NoCollision crypto (madeBefore (shown run) (shown run).length))
    (order : InOrder run peer) (bound : index ≤ run.length) {draws : List Draw}
    {coins : HashMap.Order Outpoint Coin} {money : HashMap.Order H160 UInt32}
    {passed : Turn GeneratorSignal}
    (passes : ((run.states index).generator peer).pass GeneratorSignal.handle = some passed)
    (possible : DrawsPossible ((run.states index).roundNode peer) draws) :
    ∃ next, runActions (Network.step crypto graph) (run.states index).network
      ((run.states index).generatorPass peer draws coins money passed).moves = some next := by
  have handled := Context.handled_of_pass passes
  rw [roundNode, ← handled] at possible
  unfold generatorPass
  dsimp only
  split
  · next round =>
      obtain ⟨lambda, runs⟩ := Context.run_of_pass passes round.1
      have held := holds_of_generator order bound (.inl ⟨lambda, runs⟩)
      have supplied := supplied_of_holds once noCollision bound held
      by_cases offers : passed.handled = some .ico
      · rw [if_pos offers] at possible ⊢
        obtain ⟨middle, stepped, taken⟩ :=
          completed_ico crypto graph (run.states index).network peer
        rw [List.singleton_append, runActions, stepped, Option.bind_some]
        apply runActions_single
        apply completed_generate
        · rw [taken]
          exact supplied.owns.of_keeps ⟨rfl, fun _ known => known⟩
        · rw [taken]
          exact Finmap.mem_insert.mpr (.inl rfl)
        · rwa [taken]
      · rw [if_neg offers] at possible ⊢
        exact runActions_single (completed_generate supplied.owns supplied.present possible)
  · split
    · obtain ⟨next, stepped, -⟩ := completed_ico crypto graph (run.states index).network peer
      exact runActions_single ⟨next, stepped⟩
    · exact ⟨_, rfl⟩

theorem continues_of_miner (bound : index ≤ run.length) {lambda : UInt64}
    (runs : ((run.states index).miner peer).operatingState = .run lambda) :
    ∃ passed, ((run.states index).miner peer).pass MinerSignal.handle = some passed ∧
      passed.continues = true := by
  have queue := minerQueue_of_run bound peer
  generalize (run.states index).miner peer = context at runs queue
  obtain ⟨operatingState, controlChan⟩ := context
  subst runs
  cases controlChan with
  | nil => exact ⟨_, rfl, rfl⟩
  | cons signal rest =>
      have sent : signal ∈ run.history (minerSent peer) index := by
        rw [queue]
        exact List.mem_append_right _ List.mem_cons_self
      obtain ⟨time, -, contributed⟩ := Run.mem_history.mp sent
      obtain ⟨url, -, served⟩ := mem_minerSent.mp contributed
      obtain ⟨value, rfl⟩ := offered_of_serve served
      exact ⟨_, rfl, rfl⟩

theorem step_mine_eq_none (crypto : Crypto) (graph : Graph Peer) {network : Network Peer}
    (choice : MinerChoice) (missing : (network.nodes peer).globState = ∅) :
    network.step crypto graph (.mine peer choice) = none ∧
      network.step crypto graph (.mineAttacker peer choice) = none := by
  constructor
  · by_cases possible : choice.Possible (network.nodes peer)
    · simp [Network.step, Network.perform, possible, minerLoop, missing, Network.outcomeOf]
    · simp [Network.step, Network.perform, possible]
  · simp [Network.step, Network.perform, minerLoopAttacker, missing, Network.outcomeOf]

end Starting

end Program

theorem Program.noCollision_startRun : NoCollision Crypto.sample
    (madeBefore (shown startRun) (shown startRun).length) := by
  have made : (∀ block, (madeBefore (shown startRun) (shown startRun).length).block block →
      block ∈ []) ∧
      ∀ txBlock, (madeBefore (shown startRun) (shown startRun).length).txBlock txBlock →
        txBlock ∈ [] := by
    apply madeBefore_of_entries (shown startRun)
    · change ∀ index < 31, _
      decide +kernel
    · change ∀ index < 31, _
      decide +kernel
  exact .of_lists made.1 made.2 (by decide +kernel) (by decide +kernel) (by decide +kernel)
    (by decide +kernel)

/-- A draw for every coin of the offering. -/
def Program.startDraws : List Draw :=
  (List.range 30).map fun index => ⟨(H256.zero, UInt32.ofNat index), 0, 0⟩

/-- A miner is started before the offering is made. -/
noncomputable def Program.earlyMinerRun :
    Run (Program.step Crypto.sample (fun _ => false) Graph.pair)
      (Program.Initial Crypto.sample) :=
  Run.ofActions Program.fresh Program.initial_fresh
    (.request false (getRequest "/miner/start" [("lambda", "5")]) ::
      .mine false ⟨[], [], 0, 0⟩ ::
      .request false (getRequest "/generator/ico" []) ::
      (List.range 30).map (fun index => .generateAddress false ⟨[UInt8.ofNat index]⟩) ++
      [.generate false [] (.any _ _) (.any _ _)])
    (by decide +kernel)

theorem Program.noCollision_earlyMinerRun : NoCollision Crypto.sample
    (madeBefore (shown earlyMinerRun) (shown earlyMinerRun).length) := by
  have made : (∀ block, (madeBefore (shown earlyMinerRun) (shown earlyMinerRun).length).block
      block → block ∈ []) ∧
      ∀ txBlock, (madeBefore (shown earlyMinerRun) (shown earlyMinerRun).length).txBlock
        txBlock → txBlock ∈ [] := by
    apply madeBefore_of_entries (shown earlyMinerRun)
    · change ∀ index < 31, _
      decide +kernel
    · change ∀ index < 31, _
      decide +kernel
  exact .of_lists made.1 made.2 (by decide +kernel) (by decide +kernel) (by decide +kernel)
    (by decide +kernel)

end SimplifiedPrism
