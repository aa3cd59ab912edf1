import Mathlib.Algebra.BigOperators.Group.Finset.Piecewise
import Mathlib.Algebra.BigOperators.Ring.Finset
import Mathlib.Algebra.Order.BigOperators.Group.Finset
import SimplifiedPrism.Network

/-!
# The gossip of addresses

A node that learns an address broadcasts its whole list.  Whatever a node knows
its neighbours know as well, or a list on the way to them has it.  A node sends
as many lists as it learns addresses, so the flood ends, and at its end
neighbours know the same addresses.
-/

namespace SimplifiedPrism

variable {crypto : Crypto}

/-! ## One message -/

/-- The list of addresses that a message carries. -/
def Message.addrVec : Message → Option (List H160)
  | .newAddr addrVec => some addrVec
  | _ => none

/-- The lists of addresses among the broadcasts. -/
def addrBroadcasts (sent : List Outgoing) : List (List H160) :=
  sent.filterMap fun
    | .broadcast message => message.addrVec
    | .write _ => none

theorem mem_addrBroadcasts {sent : List Outgoing} {addrVec : List H160} :
    addrVec ∈ addrBroadcasts sent ↔ .broadcast (.newAddr addrVec) ∈ sent := by
  rw [addrBroadcasts, List.mem_filterMap]
  constructor
  · rintro ⟨outgoing, member, carries⟩
    cases outgoing with
    | write message => cases carries
    | broadcast message =>
        cases message <;> cases carries
        exact member
  · exact fun member => ⟨_, member, rfl⟩

theorem addrBroadcasts_append (first second : List Outgoing) :
    addrBroadcasts (first ++ second) = addrBroadcasts first ++ addrBroadcasts second :=
  List.filterMap_append

/-- A node has learned some addresses and broadcast one list for each of them. -/
structure Spreads (before after : Node) (sent : List Outgoing) (added : List H160) : Prop where
  allAddr : after.allAddr = before.allAddr ++ added
  count : (addrBroadcasts sent).length = added.length
  covers : ∀ addr ∈ added, ∃ addrVec ∈ addrBroadcasts sent, addr ∈ addrVec
  sound : ∀ addrVec ∈ addrBroadcasts sent, ∀ addr ∈ addrVec, addr ∈ after.allAddr
  unanswered : ∀ addrVec, .write (.newAddr addrVec) ∉ sent

theorem Spreads.nothing {before after : Node} {sent : List Outgoing}
    (same : after.allAddr = before.allAddr)
    (silent : ∀ addrVec, .broadcast (.newAddr addrVec) ∉ sent ∧
      .write (.newAddr addrVec) ∉ sent) : Spreads before after sent [] := by
  have none : addrBroadcasts sent = [] := by
    apply List.eq_nil_iff_forall_not_mem.mpr
    intro addrVec member
    exact (silent addrVec).1 (mem_addrBroadcasts.mp member)
  refine ⟨by rw [same, List.append_nil], by rw [none]; rfl, by simp, by simp [none],
    fun addrVec => (silent addrVec).2⟩

theorem Spreads.mem {before after : Node} {sent : List Outgoing} {added : List H160}
    (spreads : Spreads before after sent added) {addr : H160} :
    addr ∈ after.allAddr ↔ addr ∈ before.allAddr ∨ addr ∈ added := by
  rw [spreads.allAddr, List.mem_append]

theorem Spreads.trans {before middle after : Node} {first second : List Outgoing}
    {added more : List H160} (spreads : Spreads before middle first added)
    (later : Spreads middle after second more) :
    Spreads before after (first ++ second) (added ++ more) where
  allAddr := by rw [later.allAddr, spreads.allAddr, List.append_assoc]
  count := by
    rw [addrBroadcasts_append, List.length_append, List.length_append, spreads.count, later.count]
  covers := by
    intro addr member
    rw [addrBroadcasts_append]
    rcases List.mem_append.mp member with earlier | new
    · obtain ⟨addrVec, sent, within⟩ := spreads.covers addr earlier
      exact ⟨addrVec, List.mem_append_left _ sent, within⟩
    · obtain ⟨addrVec, sent, within⟩ := later.covers addr new
      exact ⟨addrVec, List.mem_append_right _ sent, within⟩
  sound := by
    intro addrVec member addr within
    rw [addrBroadcasts_append] at member
    rcases List.mem_append.mp member with earlier | new
    · exact later.mem.mpr (.inl (spreads.sound addrVec earlier addr within))
    · exact later.sound addrVec new addr within
  unanswered := by
    intro addrVec member
    rcases List.mem_append.mp member with earlier | new
    · exact spreads.unanswered addrVec earlier
    · exact later.unanswered addrVec new

/-- The addresses received have been learned, and no others; none twice. -/
structure Learns (before after : Node) (sent : List Outgoing) (received added : List H160) :
    Prop extends Spreads before after sent added where
  learned : ∀ addr ∈ received, addr ∈ after.allAddr
  origin : ∀ addr ∈ added, addr ∈ received
  nodup : before.allAddr.Nodup → after.allAddr.Nodup

/-- The addresses that a task looks at. -/
def Task.addrs : Task → List H160
  | .addr each => [each]
  | _ => []

section Learns

variable {node after : Node} {task : Task} {todo : List Task} {progress : Progress}

theorem Effect.allAddr (effect : Effect crypto node task after todo) (other : task.addrs = []) :
    after.allAddr = node.allAddr := by
  cases effect with
  | skip _ | ico _ _ _ | transaction _ _ _ _ _ _ _ _ _ _ _ | transactionBlock _ _ _ _
  | release _ _ _ => rfl
  | addr each _ => cases other
  | buffer each _ _ _ => rw [bufferOrphan_eq]
  | accept _ _ _ _ _ applied =>
      obtain ⟨_, _, _, accepts⟩ := accepts_of_apply applied
      exact accepts.allAddr

theorem Effect.addrs_todo (effect : Effect crypto node task after todo) :
    todo.flatMap Task.addrs = [] := by
  rw [List.flatMap_eq_nil_iff]
  intro next member
  cases effect with
  | skip _ | addr _ _ | ico _ _ _ | transaction _ _ _ _ _ _ _ _ _ _ _
  | transactionBlock _ _ _ _ | buffer _ _ _ _ => cases member
  | accept _ each _ _ _ _ =>
      rw [List.mem_singleton] at member
      subst member
      rfl
  | release block vec _ =>
      obtain ⟨each, -, rfl⟩ := List.mem_map.mp member
      rfl

theorem learns_nothing (ran : runTask crypto node task = .ok progress) (other : task.addrs = []) :
    Learns node progress.node progress.sent [] [] := by
  have sameAddr := (effect_of_run ran).allAddr other
  have silent : ∀ addrVec, .broadcast (.newAddr addrVec) ∉ progress.sent ∧
      .write (.newAddr addrVec) ∉ progress.sent := by
    intro addrVec
    constructor
    · intro sent
      cases sends_of_run ran sent
      cases other
    · intro sent
      cases sends_of_run ran sent
  exact ⟨.nothing sameAddr silent, by simp, by simp, fun nodup => sameAddr ▸ nodup⟩

/-- An address that is new is learned, and the list that has it is broadcast. -/
theorem learns_addr (node : Node) (each : H160) :
    ∃ added, Learns node (handleAddr node each).node (handleAddr node each).sent [each] added := by
  unfold handleAddr
  split
  · next known =>
      exact ⟨[], .nothing rfl (by simp), by simpa using known, by simp, id⟩
  · next fresh =>
      refine ⟨[each], ⟨rfl, rfl, ?_, ?_, by simp⟩, by simp, by simp, fun nodup => ?_⟩
      · intro addr member
        exact ⟨node.allAddr ++ [each], by simp [addrBroadcasts, Message.addrVec],
          List.mem_append_right _ member⟩
      · intro addrVec member
        rw [mem_addrBroadcasts, List.mem_singleton] at member
        cases member
        exact fun addr within => within
      · apply List.nodup_append_comm.mp
        exact List.nodup_cons.mpr ⟨fresh, nodup⟩

theorem learns_of_run (ran : runTask crypto node task = .ok progress) :
    ∃ added, Learns node progress.node progress.sent task.addrs added := by
  cases task with
  | addr each =>
      cases ran
      exact learns_addr node each
  | ico _ _ | announcedTransaction _ | requestedTransaction _ | transaction _ _
  | announcedTransactionBlock _ | requestedTransactionBlock _ | transactionBlock _
  | announcedProposerBlock _ | requestedProposerBlock _ | proposerBlock _ | newParent _
  | orphan _ => exact ⟨[], learns_nothing ran rfl⟩

theorem learns_of_runTasks (node : Node) (todo : List Task)
    (completed : (runTasks crypto node todo).panic = none) :
    ∃ added, Learns node (runTasks crypto node todo).node (runTasks crypto node todo).sent
      (todo.flatMap Task.addrs) added := by
  fun_induction runTasks crypto node todo with
  | case1 node => exact ⟨[], .nothing rfl (by simp), by simp, by simp, id⟩
  | case2 node task rest panicked ran => cases completed
  | case3 node task rest progress ran outcome ih =>
      obtain ⟨added, learns⟩ := learns_of_run ran
      obtain ⟨more, later⟩ := ih completed
      rw [List.flatMap_append, (effect_of_run ran).addrs_todo, List.nil_append] at later
      refine ⟨added ++ more, learns.toSpreads.trans later.toSpreads, ?_, ?_, ?_⟩
      · intro addr received
        rcases List.mem_append.mp received with first | others
        · exact later.mem.mpr (.inl (learns.learned addr first))
        · exact later.learned addr others
      · intro addr member
        rcases List.mem_append.mp member with first | others
        · exact List.mem_append_left _ (learns.origin addr first)
        · exact List.mem_append_right _ (later.origin addr others)
      · exact fun nodup => later.nodup (learns.nodup nodup)

end Learns

/-! ## One event -/

namespace Network

variable {Peer : Type*}

/-- The address that an event generates. -/
def Event.generated (crypto : Crypto) : Event Peer → List H160
  | .generateAddress _ key => [addressOf crypto (crypto.publicKey key)]
  | _ => []

/-- The addresses that an event shows to the acting peer. -/
def Event.offered (crypto : Crypto) : Event Peer → List H160
  | .deliver packet => packet.message.addrVec.getD []
  | .generateAddress _ key => [addressOf crypto (crypto.publicKey key)]
  | _ => []

/-- The event delivers a list of addresses. -/
def Event.DeliversAddr : Event Peer → Prop
  | .deliver packet => packet.message.addrVec.isSome = true
  | _ => False

instance : DecidablePred fun event : Event Peer => event.DeliversAddr := by
  intro event
  cases event <;> unfold Event.DeliversAddr <;> infer_instance

end Network

theorem addrs_of_tasks (node : Node) (message : Message) :
    (message.tasks node).flatMap Task.addrs = message.addrVec.getD [] := by
  have skipped {α : Type} (items : List α) (task : α → Task)
      (other : ∀ item, (task item).addrs = []) : (items.map task).flatMap Task.addrs = [] := by
    induction items with
    | nil => rfl
    | cons item items ih => simp only [List.map_cons, List.flatMap_cons, other, ih, List.append_nil]
  cases message with
  | newAddr addrVec =>
      induction addrVec with
      | nil => rfl
      | cons addr addrVec ih =>
          simp only [Message.tasks, Message.addrVec, Option.getD_some, List.map_cons,
            List.flatMap_cons] at ih ⊢
          rw [ih]
          rfl
  | ico _ _ => rfl
  | newTransactionHashes _ | getTransactions _ | transactions _ | newTransactionBlockHashes _
  | getTransactionBlocks _ | transactionBlocks _ | newProposerBlockHashes _ | getProposerBlocks _
  | proposerBlocks _ => exact skipped _ _ fun _ => rfl

section Events

variable {Peer : Type*} {graph : Graph Peer} {before after network : Network Peer}
variable {event : Network.Event Peer} {outcome : Outcome}

theorem MinerSends.learns {node after : Node} {sent : List Outgoing}
    (sends : MinerSends crypto node after sent) (same : after.allAddr = node.allAddr) :
    Learns node after sent [] [] := by
  refine ⟨.nothing same fun addrVec => ?_, by simp, by simp, fun nodup => same ▸ nodup⟩
  cases sends <;> simp

theorem Mined.allAddr {node after : Node} {hashed : Option Header}
    (mined : Mined crypto node hashed after) : after.allAddr = node.allAddr := by
  cases mined with
  | nothing => rfl
  | proposer _ _ _ _ _ _ _ _ _ _ accepts => exact accepts.allAddr
  | transaction _ _ _ _ _ _ _ _ _ _ => rfl

/-- In every event the acting peer learns the addresses it is shown. -/
theorem learns_of_performed (performed : Performed crypto network event outcome)
    (completed : outcome.panic = none)
    (fresh : ∀ addr ∈ event.generated crypto, addr ∉ (network.nodes event.actor).allAddr) :
    ∃ added, Learns (network.nodes event.actor) outcome.node outcome.sent
      (event.offered crypto) added := by
  cases performed with
  | deliver packet _ _ served =>
      subst served
      obtain ⟨added, learns⟩ := learns_of_runTasks _ _ completed
      rw [addrs_of_tasks] at learns
      exact ⟨added, learns⟩
  | mine peer choice progress possible ran =>
      exact ⟨[], (sends_of_minerLoop ran).learns (mined_of_minerLoop possible ran).allAddr⟩
  | mineAttacker peer choice progress ran =>
      exact ⟨[], (sends_of_minerLoopAttacker ran).learns (mined_of_minerLoopAttacker ran).allAddr⟩
  | generateAddress peer key =>
      have absent := fresh (addressOf crypto (crypto.publicKey key)) (List.mem_singleton.mpr rfl)
      refine ⟨[addressOf crypto (crypto.publicKey key)], ⟨rfl, rfl, ?_, ?_, ?_⟩, ?_, ?_, ?_⟩
      · intro addr member
        exact ⟨_, List.mem_singleton.mpr rfl, List.mem_append_right _ member⟩
      · intro addrVec member addr within
        rw [mem_addrBroadcasts, generateAddress, List.mem_singleton] at member
        cases member
        exact within
      · simp [generateAddress]
      · exact fun addr member => List.mem_append_right _ member
      · exact fun addr member => member
      · intro nodup
        apply List.nodup_append_comm.mp
        exact List.nodup_cons.mpr ⟨absent, nodup⟩
  | generate peer draws =>
      have sameAddr : (generatorLoop crypto (network.nodes peer) draws).node.allAddr =
          (network.nodes peer).allAddr := by
        rcases @generated_of_round crypto (network.nodes peer) draws with
          same | ⟨_, -, generated⟩
        · rw [same]
        · rw [generated.onlyPool]
      refine ⟨[], .nothing sameAddr fun addrVec => ⟨fun sent => ?_, fun sent => ?_⟩, ?_, ?_, ?_⟩
      · obtain ⟨_, impossible⟩ := sends_of_generatorLoop sent
        cases impossible
      · obtain ⟨_, impossible⟩ := sends_of_generatorLoop sent
        cases impossible
      · exact fun addr impossible => absurd impossible List.not_mem_nil
      · exact fun addr impossible => absurd impossible List.not_mem_nil
      · exact fun nodup => sameAddr ▸ nodup
  | ico peer =>
      refine ⟨[], .nothing rfl fun addrVec => ?_, ?_, ?_, id⟩
      · simp [handleIcoSignal]
      · exact fun addr impossible => absurd impossible List.not_mem_nil
      · exact fun addr impossible => absurd impossible List.not_mem_nil

end Events

/-! ## The whole network -/

/-- A list on the way to the peer has the address. -/
def Network.AddrUnderWay {Peer : Type*} (network : Network Peer) (dest : Peer) (addr : H160) :
    Prop :=
  ∃ packet ∈ network.packets, packet.dest = dest ∧
    ∃ addrVec ∈ packet.message.addrVec, addr ∈ addrVec

/-- Only generated addresses are known or under way, none is known twice, and what
a node knows its neighbours know or are about to be told. -/
structure AddrGossip {Peer : Type*} (graph : Graph Peer) (generated : List H160)
    (network : Network Peer) : Prop where
  nodup : ∀ peer, (network.nodes peer).allAddr.Nodup
  known : ∀ peer, ∀ addr ∈ (network.nodes peer).allAddr, addr ∈ generated
  underWay : ∀ packet ∈ network.packets, ∀ addrVec ∈ packet.message.addrVec,
    ∀ addr ∈ addrVec, addr ∈ generated
  edge : ∀ first second, second ∈ graph.peers first →
    ∀ addr ∈ (network.nodes first).allAddr,
      addr ∈ (network.nodes second).allAddr ∨ network.AddrUnderWay second addr

section Gossip

variable {Peer : Type*} {graph : Graph Peer}
variable {before after : Network Peer} {event : Network.Event Peer} {outcome : Outcome}

theorem routed_addrVec {packet : Packet Peer} {addrVec : List H160}
    (unanswered : ∀ addrVec, .write (.newAddr addrVec) ∉ outcome.sent)
    (routed : packet ∈ outcome.sent.flatMap (Network.route graph event))
    (carries : addrVec ∈ packet.message.addrVec) : addrVec ∈ addrBroadcasts outcome.sent := by
  obtain ⟨outgoing, sent, routed⟩ := List.mem_flatMap.mp routed
  obtain ⟨source, dest, message⟩ := packet
  cases message <;> cases carries
  obtain ⟨-, ⟨rfl, -⟩ | ⟨rfl, -⟩⟩ := Network.mem_route.mp routed
  · exact mem_addrBroadcasts.mpr sent
  · exact absurd sent (unanswered _)

theorem AddrGossip.offered {generated : List H160} (gossip : AddrGossip graph generated before)
    (performed : Performed crypto before event outcome) :
    ∀ addr ∈ event.offered crypto, addr ∈ generated ++ event.generated crypto := by
  intro addr offered
  cases performed with
  | deliver packet underWay _ _ =>
      apply List.mem_append_left
      cases carried : packet.message.addrVec with
      | none => simp [Network.Event.offered, carried] at offered
      | some addrVec =>
          simp only [Network.Event.offered, carried, Option.getD_some] at offered
          exact gossip.underWay packet underWay addrVec carried addr offered
  | generateAddress peer key => exact List.mem_append_right _ offered
  | mine _ _ _ _ _ | mineAttacker _ _ _ _ | generate _ _ | ico _ => cases offered

/-- When no address is under way, neighbours know the same addresses. -/
theorem AddrGossip.agree {generated : List H160} (gossip : AddrGossip graph generated before)
    (quiet : ∀ packet ∈ before.packets, packet.message.addrVec = none)
    {first second : Peer} (connected : second ∈ graph.peers first) (addr : H160) :
    addr ∈ (before.nodes first).allAddr ↔ addr ∈ (before.nodes second).allAddr := by
  have oneWay : ∀ first second, second ∈ graph.peers first →
      addr ∈ (before.nodes first).allAddr → addr ∈ (before.nodes second).allAddr := by
    intro first second connected known
    rcases gossip.edge first second connected addr known with there | ⟨packet, underWay, -,
      addrVec, carries, -⟩
    · exact there
    · rw [quiet packet underWay] at carries
      cases carries
  exact ⟨oneWay first second connected,
    oneWay second first (graph.symmetric first second connected)⟩

variable (graph event) in
/-- Every broadcast list makes a packet for each connected peer. -/
theorem count_routed (unanswered : ∀ addrVec, .write (.newAddr addrVec) ∉ outcome.sent) :
    (outcome.sent.flatMap (Network.route graph event)).countP
        (fun packet => packet.message.addrVec.isSome) =
      (addrBroadcasts outcome.sent).length * (graph.peers event.actor).length := by
  generalize outcome.sent = sent at unanswered ⊢
  induction sent with
  | nil => simp [addrBroadcasts]
  | cons outgoing sent ih =>
      have rest := ih fun addrVec member => unanswered addrVec (List.mem_cons_of_mem _ member)
      rw [List.flatMap_cons, List.countP_append, rest, ← List.singleton_append (l := sent),
        addrBroadcasts_append, List.length_append, Nat.add_mul]
      congr 1
      cases outgoing with
      | write message =>
          have other : message.addrVec = none := by
            cases message <;> first | rfl | exact absurd List.mem_cons_self (unanswered _)
          simp [Network.route, addrBroadcasts, List.countP_map, other]
      | broadcast message =>
          cases carries : message.addrVec with
          | none => simp [Network.route, addrBroadcasts, List.countP_map, carries]
          | some addrVec =>
              simp [Network.route, addrBroadcasts, List.countP_map, carries, Function.comp_def]

variable [DecidableEq Peer]

theorem AddrGossip.step {generated : List H160} (gossip : AddrGossip graph generated before)
    (fresh : ∀ addr ∈ event.generated crypto, addr ∉ generated)
    (stepped : before.step crypto graph event = some after) :
    AddrGossip graph (generated ++ event.generated crypto) after := by
  obtain ⟨outcome, performs, completed, -, nodes, packets⟩ := Network.step_cases stepped
  have performed := performed_of_perform performs completed
  obtain ⟨added, learns⟩ := learns_of_performed performed completed
    fun addr member known => fresh addr member (gossip.known _ addr known)
  have origin : ∀ addr ∈ added, addr ∈ generated ++ event.generated crypto :=
    fun addr member => gossip.offered performed addr (learns.origin addr member)
  have actor : after.nodes event.actor = outcome.node := by
    rw [nodes, Function.update_self]
  have others : ∀ peer, peer ≠ event.actor → after.nodes peer = before.nodes peer := by
    intro peer other
    rw [nodes, Function.update_of_ne other]
  have keeps : ∀ peer, ∀ addr ∈ (before.nodes peer).allAddr,
      addr ∈ (after.nodes peer).allAddr := by
    intro peer addr member
    by_cases own : peer = event.actor
    · subst own
      rw [actor]
      exact learns.mem.mpr (.inl member)
    · rwa [others peer own]
  refine ⟨fun peer => ?_, fun peer addr member => ?_, fun packet member addrVec carries addr
    within => ?_, fun first second connected addr member => ?_⟩
  · by_cases own : peer = event.actor
    · subst own
      rw [actor]
      exact learns.nodup (gossip.nodup _)
    · rw [others peer own]
      exact gossip.nodup peer
  · by_cases own : peer = event.actor
    · subst own
      rw [actor] at member
      rcases learns.mem.mp member with old | new
      · exact List.mem_append_left _ (gossip.known _ addr old)
      · exact origin addr new
    · rw [others peer own] at member
      exact List.mem_append_left _ (gossip.known peer addr member)
  · rw [packets] at member
    rcases List.mem_append.mp member with old | routed
    · exact List.mem_append_left _
        (gossip.underWay packet (Network.mem_of_mem_remaining old) addrVec carries addr within)
    · have broadcast := routed_addrVec learns.unanswered routed carries
      rcases learns.mem.mp (learns.sound addrVec broadcast addr within) with old | new
      · exact List.mem_append_left _ (gossip.known _ addr old)
      · exact origin addr new
  · by_cases known : addr ∈ (before.nodes first).allAddr
    · rcases gossip.edge first second connected addr known with there | ⟨packet, underWay, dest,
        addrVec, carries, within⟩
      · exact .inl (keeps second addr there)
      · rcases Network.mem_remaining event underWay with stays | rfl
        · exact .inr ⟨packet, packets ▸ List.mem_append_left _ stays, dest, addrVec, carries,
            within⟩
        · -- the list that has the address is delivered
          left
          subst dest
          change addr ∈ (after.nodes (Network.Event.deliver packet).actor).allAddr
          rw [actor]
          apply learns.learned
          rw [Option.mem_def] at carries
          simpa [Network.Event.offered, carries] using within
    · -- the address is new to the acting peer, which broadcasts it
      have own : first = event.actor := by
        by_contra other
        rw [others first other] at member
        exact known member
      subst own
      rw [actor] at member
      have new := (learns.mem.mp member).resolve_left known
      obtain ⟨addrVec, broadcast, within⟩ := learns.covers addr new
      right
      refine ⟨⟨event.actor, second, .newAddr addrVec⟩, ?_, rfl, addrVec, rfl, within⟩
      rw [packets]
      apply List.mem_append_right
      exact List.mem_flatMap.mpr ⟨_, mem_addrBroadcasts.mp broadcast,
        Network.mem_route.mpr ⟨rfl, .inl ⟨rfl, connected⟩⟩⟩

/-! ## Counting messages -/

/-- The number of address lists under way. -/
def Network.addrPackets (network : Network Peer) : Nat :=
  network.packets.countP fun packet => packet.message.addrVec.isSome

theorem addrPackets_step (stepped : before.step crypto graph event = some after)
    (unanswered : ∀ addrVec, .write (.newAddr addrVec) ∉ before.sent crypto event) :
    after.addrPackets + (if event.DeliversAddr then 1 else 0) = before.addrPackets +
      (addrBroadcasts (before.sent crypto event)).length * (graph.peers event.actor).length := by
  obtain ⟨outcome, performs, completed, sent, -, packets⟩ := Network.step_cases stepped
  rw [sent] at unanswered ⊢
  have routed := count_routed graph event unanswered
  have left : (before.remaining event).countP (fun packet => packet.message.addrVec.isSome) +
      (if event.DeliversAddr then 1 else 0) = before.addrPackets := by
    cases performed_of_perform performs completed with
    | deliver packet underWay _ _ =>
        have positive : packet.message.addrVec.isSome = true → 0 < before.addrPackets :=
          fun carries => List.countP_pos_iff.mpr ⟨packet, underWay, carries⟩
        rw [Network.remaining, List.countP_erase]
        change _ + (if packet.message.addrVec.isSome = true then 1 else 0) = _
        by_cases carries : packet.message.addrVec.isSome = true
        · have some := positive carries
          rw [if_pos ⟨underWay, carries⟩, if_pos carries]
          exact Nat.sub_add_cancel some
        · rw [if_neg fun both => carries both.2, if_neg carries]
          rfl
    | mine _ _ _ _ _ | mineAttacker _ _ _ _ | generateAddress _ _ | generate _ _ | ico _ =>
        simp [Network.remaining, Network.addrPackets, Network.Event.DeliversAddr]
  rw [Network.addrPackets, packets, List.countP_append, routed]
  omega

end Gossip

/-! ## Runs -/

/-- The program has started everywhere: the connections are made, no address has
been generated and no message is under way. -/
def Network.Initial {Peer : Type*} (crypto : Crypto) (network : Network Peer) : Prop :=
  (∀ peer, network.nodes peer = Node.initial crypto [] ∅) ∧ network.packets = []

section Runs

variable {Peer : Type*} [DecidableEq Peer] {graph : Graph Peer}

/-- The addresses generated in the first steps of a run. -/
def generatedAddrs (run : Run (Network.step crypto graph) (Network.Initial crypto))
    (index : Nat) : List H160 :=
  (List.range index).flatMap fun earlier => (run.actions earlier).generated crypto

/-- The number of lists of addresses that a peer broadcasts in the first steps. -/
def addrSent (run : Run (Network.step crypto graph) (Network.Initial crypto)) (peer : Peer)
    (index : Nat) : Nat :=
  ((List.range index).map fun earlier =>
    if (run.actions earlier).actor = peer then
      (addrBroadcasts ((run.states earlier).sent crypto (run.actions earlier))).length
    else
      0).sum

/-- The number of lists of addresses that are delivered in the first steps. -/
def addrDeliveries (run : Run (Network.step crypto graph) (Network.Initial crypto))
    (index : Nat) : Nat :=
  (List.range index).countP fun earlier => (run.actions earlier).DeliversAddr

variable {run : Run (Network.step crypto graph) (Network.Initial crypto)}

theorem generatedAddrs_succ (index : Nat) :
    generatedAddrs run (index + 1) =
      generatedAddrs run index ++ (run.actions index).generated crypto := by
  simp [generatedAddrs, List.range_succ]

theorem nodup_generatedAddrs (distinct : (generatedAddrs run run.length).Nodup) {index : Nat}
    (bound : index ≤ run.length) : (generatedAddrs run index).Nodup := by
  induction bound using Nat.decreasingInduction with
  | self => exact distinct
  | of_succ index bound ih =>
      rw [generatedAddrs_succ] at ih
      exact (List.nodup_append.mp ih).1

theorem addrGossip_of_run (distinct : (generatedAddrs run run.length).Nodup) :
    ∀ index ≤ run.length, AddrGossip graph (generatedAddrs run index) (run.states index) := by
  intro index bound
  induction index with
  | zero =>
      obtain ⟨nodes, packets⟩ := run.starts
      have nothing : ∀ peer, ((run.states 0).nodes peer).allAddr = [] := by
        intro peer
        rw [nodes]
        rfl
      constructor
      · simp [nothing]
      · simp [nothing]
      · simp [packets]
      · simp [nothing]
  | succ index ih =>
      have nodup := nodup_generatedAddrs distinct bound
      rw [generatedAddrs_succ] at nodup ⊢
      refine (ih (by omega)).step (fun addr new old => ?_) (run.steps index (by omega))
      exact (List.nodup_append.mp nodup).2.2 addr old addr new rfl

theorem learns_of_step (distinct : (generatedAddrs run run.length).Nodup) {index : Nat}
    (bound : index < run.length) :
    ∃ after added, Learns ((run.states index).nodes (run.actions index).actor) after
        ((run.states index).sent crypto (run.actions index))
        ((run.actions index).offered crypto) added ∧
      (run.states (index + 1)).nodes =
        Function.update (run.states index).nodes (run.actions index).actor after := by
  have gossip := addrGossip_of_run distinct index (by omega)
  have nodup := nodup_generatedAddrs distinct (Nat.succ_le_of_lt bound)
  rw [Nat.succ_eq_add_one, generatedAddrs_succ] at nodup
  obtain ⟨outcome, performs, completed, sent, nodes, -⟩ :=
    Network.step_cases (run.steps index bound)
  obtain ⟨added, learns⟩ := learns_of_performed (performed_of_perform performs completed)
    completed fun addr new known =>
      (List.nodup_append.mp nodup).2.2 addr (gossip.known _ addr known) addr new rfl
  exact ⟨outcome.node, added, sent ▸ learns, nodes⟩

theorem addrSent_eq (distinct : (generatedAddrs run run.length).Nodup) (peer : Peer) :
    ∀ index ≤ run.length,
      addrSent run peer index = ((run.states index).nodes peer).allAddr.length := by
  intro index bound
  induction index with
  | zero =>
      rw [run.starts.1]
      rfl
  | succ index ih =>
      obtain ⟨after, added, learns, nodes⟩ := learns_of_step distinct (Nat.lt_of_succ_le bound)
      have sent : addrSent run peer (index + 1) = addrSent run peer index +
          if (run.actions index).actor = peer then added.length else 0 := by
        simp [addrSent, List.range_succ, learns.count]
      rw [sent, ih (by omega), nodes]
      by_cases own : (run.actions index).actor = peer
      · subst own
        rw [Function.update_self, learns.allAddr, List.length_append, if_pos rfl]
      · rw [Function.update_of_ne (Ne.symm own), if_neg own, Nat.add_zero]

/-- Every list that was put on the way has been delivered or is still under way. -/
theorem addrDeliveries_eq [Fintype Peer] (distinct : (generatedAddrs run run.length).Nodup) :
    ∀ index ≤ run.length,
      addrDeliveries run index + (run.states index).addrPackets =
        ∑ peer, ((run.states index).nodes peer).allAddr.length * (graph.peers peer).length := by
  intro index bound
  induction index with
  | zero =>
      obtain ⟨nodes, packets⟩ := run.starts
      simp [addrDeliveries, Network.addrPackets, packets, nodes, Node.initial]
  | succ index ih =>
      obtain ⟨after, added, learns, nodes⟩ := learns_of_step distinct (Nat.lt_of_succ_le bound)
      have packets := addrPackets_step (run.steps index bound) learns.unanswered
      have delivered : addrDeliveries run (index + 1) = addrDeliveries run index +
          if (run.actions index).DeliversAddr then 1 else 0 := by
        simp [addrDeliveries, List.range_succ, List.countP_singleton]
      have total : ∑ peer, ((run.states (index + 1)).nodes peer).allAddr.length *
            (graph.peers peer).length =
          ∑ peer, ((run.states index).nodes peer).allAddr.length * (graph.peers peer).length +
            added.length * (graph.peers (run.actions index).actor).length := by
        have split (peer : Peer) : ((run.states (index + 1)).nodes peer).allAddr.length *
              (graph.peers peer).length =
            ((run.states index).nodes peer).allAddr.length * (graph.peers peer).length +
              if peer = (run.actions index).actor then
                added.length * (graph.peers (run.actions index).actor).length
              else
                0 := by
          rw [nodes]
          by_cases own : peer = (run.actions index).actor
          · subst own
            rw [Function.update_self, learns.allAddr, List.length_append, if_pos rfl, Nat.add_mul]
          · rw [Function.update_of_ne own, if_neg own, Nat.add_zero]
        rw [Finset.sum_congr rfl fun peer _ => split peer, Finset.sum_add_distrib,
          Finset.sum_ite_eq' Finset.univ, if_pos (Finset.mem_univ _)]
      have earlier := ih (by omega)
      rw [learns.count] at packets
      rw [delivered, total]
      omega

/-- Whenever no address is under way, neighbours know the same addresses.  Every
node broadcasts at most one list for each distinct address that it knows, and so
at most one list for each generated address goes over each connection. -/
theorem addresses_agree_of_run [Fintype Peer]
    (run : Run (Network.step crypto graph) (Network.Initial crypto))
    (distinct : (generatedAddrs run run.length).Nodup) :
    ∀ index ≤ run.length,
      ((∀ packet ∈ (run.states index).packets, packet.message.addrVec = none) →
        ∀ first second, second ∈ graph.peers first → ∀ addr,
          addr ∈ ((run.states index).nodes first).allAddr ↔
            addr ∈ ((run.states index).nodes second).allAddr) ∧
      (∀ peer, addrSent run peer index ≤
        ((run.states index).nodes peer).allAddr.toFinset.card) ∧
      addrDeliveries run index ≤
        (generatedAddrs run index).length * ∑ peer, (graph.peers peer).length := by
  intro index bound
  have gossip := addrGossip_of_run distinct index bound
  refine ⟨fun quiet first second connected addr => gossip.agree quiet connected addr,
    fun peer => ?_, ?_⟩
  · rw [addrSent_eq distinct peer index bound, List.toFinset_card_of_nodup (gossip.nodup peer)]
  · calc addrDeliveries run index
        ≤ ∑ peer, ((run.states index).nodes peer).allAddr.length * (graph.peers peer).length := by
          have := addrDeliveries_eq distinct index bound
          omega
      _ ≤ ∑ peer, (generatedAddrs run index).length * (graph.peers peer).length := by
          apply Finset.sum_le_sum
          intro peer _
          apply Nat.mul_le_mul_right
          exact (List.subperm_of_subset (gossip.nodup peer) (gossip.known peer)).length_le
      _ = (generatedAddrs run index).length * ∑ peer, (graph.peers peer).length :=
          (Finset.mul_sum _ _ _).symm

end Runs

/-- Both ends generate an address at the same time. -/
def addressRun : Run (Network.step Crypto.sample Graph.row) (Network.Initial Crypto.sample) :=
  let first := addressOf Crypto.sample [65]
  let second := addressOf Crypto.sample [66]
  let tell (source dest : Place) (addrVec : List H160) : Network.Event Place :=
    .deliver ⟨source, dest, .newAddr addrVec⟩
  Run.ofActions ⟨fun _ => Node.initial Crypto.sample [] ∅, []⟩ ⟨fun _ => rfl, rfl⟩
    [.generateAddress .left ⟨[65]⟩, .generateAddress .right ⟨[66]⟩, tell .left .middle [first],
      tell .right .middle [second], tell .middle .right [first], tell .middle .left [first],
      tell .middle .left [first, second], tell .middle .right [first, second],
      tell .right .middle [second, first], tell .left .middle [first, second]]
    (by decide +kernel)

theorem addresses_agree_addressRun :
    (∀ addr, addr ∈ ((addressRun.states 10).nodes .left).allAddr ↔
        addr ∈ ((addressRun.states 10).nodes .middle).allAddr) ∧
      addrDeliveries addressRun 10 ≤
        (generatedAddrs addressRun 10).length * ∑ peer, (Graph.row.peers peer).length ∧
      addrDeliveries addressRun 10 = 8 := by
  have distinct : (generatedAddrs addressRun addressRun.length).Nodup := by decide +kernel
  have holds := addresses_agree_of_run addressRun distinct 10 (by decide)
  have quiet : ∀ packet ∈ (addressRun.states 10).packets, packet.message.addrVec = none := by
    decide +kernel
  exact ⟨holds.1 quiet .left .middle (by decide), holds.2.2, by decide +kernel⟩

end SimplifiedPrism
