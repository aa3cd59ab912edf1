import Mathlib.Tactic.Ring
import SimplifiedPrism.Peer
import SimplifiedPrism.Provenance
import SimplifiedPrism.Simulation

/-!
# The network on its connections

Between two nodes stands a connection that carries bytes in pieces of any size.  A
message is serialized into the write queue of a peer, a broadcast first waits for the
event loop of the server, and what has been read from a connection waits in a channel
for a worker.  As long as no connection breaks, nodes that are connected so do what
the nodes of a network do whose messages are delivered one at a time and in any order.
-/

namespace SimplifiedPrism

/-! ## One connection -/

section Link

variable {conn after : Connection} {remaining : List (List UInt8)}

theorem WriteContext.pass_connected {ctx passed : WriteContext} {answer : SocketAnswer}
    {result : Pass} {accepted : List UInt8}
    (passes : ctx.pass answer = some (result, passed, accepted)) :
    passed.queue.connected = ctx.queue.connected := by
  have sliced (target : List UInt8) :
      (ctx.writeSlice answer target).2.1.queue = ctx.queue := by
    unfold WriteContext.writeSlice
    split
    · rfl
    · dsimp only
      split <;> rfl
  unfold WriteContext.pass at passes
  split at passes
  · split at passes
    · cases passes
      rfl
    · obtain ⟨target, -, same⟩ := Option.map_eq_some_iff.mp passes
      rw [← sliced target, same]
  · split at passes
    · split at passes
      · cases passes
        rfl
      · split at passes
        · split at passes <;> cases passes <;> rfl
        · cases passes
          rfl
    · obtain ⟨target, -, same⟩ := Option.map_eq_some_iff.mp passes
      rw [← sliced target, same]

theorem WriteContext.write_connected {ctx written : WriteContext} {answers : List SocketAnswer}
    {result : Option (Except IoError WriteResult)} {accepted : List UInt8}
    (writes : ctx.write answers = some (result, written, accepted)) :
    written.queue.connected = ctx.queue.connected := by
  induction answers generalizing ctx result accepted with
  | nil =>
      cases writes
      rfl
  | cons answer answers ih =>
      unfold WriteContext.write at writes
      obtain ⟨⟨pass, passed, first⟩, passes, writes⟩ := Option.bind_eq_some_iff.mp writes
      cases pass with
      | «return» _ =>
          cases writes
          exact WriteContext.pass_connected passes
      | «continue» =>
          obtain ⟨⟨later, last, more⟩, rest, same⟩ := Option.map_eq_some_iff.mp writes
          cases same
          exact (ih rest).trans (WriteContext.pass_connected passes)

theorem Connection.InTransit.enqueue (transit : conn.InTransit remaining)
    (connected : conn.writer.queue.connected = true) {msg : List UInt8} (carried : Carried msg) :
    ∃ after, conn.step (.enqueue msg) = some after ∧ after.writer.queue.connected = true ∧
      after.InTransit (remaining ++ [msg]) := by
  have carries : conn.Carries (.enqueue msg) := carried
  have stepped : conn.step (.enqueue msg) = some _ := if_pos connected
  refine ⟨_, stepped, connected, ?_⟩
  obtain ⟨later, next⟩ := transit.step carries stepped
  have order : conn.queued ++ [msg] = conn.yielded ++ later := next.order
  rw [transit.order, List.append_assoc, List.append_right_inj] at order
  rwa [order]

theorem Connection.InTransit.flush (transit : conn.InTransit remaining)
    {answers : List SocketAnswer} (stepped : conn.step (.write answers) = some after) :
    after.writer.queue.connected = conn.writer.queue.connected ∧ after.InTransit remaining := by
  have carries : conn.Carries (.write answers) := trivial
  obtain ⟨later, next⟩ := transit.step carries stepped
  obtain ⟨⟨result, written, accepted⟩, writes, rfl⟩ := Option.map_eq_some_iff.mp stepped
  have order : conn.queued = conn.yielded ++ later := next.order
  rw [transit.order, List.append_right_inj] at order
  exact ⟨WriteContext.write_connected writes, order ▸ next⟩

/-- What a call of `read` yields were the first messages under way. -/
theorem Connection.InTransit.receive (transit : conn.InTransit remaining) {answer : SocketAnswer}
    (stepped : conn.step (.read answer) = some after) :
    after.writer = conn.writer ∧ ∃ later, after.InTransit later ∧
      remaining = after.yielded.drop conn.yielded.length ++ later := by
  have carries : conn.Carries (.read answer) := trivial
  obtain ⟨later, next⟩ := transit.step carries stepped
  obtain ⟨⟨result, reader, stream⟩, reads, rfl⟩ := Option.map_eq_some_iff.mp stepped
  have order : conn.queued = (conn.yielded ++ messagesOf result) ++ later := next.order
  rw [transit.order, List.append_assoc, List.append_right_inj] at order
  refine ⟨rfl, later, next, ?_⟩
  rw [order, List.drop_left]

end Link

/-- How messages become bytes, and bytes messages. -/
structure Codec where
  serialize : Message → List UInt8
  deserialize : List UInt8 → Option Message

/-- The bytes of a message can be framed, and lead back to it. -/
structure Codec.Carries (codec : Codec) (message : Message) : Prop where
  carried : Carried (codec.serialize message)
  back : codec.deserialize (codec.serialize message) = some message

instance (payload : List UInt8) : Decidable (Carried payload) :=
  inferInstanceAs (Decidable (_ ∧ _))

instance (codec : Codec) (message : Message) : Decidable (codec.Carries message) :=
  decidable_of_iff (Carried (codec.serialize message) ∧
      codec.deserialize (codec.serialize message) = some message)
    ⟨fun carries => ⟨carries.1, carries.2⟩, fun carries => ⟨carries.carried, carries.back⟩⟩

/-- Nodes, the requests of broadcasts that their event loops have not processed, a
connection in either direction between two nodes, and the channels to the workers. -/
structure Wired (Peer : Type*) where
  nodes : Peer → Node
  control : Peer → List Message
  links : Peer × Peer → Connection
  msgChan : Peer → List (List UInt8 × Peer)

/-- A worker takes a message from the channel, a thread of a node does something of its
own, the event loop processes a broadcast, and writes to or reads from a connection. -/
inductive Wired.Event (Peer : Type*)
  | work (peer : Peer)
  | own (event : Network.Event Peer)
  | control (peer : Peer)
  | flush (source dest : Peer) (answers : List SocketAnswer)
  | receive (source dest : Peer) (answer : SocketAnswer)

namespace Wired

variable {Peer : Type*}

/-- Nothing has happened yet. -/
def Initial (crypto : Crypto) (wired : Wired Peer) : Prop :=
  (∃ network : Network Peer, network.Initial crypto ∧ network.nodes = wired.nodes) ∧
    (∀ peer, wired.control peer = []) ∧ (∀ ends, wired.links ends = .new) ∧
    ∀ peer, wired.msgChan peer = []

variable [DecidableEq Peer]

/-- `peer::Handle::write`; a message for a closed queue is dropped with a warning. -/
def write (codec : Codec) (source dest : Peer) (wired : Wired Peer) (msg : Message) : Wired Peer :=
  let conn := wired.links (source, dest)
  { wired with
    links := Function.update wired.links (source, dest)
      ((conn.step (.enqueue (codec.serialize msg))).getD conn) }

def writeAll (codec : Codec) (source : Peer) (dests : List Peer) (msg : Message)
    (wired : Wired Peer) : Wired Peer :=
  dests.foldl (fun wired dest => wired.write codec source dest msg) wired

/-- `server::Handle::broadcast`. -/
def broadcast (source : Peer) (wired : Wired Peer) (msg : Message) : Wired Peer :=
  { wired with control := Function.update wired.control source (wired.control source ++ [msg]) }

def send (codec : Codec) (source : Peer) (replyTo : Option Peer) (wired : Wired Peer) :
    Outgoing → Wired Peer
  | .broadcast message => wired.broadcast source message
  | .write message => replyTo.elim wired fun dest => wired.write codec source dest message

/-- The channel without its first message. -/
def take (peer : Peer) (wired : Wired Peer) : Wired Peer :=
  { wired with msgChan := Function.update wired.msgChan peer (wired.msgChan peer).tail }

/-- What a thread leaves behind that does not panic. -/
def commit (codec : Codec) (source : Peer) (replyTo : Option Peer) (wired : Wired Peer)
    (outcome : Outcome) : Option (Wired Peer) :=
  if outcome.panic = none then
    some (outcome.sent.foldl (send codec source replyTo)
      { wired with nodes := Function.update wired.nodes source outcome.node })
  else
    none

variable (codec : Codec) (crypto : Crypto) (graph : Graph Peer)

/-- What a worker or another thread does. -/
def perform (wired : Wired Peer) : Event Peer → Option Outcome
  | .work peer =>
      (wired.msgChan peer).head?.bind fun received =>
        (codec.deserialize received.1).map (workerLoop crypto (wired.nodes peer))
  | .own event => Network.perform crypto ⟨wired.nodes, []⟩ event
  | .control _ | .flush _ _ _ | .receive _ _ _ => none

/-- The step function, for threads that do not panic and connections that do not break. -/
def step (wired : Wired Peer) (event : Event Peer) : Option (Wired Peer) :=
  match event with
  | .work peer =>
      (wired.msgChan peer).head?.bind fun received =>
        (wired.perform codec crypto event).bind
          ((wired.take peer).commit codec peer (some received.2))
  | .own own => (wired.perform codec crypto event).bind (wired.commit codec own.actor none)
  | .control peer =>
      (wired.control peer).head?.map fun msg =>
        { wired with
          control := Function.update wired.control peer (wired.control peer).tail }.writeAll codec
            peer (graph.peers peer) msg
  | .flush source dest answers =>
      ((wired.links (source, dest)).step (.write answers)).map fun conn =>
        { wired with links := Function.update wired.links (source, dest) conn }
  | .receive source dest answer =>
      let before := wired.links (source, dest)
      (before.step (.read answer)).map fun conn =>
        let messages := conn.yielded.drop before.yielded.length
        { wired with
          links := Function.update wired.links (source, dest) conn
          msgChan := Function.update wired.msgChan dest
            (wired.msgChan dest ++ messages.map fun bytes => (bytes, source)) }

/-- What the threads of a node send can be carried. -/
def Carries (wired : Wired Peer) (event : Event Peer) : Prop :=
  ∀ outcome ∈ wired.perform codec crypto event, ∀ outgoing ∈ outcome.sent,
    codec.Carries outgoing.message

instance (codec : Codec) (crypto : Crypto) (wired : Wired Peer) (event : Event Peer) :
    Decidable (wired.Carries codec crypto event) :=
  inferInstanceAs (Decidable (∀ outcome ∈ wired.perform codec crypto event, _))

/-! ## What is under way -/

/-- The messages in the channels and on the connections: all bytes are those of messages
that can be carried. -/
structure Contents (wired : Wired Peer) (inbox : Peer → List (Message × Peer))
    (onLink : Peer × Peer → List Message) : Prop where
  connected : ∀ ends, (wired.links ends).writer.queue.connected = true
  links : ∀ ends, (wired.links ends).InTransit ((onLink ends).map codec.serialize)
  msgChan : ∀ peer, wired.msgChan peer =
    (inbox peer).map fun item => (codec.serialize item.1, item.2)
  control : ∀ peer, ∀ message ∈ wired.control peer, codec.Carries message
  onLink : ∀ ends, ∀ message ∈ onLink ends, codec.Carries message
  inbox : ∀ peer, ∀ item ∈ inbox peer, codec.Carries item.1

/-- How often a packet is under way. -/
def amount (wired : Wired Peer) (inbox : Peer → List (Message × Peer))
    (onLink : Peer × Peer → List Message) (packet : Packet Peer) : Nat :=
  (inbox packet.dest).count (packet.message, packet.source) +
    (onLink (packet.source, packet.dest)).count packet.message +
    (wired.control packet.source).count packet.message *
      (graph.peers packet.source).count packet.dest

/-- The nodes are those of a network, and what is under way there is under way here. -/
def Shows (wired : Wired Peer) (network : Network Peer) : Prop :=
  wired.nodes = network.nodes ∧ ∃ inbox onLink, wired.Contents codec inbox onLink ∧
    ∀ packet, network.packets.count packet = wired.amount graph inbox onLink packet

variable {codec crypto} {wired after : Wired Peer} {network : Network Peer}
variable {inbox : Peer → List (Message × Peer)} {onLink : Peer × Peer → List Message}

omit [DecidableEq Peer] in
private theorem count_cons_eq {α : Type*} [BEq α] (each first : α) (rest : List α) :
    (first :: rest).count each = [first].count each + rest.count each := by
  rw [← List.count_append, List.singleton_append]

theorem count_single (source dest : Peer) (msg : Message) (packet : Packet Peer) :
    [Packet.mk source dest msg].count packet =
      if (packet.source, packet.dest) = (source, dest) then [msg].count packet.message else 0 := by
  obtain ⟨otherSource, otherDest, message⟩ := packet
  simp only [List.count_singleton, beq_iff_eq, Packet.mk.injEq, Prod.mk.injEq]
  grind

theorem count_broadcast (source : Peer) (msg : Message) (dests : List Peer)
    (packet : Packet Peer) :
    (dests.map fun dest => Packet.mk source dest msg).count packet =
      if packet.source = source then [msg].count packet.message * dests.count packet.dest
      else 0 := by
  induction dests with
  | nil => simp
  | cons dest dests ih =>
      have first := count_single source dest msg packet
      rw [List.map_cons, count_cons_eq, ih, first, count_cons_eq packet.dest dest dests]
      by_cases fromSource : packet.source = source
      · by_cases toDest : packet.dest = dest
        · simp [fromSource, toDest, Nat.mul_add]
        · simp [fromSource, toDest, Ne.symm toDest]
      · simp [fromSource]

theorem count_arrived (messages : List Message) (source : Peer) (item : Message × Peer) :
    (messages.map fun message => (message, source)).count item =
      if item.2 = source then messages.count item.1 else 0 := by
  induction messages with
  | nil => simp
  | cons message messages ih =>
      obtain ⟨other, peer⟩ := item
      rw [List.map_cons, count_cons_eq (other, peer) (message, source), ih,
        count_cons_eq other message messages]
      by_cases same : peer = source
      · simp [same, List.count_singleton]
      · simp [same, Ne.symm same]

theorem Contents.link (contents : wired.Contents codec inbox onLink) (ends : Peer × Peer)
    {conn : Connection} {now : List Message} (connected : conn.writer.queue.connected = true)
    (transit : conn.InTransit (now.map codec.serialize))
    (carries : ∀ message ∈ now, codec.Carries message) :
    { wired with links := Function.update wired.links ends conn }.Contents codec inbox
      (Function.update onLink ends now) where
  connected := by
    intro other
    simp only [Function.update_apply]
    split
    · exact connected
    · exact contents.connected other
  links := by
    intro other
    simp only [Function.update_apply]
    split
    · exact transit
    · exact contents.links other
  msgChan := contents.msgChan
  control := contents.control
  onLink := by
    intro other
    simp only [Function.update_apply]
    split
    · exact carries
    · exact contents.onLink other
  inbox := contents.inbox

theorem Contents.write (contents : wired.Contents codec inbox onLink) (source dest : Peer)
    {msg : Message} (carries : codec.Carries msg) :
    ∃ next, (wired.write codec source dest msg).Contents codec inbox next ∧
      ∀ packet, (wired.write codec source dest msg).amount graph inbox next packet =
        wired.amount graph inbox onLink packet +
          [Packet.mk source dest msg].count packet := by
  obtain ⟨conn, stepped, connected, transit⟩ : ∃ conn,
      (wired.links (source, dest)).step (.enqueue (codec.serialize msg)) = some conn ∧
        conn.writer.queue.connected = true ∧
        conn.InTransit ((onLink (source, dest) ++ [msg]).map codec.serialize) := by
    rw [List.map_append]
    exact (contents.links _).enqueue (contents.connected _) carries.carried
  have written : wired.write codec source dest msg =
      { wired with links := Function.update wired.links (source, dest) conn } := by
    rw [Wired.write, stepped, Option.getD_some]
  rw [written]
  refine ⟨_, contents.link (source, dest) connected transit ?_, fun packet => ?_⟩
  · intro message member
    rcases List.mem_append.mp member with old | new
    · exact contents.onLink _ message old
    · rwa [List.mem_singleton.mp new]
  · rw [count_single]
    simp only [amount, Function.update_apply]
    split
    · next same =>
        rw [same, List.count_append]
        omega
    · rfl

theorem Contents.writeAll (contents : wired.Contents codec inbox onLink) (source : Peer)
    (dests : List Peer) {msg : Message} (carries : codec.Carries msg) :
    ∃ next, (wired.writeAll codec source dests msg).Contents codec inbox next ∧
      ∀ packet, (wired.writeAll codec source dests msg).amount graph inbox next packet =
        wired.amount graph inbox onLink packet +
          (dests.map fun dest => Packet.mk source dest msg).count packet := by
  induction dests generalizing wired onLink with
  | nil => exact ⟨onLink, contents, fun _ => rfl⟩
  | cons dest dests ih =>
      obtain ⟨middle, first, amounts⟩ := contents.write graph source dest carries
      obtain ⟨next, rest, more⟩ := ih first
      refine ⟨next, rest, fun packet => ?_⟩
      rw [List.map_cons, count_cons_eq, ← Nat.add_assoc, ← amounts]
      exact more packet

/-- A broadcast is handed to the event loop. -/
theorem Contents.broadcast (contents : wired.Contents codec inbox onLink) (source : Peer)
    {msg : Message} (carries : codec.Carries msg) :
    (wired.broadcast source msg).Contents codec inbox onLink ∧
      ∀ packet, (wired.broadcast source msg).amount graph inbox onLink packet =
        wired.amount graph inbox onLink packet +
          ((graph.peers source).map fun dest => Packet.mk source dest msg).count packet := by
  refine ⟨{ contents with control := fun peer message member => ?_ }, fun packet => ?_⟩
  · simp only [Wired.broadcast, Function.update_apply] at member
    split at member
    · rcases List.mem_append.mp member with old | new
      · exact contents.control source message old
      · rwa [List.mem_singleton.mp new]
    · exact contents.control peer message member
  · rw [count_broadcast]
    simp only [amount, Wired.broadcast, Function.update_apply]
    split
    · next same =>
        rw [same, List.count_append]
        ring
    · rfl

/-- What a thread sends makes the packets that it makes in a network. -/
theorem Contents.send (contents : wired.Contents codec inbox onLink)
    (event : Network.Event Peer) (sent : List Outgoing)
    (carries : ∀ outgoing ∈ sent, codec.Carries outgoing.message) :
    ∃ next, (sent.foldl (send codec event.actor event.replyTo) wired).Contents codec inbox next ∧
      ∀ packet, (sent.foldl (send codec event.actor event.replyTo) wired).amount graph inbox
          next packet =
        wired.amount graph inbox onLink packet +
          (sent.flatMap (Network.route graph event)).count packet := by
  induction sent generalizing wired onLink with
  | nil => exact ⟨onLink, contents, fun _ => rfl⟩
  | cons outgoing sent ih =>
      have carriesOne : codec.Carries outgoing.message := carries outgoing List.mem_cons_self
      obtain ⟨middle, first, amounts⟩ : ∃ middle,
          (wired.send codec event.actor event.replyTo outgoing).Contents codec inbox middle ∧
            ∀ packet, (wired.send codec event.actor event.replyTo outgoing).amount graph inbox
                middle packet =
              wired.amount graph inbox onLink packet +
                (Network.route graph event outgoing).count packet := by
        cases outgoing with
        | broadcast message => exact ⟨onLink, contents.broadcast graph event.actor carriesOne⟩
        | write message =>
            have carriesThis : codec.Carries message := carriesOne
            cases reply : event.replyTo with
            | none =>
                refine ⟨onLink, contents, fun packet => ?_⟩
                simp [Wired.send, Network.route, reply]
            | some dest =>
                have written := contents.write graph event.actor dest carriesThis
                simpa [Wired.send, Network.route, reply] using written
      obtain ⟨next, rest, more⟩ :=
        ih first fun other member => carries other (List.mem_cons_of_mem _ member)
      refine ⟨next, rest, fun packet => ?_⟩
      rw [List.foldl_cons, more, amounts, List.flatMap_cons, List.count_append]
      omega

/-- The event loop processes a broadcast: it moves from one queue into others. -/
theorem Contents.process (contents : wired.Contents codec inbox onLink) {peer : Peer}
    {msg : Message} {rest : List Message} (waiting : wired.control peer = msg :: rest) :
    ∃ next, ({ wired with control := Function.update wired.control peer rest }.writeAll codec peer
        (graph.peers peer) msg).Contents codec inbox next ∧
      ∀ packet, ({ wired with control := Function.update wired.control peer rest }.writeAll codec
          peer (graph.peers peer) msg).amount graph inbox next packet =
        wired.amount graph inbox onLink packet := by
  have carries : codec.Carries msg := contents.control peer msg (by rw [waiting]; simp)
  have popped : { wired with control := Function.update wired.control peer rest }.Contents codec
      inbox onLink := by
    refine { contents with
      control := fun other message member => contents.control other message ?_ }
    simp only [Function.update_apply] at member
    split at member
    · next same =>
        rw [same, waiting]
        exact List.mem_cons_of_mem _ member
    · exact member
  obtain ⟨next, written, amounts⟩ := popped.writeAll graph peer (graph.peers peer) carries
  refine ⟨next, written, fun packet => ?_⟩
  rw [amounts, count_broadcast]
  simp only [amount, Function.update_apply]
  split
  · next same =>
      rw [same, waiting, count_cons_eq packet.message msg rest]
      ring
  · rfl

/-- Messages come from a connection into the channel to the workers. -/
theorem Contents.receive (contents : wired.Contents codec inbox onLink) {source dest : Peer}
    {answer : SocketAnswer} {conn : Connection}
    (stepped : (wired.links (source, dest)).step (.read answer) = some conn) :
    ∃ arrived next, { wired with
        links := Function.update wired.links (source, dest) conn
        msgChan := Function.update wired.msgChan dest (wired.msgChan dest ++
          (conn.yielded.drop (wired.links (source, dest)).yielded.length).map
            fun bytes => (bytes, source)) }.Contents codec arrived next ∧
      ∀ packet, { wired with
          links := Function.update wired.links (source, dest) conn
          msgChan := Function.update wired.msgChan dest (wired.msgChan dest ++
            (conn.yielded.drop (wired.links (source, dest)).yielded.length).map
              fun bytes => (bytes, source)) }.amount graph arrived next packet =
        wired.amount graph inbox onLink packet := by
  obtain ⟨writer, later, transit, split⟩ := (contents.links (source, dest)).receive stepped
  obtain ⟨yielded, left, both, first, second⟩ := List.map_eq_append_iff.mp split
  have carried := contents.onLink (source, dest)
  rw [both] at carried
  have connected : conn.writer.queue.connected = true := by
    rw [writer]
    exact contents.connected _
  rw [← second] at transit
  have linked := contents.link (source, dest) connected transit
    fun message member => carried message (List.mem_append_right _ member)
  refine ⟨Function.update inbox dest (inbox dest ++ yielded.map fun message => (message, source)),
    _, { linked with msgChan := fun peer => ?_, inbox := fun peer item member => ?_ },
    fun packet => ?_⟩
  · simp only [Function.update_apply]
    split
    · rw [contents.msgChan dest, ← first]
      simp [Function.comp_def]
    · exact contents.msgChan peer
  · simp only [Function.update_apply] at member
    split at member
    · rcases List.mem_append.mp member with old | new
      · exact contents.inbox dest item old
      · obtain ⟨message, inside, rfl⟩ := List.mem_map.mp new
        exact carried message (List.mem_append_left _ inside)
    · exact contents.inbox peer item member
  · have total : (onLink (source, dest)).count packet.message =
        yielded.count packet.message + left.count packet.message := by
      rw [both, List.count_append]
    simp only [amount, Function.update_apply, Prod.mk.injEq]
    by_cases toDest : packet.dest = dest
    · rw [if_pos toDest, List.count_append, count_arrived]
      by_cases fromSource : packet.source = source
      · simp only [toDest, fromSource, and_self, if_true, total]
        omega
      · simp only [toDest, fromSource, and_true, if_false]
        omega
    · simp only [toDest, and_false, if_false]

/-- A worker takes a message: its bytes lead back to a message that was under way. -/
theorem Contents.take (contents : wired.Contents codec inbox onLink) {peer : Peer}
    {received : List UInt8 × Peer} (first : (wired.msgChan peer).head? = some received) :
    ∃ message rest, codec.deserialize received.1 = some message ∧
      (wired.take peer).Contents codec rest onLink ∧
      ∀ packet, wired.amount graph inbox onLink packet =
        (wired.take peer).amount graph rest onLink packet +
          [Packet.mk received.2 peer message].count packet := by
  have channel := contents.msgChan peer
  cases waiting : inbox peer with
  | nil =>
      rw [channel, waiting] at first
      cases first
  | cons item items =>
      rw [waiting] at channel
      rw [Wired.take, channel]
      rw [channel] at first
      cases first
      have carried : codec.Carries item.1 := contents.inbox peer item (by rw [waiting]; simp)
      refine ⟨item.1, Function.update inbox peer items, carried.back, ?_, fun packet => ?_⟩
      · refine { contents with msgChan := fun other => ?_, inbox := fun other each member => ?_ }
        · simp only [Function.update_apply]
          split
          · rfl
          · exact contents.msgChan other
        · simp only [Function.update_apply] at member
          split at member
          · next same =>
              apply contents.inbox other each
              rw [same, waiting]
              exact List.mem_cons_of_mem _ member
          · exact contents.inbox other each member
      · obtain ⟨message, source⟩ := item
        rw [count_single]
        simp only [amount, Function.update_apply, Prod.mk.injEq]
        by_cases toPeer : packet.dest = peer
        · rw [if_pos toPeer, toPeer, waiting, count_cons_eq (packet.message, packet.source)]
          by_cases fromSource : packet.source = source
          · simp [fromSource, List.count_singleton]
            omega
          · simp [fromSource, Ne.symm fromSource]
        · simp [toPeer]

/-! ## Simulation -/

omit [DecidableEq Peer] in
theorem Contents.nodes [DecidableEq Peer] (contents : wired.Contents codec inbox onLink)
    (nodes : Peer → Node) : { wired with nodes }.Contents codec inbox onLink :=
  { contents with }

theorem nodes_send (source : Peer) (replyTo : Option Peer) (sent : List Outgoing) :
    (sent.foldl (send codec source replyTo) wired).nodes = wired.nodes := by
  induction sent generalizing wired with
  | nil => rfl
  | cons outgoing sent ih =>
      rw [List.foldl_cons, ih]
      cases outgoing with
      | broadcast message => rfl
      | write message => cases replyTo <;> rfl

theorem nodes_writeAll (source : Peer) (dests : List Peer) (msg : Message) :
    (wired.writeAll codec source dests msg).nodes = wired.nodes := by
  induction dests generalizing wired with
  | nil => rfl
  | cons dest dests ih => exact ih

/-- What a thread does in a network it does here. -/
theorem Contents.commit (contents : wired.Contents codec inbox onLink)
    {event : Network.Event Peer} {outcome : Outcome} (nodes : wired.nodes = network.nodes)
    (performs : network.perform crypto event = some outcome)
    (remaining : ∀ packet, (network.remaining event).count packet =
      wired.amount graph inbox onLink packet)
    (carries : ∀ outgoing ∈ outcome.sent, codec.Carries outgoing.message)
    (commits : wired.commit codec event.actor event.replyTo outcome = some after) :
    ∃ final, network.step crypto graph event = some final ∧ after.Shows codec graph final := by
  simp only [Wired.commit, Option.ite_none_right_eq_some, Option.some.injEq] at commits
  obtain ⟨completed, rfl⟩ := commits
  obtain ⟨next, sent, amounts⟩ := (contents.nodes
    (Function.update wired.nodes event.actor outcome.node)).send graph event outcome.sent carries
  refine ⟨⟨Function.update network.nodes event.actor outcome.node,
    network.remaining event ++ outcome.sent.flatMap (Network.route graph event)⟩, ?_, ?_, ?_⟩
  · simp [Network.step, performs, completed]
  · rw [nodes_send, nodes]
  · refine ⟨inbox, next, sent, fun packet => ?_⟩
    rw [amounts, List.count_append, remaining]
    rfl

/-- The threads of a node do not see that the packets are elsewhere. -/
theorem perform_own {event : Network.Event Peer} {outcome : Outcome}
    (performs : Network.perform crypto ⟨network.nodes, []⟩ event = some outcome) :
    event.replyTo = none ∧ network.remaining event = network.packets ∧
      network.perform crypto event = some outcome := by
  cases event with
  | deliver packet => simp [Network.perform] at performs
  | mine _ _ | mineAttacker _ _ | generateAddress _ _ | generate _ _ | ico _ =>
      exact ⟨rfl, rfl, performs⟩

/-- Every step is answered by one event of the network, or by none. -/
theorem Shows.step (shows : wired.Shows codec graph network) {event : Event Peer}
    (carries : wired.Carries codec crypto event)
    (stepped : wired.step codec crypto graph event = some after) :
    ∃ events final, runActions (Network.step crypto graph) network events = some final ∧
      after.Shows codec graph final := by
  obtain ⟨nodes, inbox, onLink, contents, counted⟩ := shows
  cases event with
  | work peer =>
      obtain ⟨received, first, stepped⟩ := Option.bind_eq_some_iff.mp stepped
      obtain ⟨outcome, performs, commits⟩ := Option.bind_eq_some_iff.mp stepped
      obtain ⟨message, rest, decoded, taken, amounts⟩ := contents.take graph first
      have served : workerLoop crypto (network.nodes peer) message = outcome := by
        simp only [perform, first, Option.bind_some, decoded, Option.map_some,
          Option.some.injEq] at performs
        rw [← nodes, performs]
      have underWay : ⟨received.2, peer, message⟩ ∈ network.packets := by
        rw [← List.count_pos_iff, counted, amounts, List.count_singleton_self]
        omega
      have delivers : network.perform crypto (.deliver ⟨received.2, peer, message⟩) =
          some outcome := by
        rw [Network.perform, if_pos underWay, served]
      have remaining : ∀ packet, (network.packets.erase ⟨received.2, peer, message⟩).count packet =
          (wired.take peer).amount graph rest onLink packet := by
        intro packet
        rw [List.count_erase, counted, amounts, List.count_singleton]
        exact Nat.add_sub_cancel _ _
      obtain ⟨final, moved, showsFinal⟩ :=
        taken.commit graph nodes delivers remaining (carries outcome performs) commits
      exact ⟨[_], final, by rw [runActions, moved]; rfl, showsFinal⟩
  | own event =>
      obtain ⟨outcome, performs, commits⟩ := Option.bind_eq_some_iff.mp stepped
      have sent := carries outcome performs
      rw [perform, nodes] at performs
      obtain ⟨noReply, remaining, performs⟩ := perform_own performs
      rw [← noReply] at commits
      obtain ⟨final, moved, showsFinal⟩ :=
        contents.commit graph nodes performs (remaining ▸ counted) sent commits
      exact ⟨[event], final, by rw [runActions, moved]; rfl, showsFinal⟩
  | control peer =>
      obtain ⟨msg, first, rfl⟩ := Option.map_eq_some_iff.mp stepped
      obtain ⟨rest, waiting⟩ := List.head?_eq_some_iff.mp first
      obtain ⟨next, processed, amounts⟩ := contents.process graph waiting
      rw [waiting]
      exact ⟨[], network, rfl, by rw [nodes_writeAll]; exact nodes, inbox, next, processed,
        fun packet => (counted packet).trans (amounts packet).symm⟩
  | flush source dest answers =>
      obtain ⟨conn, written, rfl⟩ := Option.map_eq_some_iff.mp stepped
      obtain ⟨connected, transit⟩ := (contents.links (source, dest)).flush written
      have linked := contents.link (source, dest)
        (connected.trans (contents.connected _)) transit (contents.onLink _)
      rw [Function.update_eq_self] at linked
      exact ⟨[], network, rfl, nodes, inbox, onLink, linked, counted⟩
  | receive source dest answer =>
      obtain ⟨conn, readings, rfl⟩ := Option.map_eq_some_iff.mp stepped
      obtain ⟨arrived, next, received, amounts⟩ := contents.receive graph readings
      exact ⟨[], network, rfl, nodes, arrived, next, received,
        fun packet => (counted packet).trans (amounts packet).symm⟩

theorem Initial.shows (start : wired.Initial crypto) :
    ∃ network, Network.Initial crypto network ∧ wired.Shows codec graph network := by
  obtain ⟨⟨network, initial, nodes⟩, control, links, msgChan⟩ := start
  refine ⟨network, initial, nodes.symm, fun _ => [], fun _ => [], ?_, fun packet => ?_⟩
  · refine ⟨fun ends => ?_, fun ends => ?_, fun peer => ?_, fun peer message member => ?_,
      by simp, by simp⟩
    · rw [links]
      rfl
    · rw [links]
      have nothing : Connection.new.reader.part ++
          (Connection.new.stream ++ Connection.new.writer.outstanding) =
            messagePrefix.frames [] := by
        decide
      exact ⟨.new, .new, by simp [Connection.new], rfl, nothing⟩
    · rw [msgChan, List.map_nil]
    · rw [control] at member
      cases member
  · simp [amount, control, initial.2]

variable {graph}

/-- A network on its connections refines the network of messages: beside every run of
the one goes a run of the other, with the same nodes and with the messages that are
written, on a connection or in a channel under way. -/
theorem refines_of_run [Inhabited Peer]
    (run : Run (Wired.step codec crypto graph) (Wired.Initial crypto))
    (carries : run.Meets (Wired.Carries codec crypto)) :
    ∃ (other : Run (Network.step crypto graph) (Network.Initial crypto)) (place : Nat → Nat),
      run.Beside other (Wired.Shows codec graph) place :=
  have simulation : Simulation (Wired.step codec crypto graph) (Wired.Initial crypto)
      (Wired.Carries codec crypto) (Network.step crypto graph) (Network.Initial crypto)
      (Wired.Shows codec graph) :=
    ⟨fun _ start => start.shows graph,
      fun _ _ _ _ shows carried stepped => shows.step graph carried stepped⟩
  simulation.beside run carries

end Wired

/-! ## An address in two pieces -/

/-- Lists of addresses as `bincode` writes them: the variant, the length and the bytes. -/
def Codec.sample : Codec where
  serialize
    | .newAddr addrVec =>
        [0, 0, 0, 0, UInt8.ofNat addrVec.length, 0, 0, 0, 0, 0, 0, 0] ++
          addrVec.flatMap fun addr => addr.bytes.toList
    | _ => []
  deserialize bytes :=
    if bytes.take 4 = [0, 0, 0, 0] then
      some (.newAddr ((List.range (bytes.getD 4 0).toNat).map fun place =>
        ⟨Vector.ofFn fun index => bytes.getD (12 + 20 * place + index) 0⟩))
    else
      none

instance Wired.Event.inhabited {Peer : Type*} [Inhabited Peer] : Inhabited (Wired.Event Peer) :=
  ⟨.work default⟩

theorem initial_wired : Wired.Initial Crypto.sample
    (⟨fun _ => Node.initial Crypto.sample [] ∅, fun _ => [], fun _ => .new, fun _ => []⟩ :
      Wired Place) :=
  ⟨⟨⟨fun _ => Node.initial Crypto.sample [] ∅, []⟩, ⟨fun _ => rfl, rfl⟩, rfl⟩, fun _ => rfl,
    fun _ => rfl, fun _ => rfl⟩

/-- A node tells a peer its address; the socket takes the frame in two pieces. -/
def wiredRun : Run (Wired.step Codec.sample Crypto.sample Graph.row)
    (Wired.Initial Crypto.sample) :=
  Run.ofActions _ initial_wired
    [.own (.generateAddress .left ⟨[65]⟩), .control .left,
      .flush .left .middle [.ok 0, .ok 4, .ok 0, .ok 20, .error .wouldBlock],
      .receive .left .middle (.ok 4), .receive .left .middle (.ok 40),
      .flush .left .middle [.ok 12, .ok 0], .receive .left .middle (.ok 40), .work .middle]
    (by decide +kernel)

theorem refines_wiredRun :
    ∃ (other : Run (Network.step Crypto.sample Graph.row) (Network.Initial Crypto.sample))
      (place : Nat → Nat), wiredRun.Beside other (Wired.Shows Codec.sample Graph.row) place ∧
        ((other.states (place 8)).nodes .middle).allAddr = [addressOf Crypto.sample [65]] := by
  have carries : wiredRun.Meets (Wired.Carries Codec.sample Crypto.sample) := by
    change ∀ index < 8, _
    decide +kernel
  obtain ⟨other, place, beside⟩ := Wired.refines_of_run wiredRun carries
  refine ⟨other, place, beside, ?_⟩
  rw [← (beside.related 8 (by decide)).1]
  decide +kernel

end SimplifiedPrism
