import Mathlib.Data.List.Perm.Basic
import SimplifiedPrism.Server

/-!
# The registry of peers

Which peers are connected follows from the registrations that succeed and from the
reads and writes that end a connection.  The slab and the list of keys follow it
event by event, so that the two never part.  Of the branches of the event loop only
that of the write queues goes to a peer without a test: an event of a write queue
that comes after the end of the connection finds an empty slot.
-/

namespace SimplifiedPrism

theorem perm_swapRemove {α : Type*} {list : List α} {index : Nat} {element : α}
    (found : list[index]? = some element) : (element :: swapRemove list index).Perm list := by
  obtain ⟨bound, here⟩ := List.getElem?_eq_some_iff.mp found
  rcases List.eq_nil_or_concat' list with rfl | ⟨front, last, rfl⟩
  · cases found
  have whole : swapRemove (front ++ [last]) index =
      ((front ++ [last]).set index last).dropLast := by simp [swapRemove]
  rw [whole]
  rw [List.length_append, List.length_singleton] at bound
  rcases Nat.lt_succ_iff_lt_or_eq.mp bound with inside | atEnd
  · rw [List.getElem_append_left inside] at here
    subst here
    rw [List.set_append_left _ _ inside, List.dropLast_concat]
    calc
      (front[index] :: front.set index last).Perm
          (front[index] :: last :: front.eraseIdx index) :=
        (List.set_perm_cons_eraseIdx inside last).cons _
      _ |>.Perm (last :: front[index] :: front.eraseIdx index) := .swap _ _ _
      _ |>.Perm (last :: front) := (List.getElem_cons_eraseIdx_perm inside).cons _
      _ |>.Perm (front ++ [last]) := (List.perm_append_singleton last front).symm
  · subst atEnd
    rw [List.getElem_append_right (Nat.le_refl _)] at here
    simp only [Nat.sub_self, List.getElem_cons_zero] at here
    rw [List.set_append_right _ _ (Nat.le_refl _), Nat.sub_self, List.set_cons_zero,
      List.dropLast_concat, here]
    exact (List.perm_append_singleton element front).symm

/-! ## Connected peers -/

/-- A slot is left and no step of the registration is refused. -/
def Registration.Succeeds (stream : Registration) : Prop :=
  stream.key < maxIncomingClient ∧ stream.refused = none

instance : DecidablePred Registration.Succeeds :=
  fun _ => inferInstanceAs (Decidable (_ ∧ _))

def Registration.connected (conns : Finset Nat) (stream : Registration) : Finset Nat :=
  if stream.Succeeds then insert stream.key conns else conns

def ControlSignal.connected (conns : Finset Nat) : ControlSignal → Finset Nat
  | .connectNewPeer none | .broadcastMessage _ => conns
  | .connectNewPeer (some stream) => stream.connected conns

/-- The results of `read` come to an end of the stream or an error. -/
def endsReading : List (Except IoError ReadResult) → Bool
  | [] | .error .wouldBlock :: _ => false
  | .ok .eof :: _ | .error .other :: _ => true
  | .ok .continue :: results | .ok (.message _) :: results => endsReading results

/-- The call of `write` comes to an end of the stream or an error. -/
def WriteCall.ends (call : WriteCall) : Bool :=
  call.result = .ok .eof ∨ call.result = .error .other

namespace PolledEvent

variable (conns : Finset Nat) (event : PolledEvent)

/-- The connection of a socket ends in the event. -/
def ends : Bool :=
  event.readable.any endsReading || event.writable.any WriteCall.ends

/-- The peers that are connected after an event. -/
def connected : Finset Nat :=
  match Source.ofToken event.token with
  | .control => event.signals.foldl ControlSignal.connected conns
  | .incoming => event.streams.foldl Registration.connected conns
  | .socket peerId => if event.ends then conns.erase peerId else conns
  | .writer _ => conns

/-- The event of a write queue whose peer is not connected. -/
def Stray : Prop :=
  match Source.ofToken event.token with
  | .writer peerId => peerId ∉ conns
  | _ => False

/-- The operating system refuses what the event loop cannot go on without. -/
def Fails : Prop :=
  match Source.ofToken event.token with
  | .control => event.deregistered = some false
  | .incoming => event.acceptError = .other
  | .socket peerId => peerId ∈ conns ∧ ¬ event.readable.any endsReading ∧
      ∃ call ∈ event.writable, call.reregistered = false ∧
        (call.result = .ok .complete ∨ call.result = .ok .chanClosed)
  | .writer _ => event.reregistered = false

instance : Decidable (event.Stray conns) := by
  unfold Stray
  split <;> infer_instance

instance : Decidable (event.Fails conns) := by
  unfold Fails
  split <;> infer_instance

end PolledEvent

/-- No event of the batch is stray, up to where the event loop fails. -/
def NoStray (conns : Finset Nat) : List PolledEvent → Prop
  | [] => True
  | event :: events =>
      ¬ event.Stray conns ∧ (event.Fails conns ∨ NoStray (event.connected conns) events)

instance decidableNoStray : (conns : Finset Nat) → DecidablePred (NoStray conns)
  | _, [] => inferInstanceAs (Decidable True)
  | conns, event :: events =>
      have := decidableNoStray (event.connected conns) events
      inferInstanceAs (Decidable (¬ event.Stray conns ∧
        (event.Fails conns ∨ NoStray (event.connected conns) events)))

/-! ## What can be polled -/

namespace Server

/-- The slab hands out the key of a vacant entry. -/
def PossibleStreams (server : Server) : List Registration → Prop
  | [] => True
  | stream :: streams =>
      stream.key ∉ server.peers ∧ (server.accept stream).PossibleStreams streams

/-- The key of a connection that is asked for is vacant as well. -/
def PossibleSignal (server : Server) : ControlSignal → Prop
  | .connectNewPeer none | .broadcastMessage _ => True
  | .connectNewPeer (some stream) => stream.key ∉ server.peers

instance decidablePossibleStreams : (server : Server) → DecidablePred server.PossibleStreams
  | _, [] => inferInstanceAs (Decidable True)
  | server, stream :: streams =>
      have := decidablePossibleStreams (server.accept stream) streams
      inferInstanceAs (Decidable (_ ∧ (server.accept stream).PossibleStreams streams))

instance (server : Server) : DecidablePred server.PossibleSignal
  | .connectNewPeer none | .broadcastMessage _ => inferInstanceAs (Decidable True)
  | .connectNewPeer (some stream) => inferInstanceAs (Decidable (stream.key ∉ server.peers))

def PossibleSignals (server : Server) : List ControlSignal → Prop
  | [] => True
  | signal :: signals => server.PossibleSignal signal ∧
      ∀ next ∈ (server.processControl signal).toOption, next.PossibleSignals signals

instance decidablePossibleSignals : (server : Server) → DecidablePred server.PossibleSignals
  | _, [] => inferInstanceAs (Decidable True)
  | server, signal :: signals =>
      have (next : Server) := decidablePossibleSignals next signals
      inferInstanceAs (Decidable (server.PossibleSignal signal ∧
        ∀ next ∈ (server.processControl signal).toOption, next.PossibleSignals signals))

/-- What comes of an event is possible. -/
def Possible (server : Server) (event : PolledEvent) : Prop :=
  match Source.ofToken event.token with
  | .control => server.PossibleSignals event.signals
  | .incoming => server.PossibleStreams event.streams
  | .socket _ | .writer _ => True

instance (server : Server) (event : PolledEvent) : Decidable (server.Possible event) := by
  unfold Possible
  split <;> infer_instance

def PossibleAll (server : Server) : List PolledEvent → Prop
  | [] => True
  | event :: events => server.Possible event ∧
      ∀ next ∈ (server.dispatch event).toOption, next.PossibleAll events

instance decidablePossibleAll : (server : Server) → DecidablePred server.PossibleAll
  | _, [] => inferInstanceAs (Decidable True)
  | server, event :: events =>
      have (next : Server) := decidablePossibleAll next events
      inferInstanceAs (Decidable (server.Possible event ∧
        ∀ next ∈ (server.dispatch event).toOption, next.PossibleAll events))

/-- The event loop goes on with an event. -/
def step (server : Server) (event : PolledEvent) : Option Server :=
  if server.Possible event then (server.dispatch event).toOption else none

/-- The slab and the list hold the connected peers. -/
structure Registered (server : Server) (conns : Finset Nat) : Prop where
  peers : ∀ id, id ∈ server.peers ↔ id ∈ conns
  nodup : server.peerList.Nodup
  listed : ∀ id, id ∈ server.peerList ↔ id ∈ conns
  bounded : ∀ id ∈ conns, id < maxIncomingClient

namespace Registered

variable {server after : Server} {conns : Finset Nat} {peerId : Nat}

theorem new : Registered new ∅ where
  peers := by simp [Server.new, Finmap.notMem_empty]
  nodup := List.nodup_nil
  listed := by simp [Server.new]
  bounded := by simp

theorem peer (registered : server.Registered conns) (member : peerId ∈ conns) :
    ∃ peer, server.peers.lookup peerId = some peer ∧ server.peer peerId = .ok peer := by
  obtain ⟨peer, found⟩ := HashMap.lookup_of_mem ((registered.peers peerId).mpr member)
  exact ⟨peer, found, by rw [Server.peer, found]⟩

theorem no_peer (registered : server.Registered conns) (stray : peerId ∉ conns) :
    server.peer peerId = .error (.peer peerId) := by
  have missing : peerId ∉ server.peers := fun member => stray ((registered.peers peerId).mp member)
  rw [Server.peer, Finmap.lookup_eq_none.mpr missing]

theorem accept (registered : server.Registered conns) {stream : Registration}
    (vacant : stream.key ∉ server.peers) :
    (server.accept stream).Registered (stream.connected conns) := by
  have free : stream.key ∉ conns := fun member => vacant ((registered.peers _).mpr member)
  rw [Server.accept, Server.register, Registration.connected]
  split
  next registration result =>
    split at result
    · cases result
    next room =>
    split at result
    · cases result
    next unrefused =>
    cases result
    rw [if_pos ⟨Nat.not_le.mp room, unrefused⟩]
    constructor
    · intro id
      rw [Finmap.mem_insert, Finset.mem_insert, registered.peers]
    · rw [List.nodup_append]
      refine ⟨registered.nodup, List.nodup_singleton _, ?_⟩
      rintro id listed other last rfl
      rw [List.mem_singleton.mp last] at listed
      exact free ((registered.listed _).mp listed)
    · intro id
      rw [List.mem_append, List.mem_singleton, Finset.mem_insert, registered.listed, or_comm]
    · intro id member
      rcases Finset.mem_insert.mp member with rfl | earlier
      · exact Nat.not_le.mp room
      · exact registered.bounded id earlier
  next error result =>
    rw [if_neg]
    · exact registered
    · rintro ⟨room, unrefused⟩
      rw [if_neg (Nat.not_le.mpr room), unrefused] at result
      cases result

theorem disconnect (registered : server.Registered conns) (member : peerId ∈ conns) :
    ∃ after, server.disconnect peerId = .ok after ∧ after.Registered (conns.erase peerId) := by
  obtain ⟨peer, -, accessed⟩ := registered.peer member
  have listed : peerId ∈ server.peerList := (registered.listed peerId).mpr member
  obtain ⟨index, position⟩ : ∃ index, server.peerList.idxOf? peerId = some index := by
    cases position : server.peerList.idxOf? peerId with
    | none => exact absurd listed (List.idxOf?_eq_none_iff.mp position)
    | some index => exact ⟨index, rfl⟩
  obtain ⟨bound, here, -⟩ := List.idxOf?_eq_some_iff.mp position
  have found : server.peerList[index]? = some peerId := by
    rw [List.getElem?_eq_getElem bound, here]
  have perm := perm_swapRemove found
  have nodup := perm.nodup_iff.mpr registered.nodup
  rw [List.nodup_cons] at nodup
  refine ⟨_, by rw [Server.disconnect, accessed, ok_bind, position]; rfl, ?_, nodup.2, ?_, ?_⟩
  · intro id
    rw [Finmap.mem_erase, Finset.mem_erase, registered.peers]
  · intro id
    rw [Finset.mem_erase, ← registered.listed, ← perm.mem_iff, List.mem_cons]
    constructor
    · intro left
      exact ⟨fun same => nodup.1 (same ▸ left), .inr left⟩
    · rintro ⟨other, same | left⟩
      · exact absurd same other
      · exact left
  · intro id left
    exact registered.bounded id (Finset.mem_of_mem_erase left)

/-- Writing to the queue of a connected peer changes nothing but this queue. -/
theorem queue (registered : server.Registered conns) (member : peerId ∈ conns)
    (peer : PeerContext) :
    Registered { server with peers := server.peers.insert peerId peer } conns where
  peers := by
    intro id
    rw [Finmap.mem_insert, registered.peers, or_iff_right_of_imp]
    rintro rfl
    exact member
  nodup := registered.nodup
  listed := registered.listed
  bounded := registered.bounded

/-- A broadcast reaches every peer of a list of connected peers, once. -/
theorem write_all (registered : server.Registered conns) (msg : Message) {ids : List Nat}
    (distinct : ids.Nodup) (connected : ∀ id ∈ ids, id ∈ conns) :
    ∃ after, ids.foldlM (write msg) server = .ok after ∧ after.Registered conns ∧
      after.peerList = server.peerList ∧ after.newMsgs = server.newMsgs ∧
      ∀ id, after.peers.lookup id = if id ∈ ids then
        (server.peers.lookup id).map fun peer => { writeQueue := peer.writeQueue ++ [msg] }
      else server.peers.lookup id := by
  induction ids generalizing server with
  | nil => exact ⟨server, rfl, registered, rfl, rfl, by simp⟩
  | cons id ids ih =>
      rw [List.nodup_cons] at distinct
      obtain ⟨peer, found, accessed⟩ := registered.peer (connected id (by simp))
      let written : PeerContext := { writeQueue := peer.writeQueue ++ [msg] }
      let next : Server := { server with peers := server.peers.insert id written }
      have wrote : write msg server id = .ok next := by
        rw [write, accessed]
        rfl
      obtain ⟨after, writes, registeredAfter, sameList, sameMsgs, queued⟩ :=
        ih (registered.queue (connected id (by simp)) written) distinct.2
          (fun other member => connected other (List.mem_cons_of_mem _ member))
      refine ⟨after, ?_, registeredAfter, sameList, sameMsgs, fun other => ?_⟩
      · rw [List.foldlM_cons, wrote]
        exact writes
      · rw [queued other, HashMap.lookup_insert_ite]
        by_cases same : other = id
        · subst same
          simp [distinct.1, found, written]
        · simp [same]

theorem control (registered : server.Registered conns) {signal : ControlSignal}
    (possible : server.PossibleSignal signal) :
    ∃ after, server.processControl signal = .ok after ∧
      after.Registered (signal.connected conns) := by
  cases signal with
  | connectNewPeer reached =>
      cases reached with
      | none => exact ⟨server, rfl, registered⟩
      | some stream => exact ⟨server.accept stream, rfl, registered.accept possible⟩
  | broadcastMessage msg =>
      obtain ⟨after, writes, registeredAfter, -⟩ := registered.write_all msg registered.nodup
        fun id listed => (registered.listed id).mp listed
      exact ⟨after, writes, registeredAfter⟩

theorem controls (registered : server.Registered conns) {signals : List ControlSignal}
    (possible : server.PossibleSignals signals) :
    ∃ after, signals.foldlM processControl server = .ok after ∧
      after.Registered (signals.foldl ControlSignal.connected conns) := by
  induction signals generalizing server conns with
  | nil => exact ⟨server, rfl, registered⟩
  | cons signal signals ih =>
      obtain ⟨next, processed, registeredNext⟩ := registered.control possible.1
      have later : next.PossibleSignals signals := possible.2 next (by rw [processed]; rfl)
      obtain ⟨after, rest, registeredAfter⟩ := ih registeredNext later
      exact ⟨after, by rw [List.foldlM_cons, processed]; exact rest, registeredAfter⟩

theorem accepts (registered : server.Registered conns) {streams : List Registration}
    (possible : server.PossibleStreams streams) :
    (streams.foldl Server.accept server).Registered
      (streams.foldl Registration.connected conns) := by
  induction streams generalizing server conns with
  | nil => exact registered
  | cons stream streams ih => exact ih (registered.accept possible.1) possible.2

theorem reads (registered : server.Registered conns) (member : peerId ∈ conns)
    (results : List (Except IoError ReadResult)) :
    ∃ after, server.readLoop peerId results = .ok after ∧
      after.Registered (if endsReading results then conns.erase peerId else conns) := by
  fun_induction Server.readLoop server peerId results with
  | case1 server => exact ⟨server, rfl, registered⟩
  | case2 server results => exact ⟨server, rfl, registered⟩
  | case3 server results => exact registered.disconnect member
  | case4 server results => exact registered.disconnect member
  | case5 server results ih => exact ih registered
  | case6 server m results ih => exact ih { registered with }

theorem writes (registered : server.Registered conns) (member : peerId ∈ conns)
    (call : WriteCall) :
    (∃ after, server.processWritable peerId call = .ok after ∧
        after.Registered (if call.ends then conns.erase peerId else conns) ∧
        ¬ (call.reregistered = false ∧
          (call.result = .ok .complete ∨ call.result = .ok .chanClosed))) ∨
      server.processWritable peerId call = .error .io ∧ call.reregistered = false ∧
        (call.result = .ok .complete ∨ call.result = .ok .chanClosed) := by
  obtain ⟨peer, found, accessed⟩ := registered.peer member
  have drained := registered.queue member { writeQueue := peer.writeQueue.drop call.taken }
  obtain ⟨removed, disconnects, registeredLess⟩ := drained.disconnect member
  rw [Server.processWritable, accessed, ok_bind, WriteCall.ends]
  cases result : call.result with
  | ok answer =>
      cases answer with
      | complete | chanClosed =>
          cases again : call.reregistered with
          | true => exact .inl ⟨_, rfl, by simpa using drained, by simp⟩
          | false => exact .inr ⟨rfl, rfl, by simp⟩
      | eof => exact .inl ⟨removed, disconnects, by simpa using registeredLess, by simp⟩
  | error error =>
      cases error with
      | wouldBlock => exact .inl ⟨_, rfl, by simpa using drained, by simp⟩
      | other => exact .inl ⟨removed, disconnects, by simpa using registeredLess, by simp⟩

end Registered

/-- Everything that dispatching an event can lead to. -/
inductive Dispatched (conns : Finset Nat) (event : PolledEvent) : Except Stop Server → Prop
  | next (after : Server) (registered : after.Registered (event.connected conns))
      (goesOn : ¬ event.Fails conns) (kept : ¬ event.Stray conns) :
      Dispatched conns event (.ok after)
  | stray (peerId : Nat) (stray : event.Stray conns) :
      Dispatched conns event (.error (.peer peerId))
  | fails (fails : event.Fails conns) (kept : ¬ event.Stray conns) :
      Dispatched conns event (.error .io)

namespace Registered

variable {server : Server} {conns : Finset Nat} {event : PolledEvent}

/-- The readable part of an event of a socket, whether the peer is connected or not. -/
theorem readable (registered : server.Registered conns) (peerId : Nat)
    (readable : Option (List (Except IoError ReadResult))) :
    ∃ after, server.whenReadable peerId readable = .ok after ∧
      after.Registered (if readable.any endsReading then conns.erase peerId else conns) := by
  cases readable with
  | none => exact ⟨server, rfl, registered⟩
  | some results =>
      rw [whenReadable]
      split
      · next live =>
          have member := (registered.peers peerId).mp live
          obtain ⟨peer, -, accessed⟩ := registered.peer member
          rw [processReadable, accessed, ok_bind]
          exact registered.reads member results
      · next gone =>
          have stray : peerId ∉ conns := fun member => gone ((registered.peers peerId).mpr member)
          refine ⟨server, rfl, ?_⟩
          rw [Finset.erase_eq_of_notMem stray, ite_self]
          exact registered

theorem socket (registered : server.Registered conns) {peerId : Nat}
    (source : Source.ofToken event.token = .socket peerId) :
    Dispatched conns event (server.dispatch event) := by
  have kept : ¬ event.Stray conns := by simp [PolledEvent.Stray, source]
  obtain ⟨middle, read, registeredMiddle⟩ := registered.readable peerId event.readable
  rw [Server.dispatch, source]
  dsimp only
  rw [read, ok_bind]
  by_cases live : peerId ∈ middle.peers
  · -- the peer is still connected, so that reading has not ended its connection
    have connected := (registeredMiddle.peers peerId).mp live
    have notRead : event.readable.any endsReading = false := by
      cases ends : event.readable.any endsReading with
      | false => rfl
      | true => simp [ends] at connected
    rw [notRead, if_neg Bool.false_ne_true] at registeredMiddle connected
    cases writable : event.writable with
    | none =>
        refine .next middle ?_ (by simp [PolledEvent.Fails, source, writable]) kept
        simpa [PolledEvent.connected, source, PolledEvent.ends, notRead, writable] using
          registeredMiddle
    | some call =>
        rw [whenWritable, if_pos live]
        rcases registeredMiddle.writes connected call with
          ⟨after, wrote, registeredAfter, goesOn⟩ | ⟨failed, again, finished⟩
        · rw [wrote]
          refine .next after ?_ ?_ kept
          · simpa [PolledEvent.connected, source, PolledEvent.ends, notRead, writable] using
              registeredAfter
          · intro fails
            rw [PolledEvent.Fails, source, writable] at fails
            obtain ⟨-, -, other, same, failed⟩ := fails
            rw [Option.mem_some] at same
            subst same
            exact goesOn failed
        · rw [failed]
          refine .fails ?_ kept
          rw [PolledEvent.Fails, source, writable, notRead]
          exact ⟨connected, Bool.false_ne_true, call, rfl, again, finished⟩
  · have skipped : middle.whenWritable peerId event.writable = .ok middle := by
      cases event.writable with
      | none => rfl
      | some call => exact if_neg live
    rw [skipped]
    refine .next middle ?_ ?_ kept
    · simp only [PolledEvent.connected, source]
      by_cases ended : event.readable.any endsReading = true
      · have ends : event.ends = true := by simp [PolledEvent.ends, ended]
        rw [if_pos ends]
        rwa [if_pos ended] at registeredMiddle
      · rw [if_neg ended] at registeredMiddle
        have stray : peerId ∉ conns := fun member => live ((registeredMiddle.peers _).mpr member)
        rw [Finset.erase_eq_of_notMem stray, ite_self]
        exact registeredMiddle
    · intro fails
      rw [PolledEvent.Fails, source] at fails
      obtain ⟨connected, notRead, -⟩ := fails
      rw [if_neg notRead] at registeredMiddle
      exact live ((registeredMiddle.peers peerId).mpr connected)

theorem dispatch (registered : server.Registered conns) (possible : server.Possible event) :
    Dispatched conns event (server.dispatch event) := by
  rw [Server.Possible] at possible
  rw [Server.dispatch]
  cases source : Source.ofToken event.token with
  | control =>
      rw [source] at possible
      obtain ⟨after, processed, registeredAfter⟩ := registered.controls possible
      have kept : ¬ event.Stray conns := by simp [PolledEvent.Stray, source]
      dsimp only
      rw [processed, ok_bind]
      split
      · next fails => exact .fails (by simpa [PolledEvent.Fails, source] using fails) kept
      · next goesOn =>
          refine .next after ?_ (by simpa [PolledEvent.Fails, source] using goesOn) kept
          simpa [PolledEvent.connected, source] using registeredAfter
  | incoming =>
      rw [source] at possible
      have kept : ¬ event.Stray conns := by simp [PolledEvent.Stray, source]
      dsimp only
      cases ended : event.acceptError with
      | wouldBlock =>
          refine .next _ ?_ (by simp [PolledEvent.Fails, source, ended]) kept
          simpa [PolledEvent.connected, source] using registered.accepts possible
      | other => exact .fails (by simp [PolledEvent.Fails, source, ended]) kept
  | socket peerId =>
      have same := registered.socket source
      rw [Server.dispatch, source] at same
      exact same
  | writer peerId =>
      dsimp only
      rw [registerWriteInterest]
      by_cases member : peerId ∈ conns
      · have kept : ¬ event.Stray conns := by simp [PolledEvent.Stray, source, member]
        obtain ⟨peer, -, accessed⟩ := registered.peer member
        rw [accessed, ok_bind]
        cases again : event.reregistered with
        | true =>
            refine .next server ?_ (by simp [PolledEvent.Fails, source, again]) kept
            simpa [PolledEvent.connected, source] using registered
        | false => exact .fails (by simp [PolledEvent.Fails, source, again]) kept
      · rw [registered.no_peer member, error_bind]
        exact .stray peerId (by simp [PolledEvent.Stray, source, member])

/-- Dispatching a batch never misses a key of the list, and misses a peer of the slab
exactly when an event of the batch is stray. -/
theorem dispatchAll {events : List PolledEvent} (registered : server.Registered conns)
    (possible : server.PossibleAll events) :
    server.dispatchAll events ≠ .error .position ∧
      ((∀ peerId, server.dispatchAll events ≠ .error (.peer peerId)) ↔
        NoStray conns events) := by
  induction events generalizing server conns with
  | nil => simp [Server.dispatchAll, NoStray, pure, Except.pure]
  | cons event events ih =>
      have dispatched := registered.dispatch possible.1
      rw [Server.dispatchAll, List.foldlM_cons, NoStray]
      cases result : server.dispatch event with
      | ok after =>
          have later : after.PossibleAll events := possible.2 after (by rw [result]; rfl)
          rw [result] at dispatched
          cases dispatched with
          | next _ registeredAfter goesOn kept =>
              obtain ⟨listed, live⟩ := ih registeredAfter later
              rw [ok_bind]
              exact ⟨listed, live.trans (by simp [goesOn, kept])⟩
      | error stop =>
          rw [result] at dispatched
          rw [error_bind]
          cases dispatched with
          | stray peerId stray =>
              refine ⟨by simp, fun live => absurd rfl (live peerId), fun noStray => ?_⟩
              exact absurd stray noStray.1
          | fails fails kept => exact ⟨by simp, by simp [fails, kept]⟩

theorem step {after : Server} (registered : server.Registered conns)
    (stepped : server.step event = some after) : after.Registered (event.connected conns) := by
  rw [Server.step, Option.ite_none_right_eq_some] at stepped
  obtain ⟨possible, stepped⟩ := stepped
  have dispatched := registered.dispatch possible
  cases result : server.dispatch event with
  | ok next =>
      rw [result] at dispatched stepped
      cases stepped
      cases dispatched with
      | next _ registeredAfter _ _ => exact registeredAfter
  | error stop =>
      rw [result] at stepped
      cases stepped

end Registered

theorem registered_of_run (run : Run step (· = new)) :
    ∀ index ≤ run.length,
      (run.states index).Registered (run.states index).peers.keys := by
  intro index bound
  have registered : ∃ conns, (run.states index).Registered conns := by
    refine run.invariant (fun server => ∃ conns, server.Registered conns) ?_ ?_ index bound
    · rintro _ rfl
      exact ⟨∅, .new⟩
    · rintro before event after ⟨conns, registered⟩ stepped
      exact ⟨_, registered.step stepped⟩
  obtain ⟨conns, registered⟩ := registered
  have same : (run.states index).peers.keys = conns := by
    ext id
    rw [Finmap.mem_keys, registered.peers]
  rw [same]
  exact registered

/-- After any sequence of events the list holds the keys of the slab, each of them
once and all below the bound.  A removal finds the key in the list, and a broadcast
puts the message once into the queue of each connected peer. -/
theorem registry_of_run (run : Run step (· = new)) :
    ∀ index ≤ run.length,
      (run.states index).peerList.Nodup ∧
      (∀ id, id ∈ (run.states index).peerList ↔ id ∈ (run.states index).peers) ∧
      (∀ id ∈ (run.states index).peers, id < maxIncomingClient) ∧
      (∀ event, (run.states index).Possible event →
        (run.states index).dispatch event ≠ .error .position) ∧
      ∀ msg, ∃ after,
        (run.states index).processControl (.broadcastMessage msg) = .ok after ∧
        after.peerList = (run.states index).peerList ∧
        ∀ id, after.peers.lookup id = ((run.states index).peers.lookup id).map
          fun peer => { writeQueue := peer.writeQueue ++ [msg] } := by
  intro index bound
  have registered := registered_of_run run index bound
  have listed (id : Nat) :
      id ∈ (run.states index).peerList ↔ id ∈ (run.states index).peers := by
    rw [registered.listed, Finmap.mem_keys]
  refine ⟨registered.nodup, listed, fun id live => ?_, fun event possible => ?_, fun msg => ?_⟩
  · exact registered.bounded id (Finmap.mem_keys.mpr live)
  · intro missed
    have dispatched := registered.dispatch possible
    rw [missed] at dispatched
    cases dispatched
  · obtain ⟨after, writes, -, sameList, -, queued⟩ :=
      registered.write_all msg registered.nodup fun id member => (registered.listed id).mp member
    refine ⟨after, writes, sameList, fun id => ?_⟩
    rw [queued id]
    split
    · rfl
    · next unlisted =>
        rw [listed] at unlisted
        rw [Finmap.lookup_eq_none.mpr unlisted]
        rfl

/-- Every access to a peer finds it exactly when no event of the batch is that of a
write queue whose peer is not connected. -/
theorem accesses_iff_noStray (run : Run step (· = new)) :
    ∀ index ≤ run.length, ∀ events, (run.states index).PossibleAll events →
      ((∀ peerId, (run.states index).dispatchAll events ≠ .error (.peer peerId)) ↔
        NoStray (run.states index).peers.keys events) :=
  fun index bound _ possible =>
    ((registered_of_run run index bound).dispatchAll possible).2

instance : Inhabited PolledEvent :=
  ⟨{ token := controlToken }⟩

/-- The events of two connections: both are accepted, the first one ends while the
second is writing. -/
def connectionsRun : Run step (· = new) :=
  Run.ofActions new rfl
    [{ token := incomingToken, streams := [⟨0, none⟩, ⟨1, none⟩, ⟨2, some .context⟩] },
      { token := controlToken, signals := [.broadcastMessage (.newAddr [])] },
      { token := socketToken 0, readable := some [.ok .continue, .ok .eof] },
      { token := socketToken 1, writable := some ⟨1, .ok .complete, true⟩ }]
    (by decide +kernel)

theorem registry_connectionsRun :
    (connectionsRun.states 2).peers.lookup 0 = some ⟨[.newAddr []]⟩ ∧
      (connectionsRun.states 4).peerList = [1] ∧
      (∀ id, id ∈ (connectionsRun.states 4).peerList ↔ id ∈ (connectionsRun.states 4).peers) :=
  ⟨by decide +kernel, by decide +kernel, (registry_of_run connectionsRun 4 (by decide)).2.1⟩

/-- The peer closes the connection while a message waits for it: the event of the
socket comes first, then that of the write queue. -/
def closingBatch : List PolledEvent :=
  [{ token := socketToken 1, readable := some [.ok .eof] }, { token := writerToken 1 }]

theorem accesses_connectionsRun :
    (connectionsRun.states 2).PossibleAll closingBatch.reverse ∧
      ∀ peerId, (connectionsRun.states 2).dispatchAll closingBatch.reverse ≠
        .error (.peer peerId) := by
  have possible : (connectionsRun.states 2).PossibleAll closingBatch.reverse := by
    decide +kernel
  refine ⟨possible, (accesses_iff_noStray connectionsRun 2 (by decide) _ possible).mpr ?_⟩
  decide +kernel

theorem dead_peer_of_closingBatch :
    (connectionsRun.states 2).PossibleAll closingBatch ∧
      (connectionsRun.states 2).dispatchAll closingBatch = .error (.peer 1) :=
  ⟨by decide +kernel, by decide +kernel⟩

end Server

end SimplifiedPrism
