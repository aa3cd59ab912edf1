import SimplifiedPrism.Peer
import SimplifiedPrism.Worker

/-!
# The server

The event loop keeps the connected peers in a slab and their keys in a list.  It
polls for a batch of events and dispatches them one after the other: new
connections, control signals, and the sockets and write queues of the peers.  What
the operating system answers while an event is dispatched comes with the event.
-/

namespace SimplifiedPrism

/-- `Vec::swap_remove`: the last element takes the place of the removed one. -/
def swapRemove {α : Type*} (list : List α) (index : Nat) : List α :=
  match list.getLast? with
  | none => []
  | some last => (list.set index last).dropLast

/-- `MAX_INCOMING_CLIENT`. -/
def maxIncomingClient : Nat := 256

/-- A connected peer, with the messages in its write queue. -/
structure PeerContext where
  writeQueue : List Message := []
deriving DecidableEq

/-- The slab of peers, the list of their keys and the messages handed to the
workers, with the peer they came from. -/
structure Server where
  peers : HashMap Nat PeerContext
  peerList : List Nat
  newMsgs : List (List UInt8 × Nat)
deriving DecidableEq

/-- Why the thread of the event loop has stopped: an access to a peer that is not in
the slab, a key that is not in the list, or an error that is returned or unwrapped. -/
inductive Server.Stop
  | peer (peerId : Nat)
  | position
  | io
deriving DecidableEq

/-- The steps of `register` that can be refused. -/
inductive RegisterStep
  | socket
  | context
  | writeQueue
deriving DecidableEq

inductive RegisterError
  | maxPeerReached
  | refused (step : RegisterStep)
deriving DecidableEq

/-- What `register` meets: the key of the vacant entry, and the step that is refused. -/
structure Registration where
  key : Nat
  refused : Option RegisterStep := none
deriving DecidableEq

/-- A call of `writer.write`: how many messages it takes out of the queue, its result
and whether the interests can be registered again. -/
structure WriteCall where
  taken : Nat
  result : Except IoError WriteResult
  reregistered : Bool := true
deriving DecidableEq

/-- `ConnectNewPeer` comes with `none` when the address cannot be reached. -/
inductive ControlSignal
  | connectNewPeer (reached : Option Registration)
  | broadcastMessage (msg : Message)
deriving DecidableEq

namespace Server

def new : Server :=
  ⟨∅, [], []⟩

/-- The access `self.peers[peer_id]`. -/
def peer (server : Server) (peerId : Nat) : Except Stop PeerContext :=
  match server.peers.lookup peerId with
  | none => .error (.peer peerId)
  | some peer => .ok peer

/-- Register a connection, and initialize its peer context. -/
def register (server : Server) (stream : Registration) : Except RegisterError Server :=
  if maxIncomingClient ≤ stream.key then
    .error .maxPeerReached
  else
    match stream.refused with
    | some step => .error (.refused step)
    | none =>
        .ok { server with
          peers := server.peers.insert stream.key {}
          peerList := server.peerList ++ [stream.key] }

/-- Accept an incoming peer; an error is only logged. -/
def accept (server : Server) (stream : Registration) : Server :=
  match server.register stream with
  | .ok registered => registered
  | .error _ => server

/-- Connect to a peer; an error goes to whoever asked. -/
def connect (server : Server) : Option Registration → Server
  | none => server
  | some stream =>
      match server.register stream with
      | .ok registered => registered
      | .error _ => server

/-- `self.peers[*peer_id].handle.write(msg.clone())`. -/
def write (msg : Message) (server : Server) (peerId : Nat) : Except Stop Server := do
  let peer ← server.peer peerId
  return { server with
    peers := server.peers.insert peerId { writeQueue := peer.writeQueue ++ [msg] } }

def processControl (server : Server) : ControlSignal → Except Stop Server
  | .connectNewPeer reached => .ok (server.connect reached)
  | .broadcastMessage msg => server.peerList.foldlM (write msg) server

/-- Remove a peer from the connections set; an empty slot cannot be removed. -/
def disconnect (server : Server) (peerId : Nat) : Except Stop Server := do
  let _ ← server.peer peerId
  let peers := server.peers.erase peerId
  match server.peerList.idxOf? peerId with
  | none => .error .position
  | some index => return { server with peers, peerList := swapRemove server.peerList index }

def registerWriteInterest (server : Server) (peerId : Nat) (reregistered : Bool) :
    Except Stop Server := do
  let _ ← server.peer peerId
  if reregistered then
    return server
  else
    .error .io

/-- The loop over what `reader.read` returns, up to where the socket would block. -/
def readLoop (server : Server) (peerId : Nat) :
    List (Except IoError ReadResult) → Except Stop Server
  | [] | .error .wouldBlock :: _ => .ok server
  | .ok .eof :: _ | .error .other :: _ => server.disconnect peerId
  | .ok .continue :: results => server.readLoop peerId results
  | .ok (.message m) :: results =>
      readLoop { server with newMsgs := server.newMsgs ++ [(m, peerId)] } peerId results

def processReadable (server : Server) (peerId : Nat)
    (results : List (Except IoError ReadResult)) : Except Stop Server := do
  let _ ← server.peer peerId
  server.readLoop peerId results

def processWritable (server : Server) (peerId : Nat) (call : WriteCall) :
    Except Stop Server := do
  let peer ← server.peer peerId
  let server := { server with
    peers := server.peers.insert peerId { writeQueue := peer.writeQueue.drop call.taken } }
  match call.result with
  | .ok .complete | .ok .chanClosed => if call.reregistered then return server else .error .io
  | .ok .eof | .error .other => server.disconnect peerId
  | .error .wouldBlock => return server

end Server

/-! ## The event loop -/

/-- The token of the listener, `usize::MAX - 1`. -/
def incomingToken : Nat := 2 ^ 64 - 2

/-- The token of the control channel, `usize::MAX - 2`. -/
def controlToken : Nat := 2 ^ 64 - 3

def socketToken (key : Nat) : Nat := key * 2

def writerToken (key : Nat) : Nat := key * 2 + 1

/-- What a token stands for. -/
inductive Source
  | control
  | incoming
  | socket (peerId : Nat)
  | writer (peerId : Nat)
deriving DecidableEq

/-- The cases of `match event.token()`. -/
def Source.ofToken (token : Nat) : Source :=
  if token = controlToken then
    .control
  else if token = incomingToken then
    .incoming
  else if token &&& 1 = 0 then
    .socket (token >>> 1)
  else
    .writer (token >>> 1)

theorem ofToken_of_key {key : Nat} (bound : key < maxIncomingClient) :
    Source.ofToken (socketToken key) = .socket key ∧
      Source.ofToken (writerToken key) = .writer key := by
  simp only [maxIncomingClient] at bound
  simp only [Source.ofToken, socketToken, writerToken, controlToken, incomingToken,
    Nat.and_one_is_mod, Nat.shiftRight_eq_div_pow]
  constructor
  · rw [if_neg (by omega), if_neg (by omega), if_pos (by omega)]
    congr 1
    omega
  · rw [if_neg (by omega), if_neg (by omega), if_neg (by omega)]
    congr 1
    omega

/-- A polled event: its token, and what comes of it.  A control event brings signals
until the channel is empty or disconnected (`deregistered` tells whether it could
then be taken off the poll), an event of the listener brings connections until it
would block or fails, an event of a socket is readable, writable or both. -/
structure PolledEvent where
  token : Nat
  signals : List ControlSignal := []
  deregistered : Option Bool := none
  streams : List Registration := []
  acceptError : IoError := .wouldBlock
  readable : Option (List (Except IoError ReadResult)) := none
  writable : Option WriteCall := none
  reregistered : Bool := true
deriving DecidableEq

namespace Server

/-- The event of a socket is readable, if at all, with these results. -/
def whenReadable (server : Server) (peerId : Nat) :
    Option (List (Except IoError ReadResult)) → Except Stop Server
  | none => .ok server
  | some results =>
      if peerId ∈ server.peers then server.processReadable peerId results else .ok server

def whenWritable (server : Server) (peerId : Nat) : Option WriteCall → Except Stop Server
  | none => .ok server
  | some call =>
      if peerId ∈ server.peers then server.processWritable peerId call else .ok server

/-- Dispatch one event. -/
def dispatch (server : Server) (event : PolledEvent) : Except Stop Server :=
  match Source.ofToken event.token with
  | .control => do
      let server ← event.signals.foldlM processControl server
      if event.deregistered = some false then .error .io else .ok server
  | .incoming =>
      if event.acceptError = .wouldBlock then
        .ok (event.streams.foldl accept server)
      else
        .error .io
  | .socket peerId => do
      -- a peer that is not readable because it has gone is not writable either
      let server ← server.whenReadable peerId event.readable
      server.whenWritable peerId event.writable
  | .writer peerId => server.registerWriteInterest peerId event.reregistered

/-- Dispatch a batch. -/
def dispatchAll (server : Server) (events : List PolledEvent) : Except Stop Server :=
  events.foldlM dispatch server

end Server

end SimplifiedPrism
