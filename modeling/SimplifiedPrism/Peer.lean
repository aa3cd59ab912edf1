import SimplifiedPrism.Framing
import SimplifiedPrism.Hash
import SimplifiedPrism.TransitionSystem

/-!
# The framing of a peer connection

`ReadContext::read` and `WriteContext::write` are resumable at any byte of the
length or the payload of a message.  Between the two contexts stands a lossless
stream: the bytes that the writer has accepted and the reader has not reported.
The part of a frame that the reader holds, the stream, and what the writer has
still to write are together the frames of the messages not yet delivered.
-/

namespace SimplifiedPrism

/-- `u32::to_be_bytes`. -/
def toBeBytes (number : UInt32) : Vector UInt8 4 :=
  #v[(number >>> 24).toUInt8, (number >>> 16).toUInt8, (number >>> 8).toUInt8, number.toUInt8]

theorem fromBeBytes_toBeBytes (number : UInt32) :
    fromBeBytes (toBeBytes number).toList = number.toNat := by
  have bound := number.toNat_lt
  change ((((0 * 256 + (number >>> 24).toUInt8.toNat) * 256 + (number >>> 16).toUInt8.toNat) *
    256 + (number >>> 8).toUInt8.toNat) * 256 + number.toUInt8.toNat) = number.toNat
  simp only [UInt32.toNat_toUInt8, UInt32.toNat_shiftRight, UInt32.reduceToNat,
    Nat.shiftRight_eq_div_pow, Nat.reduceMod, Nat.reducePow]
  omega

/-- The length of a message as a big-endian `u32`. -/
def messagePrefix : LengthPrefix UInt8 where
  width := 4
  bound := 2 ^ 32
  encode := fun length => (toBeBytes (UInt32.ofNat length)).toList
  decode := fromBeBytes
  width_pos := by omega
  length_encode := fun _ => rfl
  decode_encode := by
    intro length bound
    rw [fromBeBytes_toBeBytes]
    exact Nat.mod_eq_of_lt bound

/-- The slice of a buffer from `start` up to `stop`; out of range it panics. -/
def slice (buffer : List UInt8) (start stop : Nat) : Option (List UInt8) :=
  if start ≤ stop ∧ stop ≤ buffer.length then some ((buffer.take stop).drop start) else none

theorem slice_of_le {buffer : List UInt8} {start stop : Nat} (ordered : start ≤ stop)
    (within : stop ≤ buffer.length) :
    slice buffer start stop = some ((buffer.take stop).drop start) :=
  if_pos ⟨ordered, within⟩

inductive IoError
  | wouldBlock
  | other
deriving DecidableEq

/-- How the socket answers a call: with an error, or with at most so many bytes. -/
abbrev SocketAnswer := Except IoError Nat

/-! ## Reading -/

inductive DecodeState
  | length
  | payload
deriving DecidableEq

inductive ReadResult
  | continue
  | message (payload : List UInt8)
  | eof
deriving DecidableEq

structure ReadContext where
  buffer : List UInt8
  msgLength : Nat
  readLength : Nat
  state : DecodeState
deriving DecidableEq

def ReadContext.new : ReadContext where
  buffer := List.replicate 4 0
  msgLength := 4
  readLength := 0
  state := .length

/-- The buffer is filled: process it. -/
def ReadContext.process (ctx : ReadContext) : Option (ReadResult × ReadContext) :=
  match ctx.state with
  | .length =>
      (slice ctx.buffer 0 4).bind fun header =>
        let messageLength := fromBeBytes header
        some (.continue,
          { buffer := ctx.buffer ++ List.replicate (messageLength - ctx.buffer.length) 0
            msgLength := messageLength
            readLength := 0
            state := .payload })
  | .payload =>
      (slice ctx.buffer 0 ctx.msgLength).bind fun newPayload =>
        some (.message newPayload,
          { ctx with
            msgLength := 4
            readLength := 0
            state := .length })

/-- The socket has written some bytes into the buffer: move the cursor. -/
def ReadContext.advance (ctx : ReadContext) (bytes : List UInt8) : ReadContext :=
  { ctx with
    buffer := ctx.buffer.take ctx.readLength ++ bytes ++
      ctx.buffer.drop (ctx.readLength + bytes.length)
    readLength := ctx.readLength + bytes.length }

/-- One call, with the stream it reads from: the result, and what is left. -/
def ReadContext.read (ctx : ReadContext) (answer : SocketAnswer) (stream : List UInt8) :
    Option (Except IoError ReadResult × ReadContext × List UInt8) :=
  (slice ctx.buffer ctx.readLength ctx.msgLength).bind fun target =>
    match answer with
    | .error error => some (.error error, ctx, stream)
    | .ok limit =>
        let bytes := stream.take (min limit target.length)
        if bytes = [] then
          some (.ok .eof, ctx, stream)
        else
          let moved := ctx.advance bytes
          let left := stream.drop bytes.length
          if moved.readLength = moved.msgLength then
            moved.process.map fun processed => (.ok processed.1, processed.2, left)
          else
            some (.ok .continue, moved, left)

/-- The messages that a result hands on. -/
def messagesOf : Except IoError ReadResult → List (List UInt8)
  | .ok (.message payload) => [payload]
  | _ => []

/-- The bytes that the reader holds of the frame it is in. -/
def ReadContext.part (ctx : ReadContext) : List UInt8 :=
  match ctx.state with
  | .length => ctx.buffer.take ctx.readLength
  | .payload => messagePrefix.encode ctx.msgLength ++ ctx.buffer.take ctx.readLength

/-- The cursor is inside the part of the buffer that the state asks for. -/
structure ReadContext.Aligned (ctx : ReadContext) : Prop where
  cursor : ctx.readLength ≤ ctx.msgLength
  room : ctx.msgLength ≤ ctx.buffer.length
  headerRoom : 4 ≤ ctx.buffer.length
  header : ctx.state = .length → ctx.msgLength = 4
  fits : ctx.msgLength < 2 ^ 32

/-- Between two calls at least one byte is still missing. -/
structure ReadContext.Waiting (ctx : ReadContext) : Prop extends ctx.Aligned where
  missing : ctx.readLength < ctx.msgLength

/-- A message that the framing carries. -/
def Carried (message : List UInt8) : Prop :=
  message ≠ [] ∧ message.length < 2 ^ 32

section Reader

variable {ctx : ReadContext} {remaining : List (List UInt8)} {rest : List UInt8}

theorem ReadContext.Waiting.new : ReadContext.new.Waiting := by
  constructor
  · constructor <;> decide
  · decide

theorem ReadContext.Waiting.incomplete (waiting : ctx.Waiting) :
    messagePrefix.Incomplete ctx.part := by
  have missing := waiting.missing
  have short : (ctx.buffer.take ctx.readLength).length < ctx.msgLength := by
    rw [List.length_take]
    omega
  unfold ReadContext.part
  cases state : ctx.state with
  | length =>
      apply LengthPrefix.Incomplete.header
      rw [waiting.header state] at short
      exact short
  | payload => exact .payload waiting.fits short

/-- Behind a header the reader holds nothing else of the frame. -/
theorem ReadContext.part_of_header (state : ctx.state = .payload) (start : ctx.readLength = 0) :
    ctx.part = messagePrefix.encode ctx.msgLength := by
  rw [ReadContext.part, state, start, List.take_zero, List.append_nil]

theorem ReadContext.Aligned.process_length (aligned : ctx.Aligned) (state : ctx.state = .length) :
    ∃ after, ctx.process = some (.continue, after) ∧ after.Aligned ∧ after.state = .payload ∧
      after.readLength = 0 ∧ after.msgLength = fromBeBytes (ctx.buffer.take 4) := by
  have header : (ctx.buffer.take 4).length = 4 := by
    rw [List.length_take, Nat.min_eq_left aligned.headerRoom]
  have fits : fromBeBytes (ctx.buffer.take 4) < 2 ^ 32 := by
    have bound := fromBeBytes_lt (ctx.buffer.take 4)
    rw [header] at bound
    exact bound
  rw [ReadContext.process, state, slice_of_le (Nat.zero_le 4) aligned.headerRoom, List.drop_zero]
  refine ⟨_, rfl, ⟨Nat.zero_le _, ?_, ?_, fun impossible => ?_, fits⟩, rfl, rfl, rfl⟩
  · rw [List.length_append, List.length_replicate]
    change fromBeBytes (ctx.buffer.take 4) ≤ _
    omega
  · rw [List.length_append]
    exact Nat.le_trans aligned.headerRoom (Nat.le_add_right _ _)
  · cases impossible

/-- A filled payload is handed on, and the reader waits for the next header. -/
theorem ReadContext.Aligned.process_payload (aligned : ctx.Aligned)
    (state : ctx.state = .payload) :
    ∃ after, ctx.process = some (.message (ctx.buffer.take ctx.msgLength), after) ∧
      after.Waiting ∧ after.part = [] := by
  rw [ReadContext.process, state, slice_of_le (Nat.zero_le _) aligned.room, List.drop_zero]
  exact ⟨_, rfl, ⟨⟨Nat.zero_le 4, aligned.headerRoom, aligned.headerRoom, fun _ => rfl,
    (by decide : 4 < 2 ^ 32)⟩, (by decide : 0 < 4)⟩, rfl⟩

/-- A filled buffer is processed without a slice out of range.  A length is that
of the next message, and a payload is the next message. -/
theorem ReadContext.Aligned.process (aligned : ctx.Aligned)
    (filled : ctx.readLength = ctx.msgLength) (carried : ∀ message ∈ remaining, Carried message)
    (stream : ctx.part ++ rest = messagePrefix.frames remaining) :
    ∃ result after later, ctx.process = some (result, after) ∧ after.Waiting ∧
      remaining = messagesOf (.ok result) ++ later ∧
      after.part ++ rest = messagePrefix.frames later := by
  have allFit : ∀ message ∈ remaining, message.length < messagePrefix.bound :=
    fun message member => (carried message member).2
  unfold ReadContext.part at stream
  cases state : ctx.state with
  | length =>
      simp only [state] at stream
      rw [filled, aligned.header state] at stream
      have full : (ctx.buffer.take 4).length = messagePrefix.width := by
        rw [List.length_take, Nat.min_eq_left aligned.headerRoom]
        rfl
      obtain ⟨message, tail, split, sameHeader, sameRest⟩ :=
        LengthPrefix.next_of_header full stream
      have next : Carried message := carried message (by rw [split]; simp)
      have decoded : fromBeBytes (ctx.buffer.take 4) = message.length := by
        rw [sameHeader]
        exact messagePrefix.decode_encode _ next.2
      obtain ⟨after, processed, alignedAfter, stateAfter, start, length⟩ :=
        aligned.process_length state
      have missing : after.readLength < after.msgLength := by
        rw [start, length, decoded]
        exact List.length_pos_of_ne_nil next.1
      refine ⟨_, after, remaining, processed, ⟨alignedAfter, missing⟩, rfl, ?_⟩
      rw [ReadContext.part_of_header stateAfter start, length, decoded, split, sameRest,
        LengthPrefix.frames_cons]
  | payload =>
      simp only [state] at stream
      have length : (ctx.buffer.take ctx.msgLength).length = ctx.msgLength := by
        rw [List.length_take, Nat.min_eq_left aligned.room]
      have framed : messagePrefix.encode (ctx.buffer.take ctx.msgLength).length ++
          (ctx.buffer.take ctx.msgLength ++ rest) = messagePrefix.frames remaining := by
        rw [length, ← List.append_assoc]
        rwa [filled] at stream
      have fits : (ctx.buffer.take ctx.msgLength).length < 2 ^ 32 := by
        rw [length]
        exact aligned.fits
      obtain ⟨tail, split, sameRest⟩ := LengthPrefix.next_of_payload fits allFit framed
      obtain ⟨after, processed, waiting, part⟩ := aligned.process_payload state
      refine ⟨_, after, tail, processed, waiting, split, ?_⟩
      rw [part, List.nil_append, sameRest]

theorem ReadContext.Waiting.advance (waiting : ctx.Waiting) {bytes : List UInt8}
    (within : bytes.length ≤ ctx.msgLength - ctx.readLength) :
    (ctx.advance bytes).Aligned ∧ (ctx.advance bytes).part = ctx.part ++ bytes := by
  have missing := waiting.missing
  have room := waiting.room
  have taken : (ctx.buffer.take ctx.readLength).length = ctx.readLength := by
    rw [List.length_take]
    omega
  have sameLength : (ctx.advance bytes).buffer.length = ctx.buffer.length := by
    simp only [ReadContext.advance, List.length_append, List.length_drop, taken]
    omega
  have held : (ctx.advance bytes).buffer.take (ctx.advance bytes).readLength =
      ctx.buffer.take ctx.readLength ++ bytes := by
    apply List.take_left'
    rw [List.length_append, taken]
    rfl
  refine ⟨⟨?_, ?_, ?_, waiting.header, waiting.fits⟩, ?_⟩
  · change ctx.readLength + bytes.length ≤ ctx.msgLength
    omega
  · rw [sameLength]
    exact room
  · rw [sameLength]
    exact waiting.headerRoom
  · have sameState : (ctx.advance bytes).state = ctx.state := rfl
    unfold ReadContext.part
    rw [held, sameState]
    cases ctx.state with
    | length => rfl
    | payload => exact (List.append_assoc _ _ _).symm

theorem ReadContext.Waiting.read_error (waiting : ctx.Waiting) (error : IoError)
    (stream : List UInt8) :
    ctx.read (.error error) stream = some (.error error, ctx, stream) := by
  rw [ReadContext.read, slice_of_le waiting.cursor waiting.room]
  rfl

/-- What a call does with the bytes that the socket gives it: they start the stream,
fit into the slice, and are none only if the socket gives none. -/
theorem ReadContext.Waiting.read_ok (waiting : ctx.Waiting) (limit : Nat)
    (stream : List UInt8) :
    ∃ bytes left, stream = bytes ++ left ∧ bytes.length ≤ ctx.msgLength - ctx.readLength ∧
      (bytes = [] → limit = 0 ∨ stream = []) ∧
      ctx.read (.ok limit) stream =
        if bytes = [] then
          some (.ok .eof, ctx, stream)
        else if (ctx.advance bytes).readLength = (ctx.advance bytes).msgLength then
          (ctx.advance bytes).process.map fun processed => (.ok processed.1, processed.2, left)
        else
          some (.ok .continue, ctx.advance bytes, left) := by
  have missing := waiting.missing
  have room := waiting.room
  have target : ((ctx.buffer.take ctx.msgLength).drop ctx.readLength).length =
      ctx.msgLength - ctx.readLength := by
    rw [List.length_drop, List.length_take, Nat.min_eq_left room]
  refine ⟨stream.take (min limit (ctx.msgLength - ctx.readLength)),
    stream.drop (stream.take (min limit (ctx.msgLength - ctx.readLength))).length, ?_, ?_,
    fun none => ?_, ?_⟩
  · rw [List.length_take]
    rcases Nat.le_total (min limit (ctx.msgLength - ctx.readLength)) stream.length with few | all
    · rw [Nat.min_eq_left few, List.take_append_drop]
    · rw [Nat.min_eq_right all, List.take_of_length_le all, List.drop_length, List.append_nil]
  · rw [List.length_take]
    omega
  · rcases List.take_eq_nil_iff.mp none with zero | empty
    · left
      omega
    · exact .inr empty
  · unfold ReadContext.read
    rw [slice_of_le waiting.cursor waiting.room, Option.bind_some]
    simp only [target]

/-- Whatever the socket answers, a call slices within the buffer, and what the
reader holds and the stream are still the frames of what it has not yielded. -/
theorem ReadContext.Waiting.read (waiting : ctx.Waiting) {stream : List UInt8}
    (carried : ∀ message ∈ remaining, Carried message)
    (inTransit : ctx.part ++ (stream ++ rest) = messagePrefix.frames remaining)
    (answer : SocketAnswer) :
    ∃ result after left later, ctx.read answer stream = some (result, after, left) ∧
      after.Waiting ∧ remaining = messagesOf result ++ later ∧
      after.part ++ (left ++ rest) = messagePrefix.frames later := by
  cases answer with
  | error error =>
      exact ⟨_, _, _, remaining, waiting.read_error error stream, waiting, rfl, inTransit⟩
  | ok limit =>
      obtain ⟨bytes, left, streamSplit, within, -, reads⟩ := waiting.read_ok limit stream
      obtain ⟨aligned, part⟩ := waiting.advance within
      have moved : (ctx.advance bytes).part ++ (left ++ rest) =
          messagePrefix.frames remaining := by
        rw [part, List.append_assoc, ← List.append_assoc bytes, ← streamSplit, inTransit]
      rw [reads]
      split
      · exact ⟨_, _, _, remaining, rfl, waiting, rfl, inTransit⟩
      · split
        · next filled =>
            obtain ⟨result, after, later, processed, waits, split, transit⟩ :=
              aligned.process filled carried moved
            exact ⟨.ok result, after, _, later, by rw [processed]; rfl, waits, split, transit⟩
        · next unfilled =>
            have short := Nat.lt_of_le_of_ne aligned.cursor unfilled
            exact ⟨_, _, _, remaining, rfl, ⟨aligned, short⟩, rfl, moved⟩

end Reader

/-! ## Writing -/

inductive WriteResult
  | complete
  | eof
  | chanClosed
deriving DecidableEq

inductive WriteState
  | length
  | payload
deriving DecidableEq

/-- The receiving end of the write queue. -/
structure WriteQueue where
  messages : List (List UInt8)
  connected : Bool
deriving DecidableEq

structure WriteContext where
  queue : WriteQueue
  lenBuffer : Vector UInt8 4
  msgBuffer : List UInt8
  msgLength : Nat
  writtenLength : Nat
  state : WriteState
deriving DecidableEq

def WriteContext.new : WriteContext where
  queue := ⟨[], true⟩
  lenBuffer := Vector.replicate 4 0
  msgBuffer := []
  msgLength := 0
  writtenLength := 0
  state := .payload

/-- How a pass through the loop of `write` ends. -/
inductive Pass
  | continue
  | return (result : Except IoError WriteResult)
deriving DecidableEq

/-- Hand the socket a slice and move the cursor by what it accepts. -/
def WriteContext.writeSlice (ctx : WriteContext) (answer : SocketAnswer) (target : List UInt8) :
    Pass × WriteContext × List UInt8 :=
  match answer with
  | .error error => (.return (.error error), ctx, [])
  | .ok limit =>
      let accepted := target.take limit
      if accepted = [] then
        (.return (.ok .eof), ctx, [])
      else
        (.continue, { ctx with writtenLength := ctx.writtenLength + accepted.length }, accepted)

/-- One pass through the loop, with the bytes that the socket accepts in it. -/
def WriteContext.pass (ctx : WriteContext) (answer : SocketAnswer) :
    Option (Pass × WriteContext × List UInt8) :=
  match ctx.state with
  | .length =>
      if ctx.writtenLength = 4 then
        some (.continue, { ctx with writtenLength := 0, state := .payload }, [])
      else
        (slice ctx.lenBuffer.toList ctx.writtenLength 4).map (ctx.writeSlice answer)
  | .payload =>
      if ctx.writtenLength = ctx.msgLength then
        match answer with
        | .error error => some (.return (.error error), ctx, [])
        | .ok _ =>
            match ctx.queue.messages with
            | [] =>
                if ctx.queue.connected then
                  some (.return (.ok .complete), ctx, [])
                else
                  some (.return (.ok .chanClosed), ctx, [])
            | msg :: messages =>
                some (.continue,
                  { queue := { ctx.queue with messages }
                    lenBuffer := toBeBytes (UInt32.ofNat msg.length)
                    msgBuffer := msg
                    msgLength := msg.length
                    writtenLength := 0
                    state := .length }, [])
      else
        (slice ctx.msgBuffer ctx.writtenLength ctx.msgLength).map (ctx.writeSlice answer)

/-- A call up to where the answers end: its result when it has returned, and the
bytes that the socket has accepted. -/
def WriteContext.write (ctx : WriteContext) : List SocketAnswer →
    Option (Option (Except IoError WriteResult) × WriteContext × List UInt8)
  | [] => some (none, ctx, [])
  | answer :: answers =>
      (ctx.pass answer).bind fun (pass, passed, accepted) =>
        match pass with
        | .return result => some (some result, passed, accepted)
        | .continue =>
            (passed.write answers).map fun (result, written, more) =>
              (result, written, accepted ++ more)

/-- The bytes of the current frame that the socket has not accepted. -/
def WriteContext.unsent (ctx : WriteContext) : List UInt8 :=
  match ctx.state with
  | .length => ctx.lenBuffer.toList.drop ctx.writtenLength ++ ctx.msgBuffer
  | .payload => ctx.msgBuffer.drop ctx.writtenLength

/-- All bytes that the messages in the hands of the writer still make. -/
def WriteContext.outstanding (ctx : WriteContext) : List UInt8 :=
  ctx.unsent ++ messagePrefix.frames ctx.queue.messages

/-- The cursor is inside the buffer that the state writes from. -/
structure WriteContext.Aligned (ctx : WriteContext) : Prop where
  message : ctx.msgLength = ctx.msgBuffer.length
  length : ctx.state = .length → ctx.writtenLength ≤ 4
  payload : ctx.state = .payload → ctx.writtenLength ≤ ctx.msgLength

section Writer

variable {ctx : WriteContext}

theorem WriteContext.Aligned.new : WriteContext.new.Aligned := by
  constructor <;> decide

/-- What the socket accepts of the rest of a buffer leaves the rest behind it. -/
theorem WriteContext.writeSlice_cases (ctx : WriteContext) (answer : SocketAnswer)
    {buffer : List UInt8} (ordered : ctx.writtenLength ≤ buffer.length) :
    ∃ pass written accepted,
      ctx.writeSlice answer (buffer.drop ctx.writtenLength) =
        (pass, { ctx with writtenLength := written }, accepted) ∧
      written ≤ buffer.length ∧
      accepted ++ buffer.drop written = buffer.drop ctx.writtenLength := by
  unfold WriteContext.writeSlice
  cases answer with
  | error error => exact ⟨_, _, _, rfl, ordered, rfl⟩
  | ok limit =>
      dsimp only
      split
      · exact ⟨_, _, _, rfl, ordered, rfl⟩
      · refine ⟨_, _, _, rfl, ?_, ?_⟩
        · rw [List.length_take, List.length_drop]
          omega
        · have rest : buffer.drop (ctx.writtenLength +
              ((buffer.drop ctx.writtenLength).take limit).length) =
                (buffer.drop ctx.writtenLength).drop limit := by
            rw [List.length_take, ← List.drop_drop]
            rcases Nat.le_total limit (buffer.drop ctx.writtenLength).length with within | beyond
            · rw [Nat.min_eq_left within]
            · rw [Nat.min_eq_right beyond, List.drop_length, List.drop_eq_nil_of_le beyond]
          rw [rest, List.take_append_drop]

/-- A pass slices within its buffers, and what the socket accepts in it are the
next outstanding bytes. -/
theorem WriteContext.Aligned.pass (aligned : ctx.Aligned) (answer : SocketAnswer) :
    ∃ pass after accepted, ctx.pass answer = some (pass, after, accepted) ∧ after.Aligned ∧
      accepted ++ after.outstanding = ctx.outstanding := by
  unfold WriteContext.pass
  cases state : ctx.state with
  | length =>
      have cursor := aligned.length state
      dsimp only
      split
      · next sent =>
          refine ⟨_, _, _, rfl, ⟨aligned.message, fun impossible => ?_, fun _ => Nat.zero_le _⟩, ?_⟩
          · cases impossible
          · have header : ctx.lenBuffer.toList.drop 4 = [] := by simp
            simp [WriteContext.outstanding, WriteContext.unsent, state, sent, header]
      · have width : ctx.lenBuffer.toList.length = 4 := by simp
        obtain ⟨pass, written, accepted, same, within, left⟩ :=
          ctx.writeSlice_cases answer (width.symm ▸ cursor)
        have whole : ctx.lenBuffer.toList.take 4 = ctx.lenBuffer.toList :=
          List.take_of_length_le (Nat.le_of_eq width)
        rw [slice_of_le cursor (Nat.le_of_eq width.symm), whole, Option.map_some, same]
        refine ⟨_, _, _, rfl, ⟨aligned.message, fun _ => width ▸ within, fun impossible => ?_⟩, ?_⟩
        · cases state.symm.trans impossible
        · simp only [WriteContext.outstanding, WriteContext.unsent, state]
          rw [← left]
          simp only [List.append_assoc]
  | payload =>
      have cursor := aligned.payload state
      dsimp only
      split
      · next written =>
          have flushed : ctx.unsent = [] := by
            simp [WriteContext.unsent, state, written, aligned.message]
          cases answer with
          | error error => exact ⟨_, _, _, rfl, aligned, rfl⟩
          | ok limit =>
              dsimp only
              split
              · split <;> exact ⟨_, _, _, rfl, aligned, rfl⟩
              · next msg messages queued =>
                  refine ⟨_, _, _, rfl, ⟨rfl, fun _ => Nat.zero_le _, fun impossible => ?_⟩, ?_⟩
                  · cases impossible
                  · rw [WriteContext.outstanding, WriteContext.outstanding, flushed, queued,
                      LengthPrefix.frames_cons]
                    simp [WriteContext.unsent, messagePrefix]
      · rw [aligned.message] at cursor
        obtain ⟨pass, written, accepted, same, within, left⟩ :=
          ctx.writeSlice_cases answer cursor
        rw [aligned.message, slice_of_le cursor (Nat.le_refl _), List.take_length,
          Option.map_some, same]
        refine ⟨_, _, _, rfl, ⟨aligned.message, fun impossible => ?_,
          fun _ => aligned.message ▸ within⟩, ?_⟩
        · cases state.symm.trans impossible
        · simp only [WriteContext.outstanding, WriteContext.unsent, state]
          rw [← left]
          simp only [List.append_assoc]

theorem WriteContext.Aligned.write (aligned : ctx.Aligned) (answers : List SocketAnswer) :
    ∃ result after accepted, ctx.write answers = some (result, after, accepted) ∧
      after.Aligned ∧ accepted ++ after.outstanding = ctx.outstanding := by
  induction answers generalizing ctx with
  | nil => exact ⟨_, _, _, rfl, aligned, rfl⟩
  | cons answer answers ih =>
      obtain ⟨pass, passed, accepted, passes, alignedNext, left⟩ := aligned.pass answer
      rw [WriteContext.write, passes, Option.bind_some]
      cases pass with
      | «return» result => exact ⟨_, _, _, rfl, alignedNext, left⟩
      | «continue» =>
          obtain ⟨result, after, more, writes, alignedAfter, leftMore⟩ := ih alignedNext
          dsimp only
          rw [writes, Option.map_some]
          refine ⟨_, _, _, rfl, alignedAfter, ?_⟩
          rw [List.append_assoc, leftMore, left]

end Writer

/-! ## The connection -/

/-- A writer and the reader at the other end, the bytes between them, and what
has been put into the queue and yielded so far. -/
structure Connection where
  writer : WriteContext
  reader : ReadContext
  stream : List UInt8
  queued : List (List UInt8)
  yielded : List (List UInt8)

def Connection.new : Connection :=
  ⟨.new, .new, [], [], []⟩

/-- What can happen next: a message enters the queue, the last handle of the
queue is dropped, some passes of a call of `write`, or a call of `read`. -/
inductive Connection.Event
  | enqueue (msg : List UInt8)
  | hangUp
  | write (answers : List SocketAnswer)
  | read (answer : SocketAnswer)

instance : Inhabited Connection.Event :=
  ⟨.hangUp⟩

def Connection.step (conn : Connection) : Connection.Event → Option Connection
  | .enqueue msg =>
      if conn.writer.queue.connected then
        some { conn with
          writer := { conn.writer with
            queue := { conn.writer.queue with
              messages := conn.writer.queue.messages ++ [msg] } }
          queued := conn.queued ++ [msg] }
      else
        none
  | .hangUp =>
      some { conn with
        writer := { conn.writer with
          queue := { conn.writer.queue with connected := false } } }
  | .write answers =>
      (conn.writer.write answers).map fun (_, writer, accepted) =>
        { conn with writer, stream := conn.stream ++ accepted }
  | .read answer =>
      (conn.reader.read answer conn.stream).map fun (result, reader, stream) =>
        { conn with reader, stream, yielded := conn.yielded ++ messagesOf result }

/-- Everything that was queued has been written, and read. -/
def Connection.Drained (conn : Connection) : Prop :=
  conn.writer.queue.messages = [] ∧ conn.writer.unsent = [] ∧ conn.stream = []

instance (conn : Connection) : Decidable conn.Drained :=
  inferInstanceAs (Decidable (_ ∧ _ ∧ _))

/-- A message that enters the queue is one that the framing carries. -/
def Connection.Carries (_ : Connection) : Connection.Event → Prop
  | .enqueue msg => Carried msg
  | _ => True

instance (conn : Connection) (event : Connection.Event) : Decidable (conn.Carries event) := by
  cases event <;> unfold Connection.Carries Carried <;> infer_instance

/-- The messages not yet yielded are exactly what is under way. -/
structure Connection.InTransit (conn : Connection) (remaining : List (List UInt8)) : Prop where
  reader : conn.reader.Waiting
  writer : conn.writer.Aligned
  carried : ∀ msg ∈ conn.queued, Carried msg
  order : conn.queued = conn.yielded ++ remaining
  bytes : conn.reader.part ++ (conn.stream ++ conn.writer.outstanding) =
    messagePrefix.frames remaining

namespace Connection.InTransit

variable {conn after : Connection} {remaining : List (List UInt8)}

theorem carried_remaining (transit : conn.InTransit remaining) :
    ∀ msg ∈ remaining, Carried msg := by
  intro msg member
  apply transit.carried
  rw [transit.order]
  exact List.mem_append_right _ member

theorem step (transit : conn.InTransit remaining) {event : Connection.Event}
    (carries : conn.Carries event) (stepped : conn.step event = some after) :
    ∃ later, after.InTransit later := by
  cases event with
  | enqueue msg =>
      simp only [Connection.step, Option.ite_none_right_eq_some, Option.some.injEq] at stepped
      obtain ⟨-, rfl⟩ := stepped
      refine ⟨remaining ++ [msg], transit.reader, ⟨transit.writer.message,
        transit.writer.length, transit.writer.payload⟩, ?_, ?_, ?_⟩
      · intro other member
        rcases List.mem_append.mp member with earlier | last
        · exact transit.carried other earlier
        · rw [List.mem_singleton.mp last]
          exact carries
      · change conn.queued ++ [msg] = conn.yielded ++ (remaining ++ [msg])
        rw [transit.order, List.append_assoc]
      · rw [LengthPrefix.frames_append, ← transit.bytes]
        simp [WriteContext.outstanding, WriteContext.unsent]
  | hangUp =>
      simp only [Connection.step, Option.some.injEq] at stepped
      subst stepped
      exact ⟨remaining, transit.reader, ⟨transit.writer.message,
        transit.writer.length, transit.writer.payload⟩, transit.carried, transit.order,
        transit.bytes⟩
  | write answers =>
      obtain ⟨result, writer, accepted, writes, aligned, left⟩ := transit.writer.write answers
      simp only [Connection.step, writes, Option.map_some, Option.some.injEq] at stepped
      subst stepped
      refine ⟨remaining, transit.reader, aligned, transit.carried, transit.order, ?_⟩
      change conn.reader.part ++ ((conn.stream ++ accepted) ++ writer.outstanding) = _
      rw [List.append_assoc, left, transit.bytes]
  | read answer =>
      obtain ⟨result, reader, left, later, reads, waiting, split, bytes⟩ :=
        transit.reader.read transit.carried_remaining transit.bytes answer
      simp only [Connection.step, reads, Option.map_some, Option.some.injEq] at stepped
      subst stepped
      refine ⟨later, waiting, transit.writer, transit.carried, ?_, bytes⟩
      change conn.queued = (conn.yielded ++ messagesOf result) ++ later
      rw [List.append_assoc, ← split, transit.order]

theorem remaining_of_drained (transit : conn.InTransit remaining) (drained : conn.Drained) :
    remaining = [] := by
  obtain ⟨queue, unsent, stream⟩ := drained
  have allFit : ∀ msg ∈ remaining, msg.length < messagePrefix.bound :=
    fun msg member => (transit.carried_remaining msg member).2
  have bytes := transit.bytes
  rw [WriteContext.outstanding, queue, unsent, stream] at bytes
  simp only [LengthPrefix.frames_nil, List.append_nil] at bytes
  exact LengthPrefix.eq_nil_of_incomplete transit.reader.incomplete allFit bytes

end Connection.InTransit

/-- Whatever short reads and writes, errors and moments of queueing there are,
the messages yielded are a prefix of the messages queued, and all of them once
everything has been written and read; no call slices out of range. -/
theorem yields_of_run (run : Run Connection.step (· = Connection.new))
    (carries : run.Meets Connection.Carries) :
    ∀ index ≤ run.length,
      (run.states index).yielded <+: (run.states index).queued ∧
      ((run.states index).Drained → (run.states index).yielded = (run.states index).queued) ∧
      (∀ answers, ((run.states index).writer.write answers).isSome = true) ∧
      ∀ answer,
        ((run.states index).reader.read answer (run.states index).stream).isSome = true := by
  intro index bound
  have transit : ∃ remaining, (run.states index).InTransit remaining := by
    refine run.invariant_of_meets carries (fun conn => ∃ remaining, conn.InTransit remaining)
      ?_ ?_ index bound
    · rintro _ rfl
      exact ⟨[], .new, .new, by simp [Connection.new], rfl, by decide⟩
    · rintro before event after ⟨remaining, transit⟩ carries stepped
      exact transit.step carries stepped
  obtain ⟨remaining, transit⟩ := transit
  refine ⟨⟨remaining, transit.order.symm⟩, fun drained => ?_, fun answers => ?_, fun answer => ?_⟩
  · rw [transit.order, transit.remaining_of_drained drained, List.append_nil]
  · obtain ⟨result, after, accepted, writes, -⟩ := transit.writer.write answers
    rw [writes]
    rfl
  · obtain ⟨result, after, left, later, reads, -⟩ :=
      transit.reader.read transit.carried_remaining transit.bytes answer
    rw [reads]
    rfl

/-- Two messages cut into pieces: the second enters the queue while the first is
being written, after the socket would have blocked. -/
def shortRun : Run Connection.step (· = Connection.new) :=
  Run.ofActions Connection.new rfl
    [.enqueue [7, 8, 9], .write [.ok 0, .ok 3, .error .wouldBlock], .read (.ok 2),
      .enqueue [5], .write [.ok 9, .ok 0, .ok 2], .read (.ok 9), .read (.ok 9), .read (.ok 1),
      .write [.ok 1, .ok 0, .ok 4, .ok 0, .ok 1, .ok 0], .read (.ok 9), .read (.ok 4),
      .read (.ok 4)]
    (by decide +kernel)

theorem yields_shortRun :
    (shortRun.states 9).yielded <+: (shortRun.states 9).queued ∧
      (shortRun.states 12).yielded = (shortRun.states 12).queued ∧
      (shortRun.states 12).yielded = [[7, 8, 9], [5]] := by
  have carries : shortRun.Meets Connection.Carries := by
    change ∀ index < 12, _
    decide +kernel
  exact ⟨(yields_of_run shortRun carries 9 (by decide)).1,
    (yields_of_run shortRun carries 12 (by decide)).2.1 (by decide +kernel), by decide +kernel⟩

end SimplifiedPrism
