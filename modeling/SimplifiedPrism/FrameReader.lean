import SimplifiedPrism.Peer

/-!
# The frame reader on any stream

A peer may send any bytes, in pieces of any size, and stop anywhere.  The reader
takes a read of no bytes for the end of the stream.  As long as a byte of the frame is
missing that is what it means; but the payload of a frame that declares the length
zero is read into an empty slice.  The reader gives the payloads of the complete
frames exactly for the streams without such a frame.
-/

namespace SimplifiedPrism

/-! ## Calling `read` until it reports the end -/

/-- What comes of calling `read` again and again: the messages, whether the end has
been reported, and what is left of the stream. -/
structure Reading where
  messages : List (List UInt8)
  eof : Bool
  left : List UInt8
deriving DecidableEq

/-- Call `read` until it reports the end or the socket has no further answer. -/
def ReadContext.readAll (ctx : ReadContext) : List SocketAnswer → List UInt8 → Option Reading
  | [], stream => some ⟨[], false, stream⟩
  | answer :: answers, stream =>
      (ctx.read answer stream).bind fun (result, after, left) =>
        match result with
        | .ok .eof => some ⟨[], true, left⟩
        | result =>
            (after.readAll answers left).map fun reading =>
              { reading with messages := messagesOf result ++ reading.messages }

/-- The socket reports no bytes only at the end of the stream or for an empty slice. -/
def Cuts (answers : List SocketAnswer) : Prop :=
  ∀ limit, .ok limit ∈ answers → 0 < limit

section Reader

variable {ctx : ReadContext} {stream : List UInt8}

/-- The reader has come to a payload of length zero. -/
structure ReadContext.Stuck (ctx : ReadContext) : Prop extends ctx.Aligned where
  state : ctx.state = .payload
  nothing : ctx.msgLength = 0

/-- What one call does: an error changes nothing, the end is reported where nothing is
left, and otherwise some bytes are taken from the stream. -/
inductive ReadCases (ctx : ReadContext) (stream : List UInt8) :
    SocketAnswer → Except IoError ReadResult → ReadContext → List UInt8 → Prop
  | error (error : IoError) : ReadCases ctx stream (.error error) (.error error) ctx stream
  | eof (limit : Nat) (nothing : stream = []) :
      ReadCases ctx stream (.ok limit) (.ok .eof) ctx stream
  | taken (limit : Nat) (result : ReadResult) (after : ReadContext) (left : List UInt8)
      (shorter : left.length < stream.length) (notEof : result ≠ .eof)
      (ready : after.Waiting ∨ after.Stuck)
      (nonempty : [] ∉ messagesOf (.ok result))
      (payloads : messagePrefix.payloads (ctx.part ++ stream) =
        messagesOf (.ok result) ++ messagePrefix.payloads (after.part ++ left)) :
      ReadCases ctx stream (.ok limit) (.ok result) after left

/-- A filled buffer is processed without a slice out of range: a header leaves the
payloads as they are, a payload is the next one. -/
theorem ReadContext.Aligned.process_cases (aligned : ctx.Aligned)
    (filled : ctx.readLength = ctx.msgLength) (positive : 0 < ctx.msgLength) :
    ∃ result after, ctx.process = some (result, after) ∧ result ≠ .eof ∧
      (after.Waiting ∨ after.Stuck) ∧ [] ∉ messagesOf (.ok result) ∧
      ∀ stream, messagePrefix.payloads (ctx.part ++ stream) =
        messagesOf (.ok result) ++ messagePrefix.payloads (after.part ++ stream) := by
  cases state : ctx.state with
  | length =>
      have header : (ctx.buffer.take 4).length = messagePrefix.width := by
        rw [List.length_take, Nat.min_eq_left aligned.headerRoom]
        rfl
      have held : ctx.part = ctx.buffer.take 4 := by
        rw [ReadContext.part, state, filled, aligned.header state]
      obtain ⟨after, processed, alignedAfter, stateAfter, start, length⟩ :=
        aligned.process_length state
      refine ⟨_, after, processed, by simp, ?_, by simp [messagesOf], fun stream => ?_⟩
      · rcases Nat.eq_zero_or_pos after.msgLength with zero | missing
        · exact .inr ⟨alignedAfter, stateAfter, zero⟩
        · exact .inl ⟨alignedAfter, start ▸ missing⟩
      · have fits : fromBeBytes (ctx.buffer.take 4) < messagePrefix.bound :=
          length ▸ alignedAfter.fits
        rw [held, ReadContext.part_of_header stateAfter start, length,
          LengthPrefix.payloads_encode fits, LengthPrefix.payloads_header header]
        rfl
  | payload =>
      have length : (ctx.buffer.take ctx.msgLength).length = ctx.msgLength := by
        rw [List.length_take, Nat.min_eq_left aligned.room]
      have held : ctx.part = messagePrefix.encode ctx.msgLength ++
          ctx.buffer.take ctx.msgLength := by
        rw [ReadContext.part, state, filled]
      obtain ⟨after, processed, waiting, part⟩ := aligned.process_payload state
      refine ⟨_, after, processed, by simp, .inl waiting, ?_, fun stream => ?_⟩
      · intro empty
        rw [messagesOf, List.mem_singleton] at empty
        rw [← empty, List.length_nil] at length
        omega
      · rw [held, part, List.append_assoc, LengthPrefix.payloads_encode aligned.fits,
          if_pos (by rw [List.length_append]; omega), List.take_left' length,
          List.drop_left' length]
        rfl

/-- Where a byte is missing a call does one of the things listed. -/
theorem ReadContext.Waiting.read_cases (waiting : ctx.Waiting) (stream : List UInt8)
    {answer : SocketAnswer} (cut : ∀ limit, answer = .ok limit → 0 < limit) :
    ∃ result after left, ctx.read answer stream = some (result, after, left) ∧
      ReadCases ctx stream answer result after left := by
  have missing := waiting.missing
  cases answer with
  | error error => exact ⟨_, _, _, waiting.read_error error stream, .error error⟩
  | ok limit =>
      have positive := cut limit rfl
      obtain ⟨bytes, left, rfl, within, none, reads⟩ := waiting.read_ok limit stream
      by_cases ended : bytes = []
      · rw [if_pos ended] at reads
        have nothing := (none ended).resolve_left (by omega)
        exact ⟨_, _, _, reads, .eof limit nothing⟩
      obtain ⟨aligned, part⟩ := waiting.advance within
      have shorter : left.length < (bytes ++ left).length := by
        have some := List.length_pos_of_ne_nil ended
        rw [List.length_append]
        omega
      have moved : ctx.part ++ (bytes ++ left) = (ctx.advance bytes).part ++ left := by
        rw [part, List.append_assoc]
      rw [if_neg ended] at reads
      by_cases filled : (ctx.advance bytes).readLength = (ctx.advance bytes).msgLength
      · have positive : 0 < (ctx.advance bytes).msgLength := Nat.zero_lt_of_lt missing
        obtain ⟨result, after, processed, notEof, ready, nonempty, payloads⟩ :=
          aligned.process_cases filled positive
        rw [if_pos filled, processed] at reads
        exact ⟨_, _, _, reads, .taken limit result after left shorter notEof ready nonempty
          (by rw [moved, payloads])⟩
      · rw [if_neg filled] at reads
        have short := Nat.lt_of_le_of_ne aligned.cursor filled
        exact ⟨_, _, _, reads, .taken limit .continue _ left shorter (by simp)
          (.inl ⟨aligned, short⟩) (by simp [messagesOf]) (by rw [moved]; rfl)⟩

/-- Where the payload is empty a call reports the end, whatever is left. -/
theorem ReadContext.Stuck.read (stuck : ctx.Stuck) (stream : List UInt8) (answer : SocketAnswer) :
    ctx.read answer stream = some (answer.map fun _ => .eof, ctx, stream) := by
  have cursor := stuck.cursor
  rw [stuck.nothing] at cursor
  rw [ReadContext.read, slice_of_le stuck.cursor stuck.room, stuck.nothing]
  cases answer with
  | error error => rfl
  | ok limit => simp [Except.map]

theorem ReadContext.Stuck.payloads (stuck : ctx.Stuck) (stream : List UInt8) :
    messagePrefix.payloads (ctx.part ++ stream) = [] :: messagePrefix.payloads stream := by
  have cursor := stuck.cursor
  rw [stuck.nothing] at cursor
  rw [ReadContext.part_of_header stuck.state (Nat.le_zero.mp cursor), stuck.nothing,
    LengthPrefix.payloads_encode (by decide : 0 < messagePrefix.bound),
    if_pos (Nat.zero_le _)]
  simp

/-! ## Whole runs -/

/-- What is said of the calls from some state on: with an answer for every byte left
and one more the end is reported, and then the messages are the payloads of what was
left exactly if none of these is empty. -/
structure Reading.Exact (reading : Reading) (payloads : List (List UInt8)) (stream : List UInt8)
    (answers : List SocketAnswer) : Prop where
  eof : stream.length < answers.countP Except.isOk → reading.eof = true
  iff : reading.eof = true →
    (reading.messages = payloads ∧ reading.left = [] ↔ [] ∉ payloads)

theorem ReadContext.readAll_of_eof {answer : SocketAnswer} {answers : List SocketAnswer}
    {after : ReadContext} {left : List UInt8}
    (reads : ctx.read answer stream = some (.ok .eof, after, left)) :
    ctx.readAll (answer :: answers) stream = some ⟨[], true, left⟩ := by
  rw [readAll, reads]
  rfl

theorem ReadContext.readAll_of_ne {answer : SocketAnswer} {answers : List SocketAnswer}
    {result : Except IoError ReadResult} {after : ReadContext} {left : List UInt8}
    (reads : ctx.read answer stream = some (result, after, left)) (notEof : result ≠ .ok .eof) :
    ctx.readAll (answer :: answers) stream =
      (after.readAll answers left).map fun reading =>
        { reading with messages := messagesOf result ++ reading.messages } := by
  rw [readAll, reads, Option.bind_some]
  rcases result with error | _ | payload | _
  · rfl
  · rfl
  · rfl
  · exact absurd rfl notEof

theorem ReadContext.readAll_exact (ready : ctx.Waiting ∨ ctx.Stuck)
    {answers : List SocketAnswer} (cuts : Cuts answers) :
    ∃ reading, ctx.readAll answers stream = some reading ∧
      reading.Exact (messagePrefix.payloads (ctx.part ++ stream)) stream answers := by
  induction answers generalizing ctx stream with
  | nil => exact ⟨_, rfl, by simp, by simp⟩
  | cons answer answers ih =>
      have cut : ∀ limit, answer = .ok limit → 0 < limit := by
        rintro limit rfl
        exact cuts limit List.mem_cons_self
      have later : Cuts answers := fun limit member => cuts limit (List.mem_cons_of_mem _ member)
      rcases ready with waiting | stuck
      · obtain ⟨result, after, left, reads, cases⟩ := waiting.read_cases stream cut
        cases cases with
        | error error =>
            obtain ⟨reading, run, exact⟩ := ih (.inl waiting) later
            rw [readAll_of_ne reads (by simp), run]
            exact ⟨_, rfl, exact.eof, exact.iff⟩
        | eof limit nothing =>
            subst nothing
            rw [readAll_of_eof reads]
            refine ⟨_, rfl, fun _ => rfl, fun _ => ?_⟩
            rw [List.append_nil, LengthPrefix.payloads_of_incomplete waiting.incomplete]
            simp
        | taken limit result after left shorter notEof ready nonempty payloads =>
            obtain ⟨reading, run, exact⟩ := ih ready later
            rw [readAll_of_ne reads (by simpa using notEof), run, payloads]
            refine ⟨_, rfl, fun enough => ?_, fun ended => ?_⟩
            · apply exact.eof
              rw [List.countP_cons_of_pos rfl] at enough
              omega
            · have tail := exact.iff ended
              simpa [nonempty] using tail
      · have reads := stuck.read stream answer
        rw [stuck.payloads]
        cases answer with
        | error error =>
            obtain ⟨reading, run, exact⟩ := @ih ctx stream (.inr stuck) later
            rw [stuck.payloads] at exact
            rw [readAll_of_ne reads (by simp [Except.map]), run]
            exact ⟨_, rfl, exact.eof, exact.iff⟩
        | ok limit =>
            rw [readAll_of_eof reads]
            exact ⟨_, rfl, fun _ => rfl, fun _ => by simp⟩

end Reader

/-- However the socket cuts a stream into pieces, the reader stays within its buffer
and reports the end when it has been asked for every byte and once more.  It then has
yielded the payloads of the complete frames and has consumed the whole stream exactly
if no complete frame of the stream is empty. -/
theorem reads_frames_iff (stream : List UInt8) {answers : List SocketAnswer}
    (cuts : Cuts answers) :
    ∃ reading, ReadContext.new.readAll answers stream = some reading ∧
      (stream.length < answers.countP Except.isOk → reading.eof = true) ∧
      (reading.eof = true →
        (reading.messages = messagePrefix.payloads stream ∧ reading.left = [] ↔
          [] ∉ messagePrefix.payloads stream)) := by
  obtain ⟨reading, run, exact⟩ :=
    @ReadContext.readAll_exact ReadContext.new stream (.inl ReadContext.Waiting.new) answers cuts
  have start : ReadContext.new.part = [] := rfl
  rw [start, List.nil_append] at exact
  exact ⟨reading, run, exact.eof, exact.iff⟩

theorem cuts_replicate (count limit : Nat) : Cuts (List.replicate count (.ok (limit + 1))) := by
  intro other member
  cases List.eq_of_mem_replicate member
  exact Nat.succ_pos limit

/-- Two frames and a part of a third, read in pieces of up to three bytes. -/
theorem reads_frames_truncated :
    ∃ reading, ReadContext.new.readAll (List.replicate 14 (.ok 3))
        [0, 0, 0, 2, 7, 8, 0, 0, 0, 1, 9, 0, 0] = some reading ∧
      reading.messages = messagePrefix.payloads [0, 0, 0, 2, 7, 8, 0, 0, 0, 1, 9, 0, 0] ∧
      reading.left = [] := by
  have payloads : messagePrefix.payloads [0, 0, 0, 2, 7, 8, 0, 0, 0, 1, 9, 0, 0] =
      [[7, 8], [9]] := by
    simp [LengthPrefix.payloads, messagePrefix, fromBeBytes]
  obtain ⟨reading, run, eof, exactly⟩ :=
    reads_frames_iff [0, 0, 0, 2, 7, 8, 0, 0, 0, 1, 9, 0, 0] (cuts_replicate 14 2)
  exact ⟨reading, run, (exactly (eof (by decide))).mpr (by simp [payloads])⟩

/-- A frame without a payload ends the reading before a frame of one byte. -/
theorem stops_at_empty_frame :
    Cuts (List.replicate 10 (.ok 9)) ∧
      ReadContext.new.readAll (List.replicate 10 (.ok 9)) [0, 0, 0, 0, 0, 0, 0, 1, 7] =
        some ⟨[], true, [0, 0, 0, 1, 7]⟩ ∧
      messagePrefix.payloads [0, 0, 0, 0, 0, 0, 0, 1, 7] = [[], [7]] :=
  ⟨cuts_replicate 10 8, by decide +kernel, by
    simp [LengthPrefix.payloads, messagePrefix, fromBeBytes]⟩

end SimplifiedPrism
