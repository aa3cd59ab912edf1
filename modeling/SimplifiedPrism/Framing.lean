import Mathlib.Data.List.Basic
import Mathlib.Tactic.Common

/-!
# Length-prefixed framing

A message is sent as a header of fixed width that encodes its length, followed
by the message.  A stream of frames has one reading: a complete header gives the
length of the next message, a complete frame gives the message, and an
incomplete frame is the stream of no messages.  Any stream at all starts with some
complete frames, and their payloads are found from header to header.
-/

/-- A code of fixed width for the lengths below a bound. -/
structure LengthPrefix (Symbol : Type*) where
  width : Nat
  bound : Nat
  encode : Nat → List Symbol
  decode : List Symbol → Nat
  width_pos : 0 < width
  length_encode : ∀ length, (encode length).length = width
  decode_encode : ∀ length < bound, decode (encode length) = length

namespace LengthPrefix

variable {Symbol : Type*} (code : LengthPrefix Symbol)

/-- A message behind its length. -/
def frame (message : List Symbol) : List Symbol :=
  code.encode message.length ++ message

/-- The frames of some messages in order. -/
def frames (messages : List (List Symbol)) : List Symbol :=
  messages.flatMap code.frame

@[simp]
theorem frames_nil : code.frames [] = [] :=
  rfl

@[simp]
theorem frames_cons (message : List Symbol) (messages : List (List Symbol)) :
    code.frames (message :: messages) =
      code.encode message.length ++ (message ++ code.frames messages) := by
  simp [frames, frame]

@[simp]
theorem frames_append (first second : List (List Symbol)) :
    code.frames (first ++ second) = code.frames first ++ code.frames second := by
  simp [frames]

/-- What a receiver holds of a frame that has not fully arrived. -/
inductive Incomplete : List Symbol → Prop
  | header {part : List Symbol} (short : part.length < code.width) : Incomplete part
  | payload {length : Nat} {part : List Symbol} (fits : length < code.bound)
      (short : part.length < length) : Incomplete (code.encode length ++ part)

/-- The payloads of the complete frames that a stream starts with. -/
def payloads (stream : List Symbol) : List (List Symbol) :=
  if _complete : code.width + code.decode (stream.take code.width) ≤ stream.length then
    ((stream.drop code.width).take (code.decode (stream.take code.width))) ::
      payloads ((stream.drop code.width).drop (code.decode (stream.take code.width)))
  else
    []
termination_by stream.length
decreasing_by
  have positive := code.width_pos
  simp only [List.length_drop]
  omega

variable {code} {messages : List (List Symbol)} {rest : List Symbol}

theorem payloads_of_short {part : List Symbol} (short : part.length < code.width) :
    code.payloads part = [] := by
  rw [payloads, dif_neg (by omega)]

/-- Behind a header stands a payload of the length that it declares, if there is enough. -/
theorem payloads_header {header : List Symbol} (full : header.length = code.width) :
    code.payloads (header ++ rest) =
      if code.decode header ≤ rest.length then
        rest.take (code.decode header) :: code.payloads (rest.drop (code.decode header))
      else
        [] := by
  have sameHeader : (header ++ rest).take code.width = header := List.take_left' full
  have sameRest : (header ++ rest).drop code.width = rest := List.drop_left' full
  rw [payloads, sameHeader, sameRest, List.length_append, full]
  by_cases enough : code.decode header ≤ rest.length
  · rw [dif_pos (by omega), if_pos enough]
  · rw [dif_neg (by omega), if_neg enough]

theorem payloads_encode {length : Nat} (fits : length < code.bound) :
    code.payloads (code.encode length ++ rest) =
      if length ≤ rest.length then rest.take length :: code.payloads (rest.drop length)
      else [] := by
  rw [payloads_header (code.length_encode length), code.decode_encode length fits]

theorem payloads_of_incomplete {part : List Symbol} (incomplete : code.Incomplete part) :
    code.payloads part = [] := by
  cases incomplete with
  | header short => exact payloads_of_short short
  | payload fits short => rw [payloads_encode fits, if_neg (by omega)]

theorem next_of_header {header : List Symbol} (full : header.length = code.width)
    (stream : header ++ rest = code.frames messages) :
    ∃ message tail, messages = message :: tail ∧ header = code.encode message.length ∧
      rest = message ++ code.frames tail := by
  cases messages with
  | nil =>
      have empty := (List.append_eq_nil_iff.mp stream).1
      have positive := code.width_pos
      rw [← full, empty] at positive
      exact absurd positive (Nat.lt_irrefl 0)
  | cons message tail =>
      rw [frames_cons] at stream
      have sameWidth : header.length = (code.encode message.length).length := by
        rw [full, code.length_encode]
      obtain ⟨sameHeader, sameRest⟩ := List.append_inj stream sameWidth
      exact ⟨message, tail, rfl, sameHeader, sameRest⟩

/-- Behind a complete header the stream goes on with the message of that length. -/
theorem next_of_length {length : Nat} (fits : length < code.bound)
    (allFit : ∀ message ∈ messages, message.length < code.bound)
    (stream : code.encode length ++ rest = code.frames messages) :
    ∃ message tail, messages = message :: tail ∧ message.length = length ∧
      rest = message ++ code.frames tail := by
  obtain ⟨message, tail, split, sameHeader, sameRest⟩ :=
    next_of_header (code.length_encode length) stream
  have within : message.length < code.bound := allFit message (by rw [split]; simp)
  have sameLength := congrArg code.decode sameHeader
  rw [code.decode_encode length fits, code.decode_encode _ within] at sameLength
  exact ⟨message, tail, split, sameLength.symm, sameRest⟩

theorem next_of_payload {payload : List Symbol} (fits : payload.length < code.bound)
    (allFit : ∀ message ∈ messages, message.length < code.bound)
    (stream : code.encode payload.length ++ (payload ++ rest) = code.frames messages) :
    ∃ tail, messages = payload :: tail ∧ rest = code.frames tail := by
  obtain ⟨message, tail, split, sameLength, sameRest⟩ := next_of_length fits allFit stream
  obtain ⟨same, sameTail⟩ := List.append_inj sameRest sameLength.symm
  exact ⟨tail, by rw [split, same], sameTail⟩

theorem eq_nil_of_incomplete {part : List Symbol} (incomplete : code.Incomplete part)
    (allFit : ∀ message ∈ messages, message.length < code.bound)
    (stream : part = code.frames messages) : messages = [] := by
  cases incomplete with
  | header short =>
      cases messages with
      | nil => rfl
      | cons message tail =>
          have lengths := congrArg List.length stream
          rw [frames_cons, List.length_append, code.length_encode] at lengths
          omega
  | payload fits short =>
      obtain ⟨message, tail, split, sameLength, sameRest⟩ := next_of_length fits allFit stream
      have lengths := congrArg List.length sameRest
      rw [List.length_append] at lengths
      omega

end LengthPrefix
