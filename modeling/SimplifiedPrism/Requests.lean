import SimplifiedPrism.FiniteMap

/-!
# Requests

The HTTP interface of a node.  A request names an endpoint, some with a `lambda`, and is
turned into a signal for the miner or the generator.  Each of the two runs a loop that is
switched by its signals: it waits for one while it is paused, and looks for one before
every pass while it runs.
-/

namespace SimplifiedPrism

/-! ## Numbers -/

/-- Why `parse::<u64>` fails. -/
inductive IntErrorKind
  | empty
  | invalidDigit
  | posOverflow
deriving DecidableEq

/-- How the error is displayed. -/
def IntErrorKind.text : IntErrorKind → String
  | .empty => "cannot parse integer from empty string"
  | .invalidDigit => "invalid digit found in string"
  | .posOverflow => "number too large to fit in target type"

/-- The loop over the digits, which stops at the first one that is wrong or too much. -/
def parseDigits (result : Nat) : List Char → Except IntErrorKind Nat
  | [] => .ok result
  | digit :: rest =>
      if digit.isDigit then
        let next := 10 * result + (digit.toNat - '0'.toNat)
        if next < 2 ^ 64 then parseDigits next rest else .error .posOverflow
      else
        .error .invalidDigit

/-- The standard library's `parse::<u64>`: a plus sign may stand before the digits. -/
def parseU64 (text : String) : Except IntErrorKind UInt64 :=
  match text.toList with
  | [] => .error .empty
  | '+' :: [] => .error .invalidDigit
  | '+' :: digits => (parseDigits 0 digits).map UInt64.ofNat
  | digits => (parseDigits 0 digits).map UInt64.ofNat

theorem parseDigits_eq_ok {result value : Nat} {digits : List Char} (small : result < 2 ^ 64) :
    parseDigits result digits = .ok value ↔
      (∀ digit ∈ digits, digit.isDigit = true) ∧ Nat.ofDigitChars 10 digits result = value ∧
        value < 2 ^ 64 := by
  induction digits generalizing result with
  | nil =>
      rw [parseDigits, Except.ok.injEq, Nat.ofDigitChars_nil]
      constructor
      · rintro rfl
        exact ⟨by simp, rfl, small⟩
      · exact fun spelled => spelled.2.1
  | cons digit rest ih =>
      rw [parseDigits, Nat.ofDigitChars_cons, List.forall_mem_cons]
      dsimp only
      split
      · next isDigit =>
          split
          · next fits =>
              rw [ih fits]
              simp [isDigit]
          · next large =>
              have grows : 10 * result + (digit.toNat - '0'.toNat) ≤
                  Nat.ofDigitChars 10 rest (10 * result + (digit.toNat - '0'.toNat)) := by
                rw [Nat.ofDigitChars_eq_ofDigitChars_zero]
                have power : 0 < 10 ^ rest.length := Nat.pow_pos (by decide)
                exact Nat.le_trans (Nat.le_mul_of_pos_left _ power) (Nat.le_add_right _ _)
              constructor
              · intro impossible
                cases impossible
              · rintro ⟨-, same, fits⟩
                omega
      · next noDigit => simp [noDigit]

/-- The texts that stand for a number: digits, and perhaps a plus sign before them. -/
def Spells (text : String) (value : UInt64) : Prop :=
  ∃ digits, (text.toList = digits ∨ text.toList = '+' :: digits) ∧ digits ≠ [] ∧
    (∀ digit ∈ digits, digit.isDigit = true) ∧ Nat.ofDigitChars 10 digits 0 = value.toNat

theorem parseU64_eq_ok {text : String} {value : UInt64} :
    parseU64 text = .ok value ↔ Spells text value := by
  have digitsOnly (digits : List Char) :
      (parseDigits 0 digits).map UInt64.ofNat = .ok value ↔
        (∀ digit ∈ digits, digit.isDigit = true) ∧
          Nat.ofDigitChars 10 digits 0 = value.toNat := by
    constructor
    · intro parsed
      cases number : parseDigits 0 digits with
      | error kind =>
          rw [number] at parsed
          cases parsed
      | ok result =>
          obtain ⟨allDigits, same, fits⟩ := (parseDigits_eq_ok (by decide)).mp number
          rw [number] at parsed
          cases parsed
          refine ⟨allDigits, ?_⟩
          rw [same, UInt64.toNat_ofNat_of_lt' fits]
    · rintro ⟨allDigits, same⟩
      rw [(parseDigits_eq_ok (by decide)).mpr ⟨allDigits, same, value.toNat_lt⟩]
      exact congrArg Except.ok UInt64.ofNat_toNat
  have noSign {digits : List Char} (allDigits : ∀ digit ∈ '+' :: digits, digit.isDigit = true) :
      False := by
    have sign := allDigits '+' List.mem_cons_self
    revert sign
    decide
  unfold parseU64 Spells
  split
  · next empty =>
      simp only [empty]
      constructor
      · intro impossible
        cases impossible
      · rintro ⟨digits, rfl | impossible, nonempty, -⟩
        · exact absurd rfl nonempty
        · cases impossible
  · next sign =>
      simp only [sign]
      constructor
      · intro impossible
        cases impossible
      · rintro ⟨digits, rfl | same, nonempty, allDigits, -⟩
        · exact (noSign allDigits).elim
        · cases same
          exact absurd rfl nonempty
  · next digits nonempty sign =>
      simp only [sign]
      rw [digitsOnly]
      constructor
      · rintro ⟨allDigits, same⟩
        exact ⟨digits, .inr rfl, fun empty => nonempty empty, allDigits, same⟩
      · rintro ⟨others, rfl | same, -, allDigits, spelled⟩
        · exact (noSign allDigits).elim
        · cases same
          exact ⟨allDigits, spelled⟩
  · next nonempty alone signed =>
      rw [digitsOnly]
      constructor
      · rintro ⟨allDigits, same⟩
        exact ⟨_, .inl rfl, nonempty, allDigits, same⟩
      · rintro ⟨others, rfl | same, -, allDigits, spelled⟩
        · exact ⟨allDigits, spelled⟩
        · exact absurd same (signed others)

/-- Every number is read back from its decimal form. -/
theorem spells_repr (value : UInt64) : Spells (Nat.repr value.toNat) value := by
  refine ⟨Nat.toDigits 10 value.toNat, .inl Nat.toList_repr, Nat.toDigits_ne_nil, ?_,
    Nat.ofDigitChars_ten_toDigits⟩
  intro digit member
  exact Nat.isDigit_of_mem_toDigits (by decide) (by decide) member

/-! ## Signals -/

/-- The control signals of the miner. -/
inductive MinerSignal
  | start (lambda : UInt64)
  | exit
deriving DecidableEq

/-- The control signals of the generator. -/
inductive GeneratorSignal
  | start (lambda : UInt64)
  | paused
  | exit
  | ico
  | balance
  | printAddr
  | printIco
  | printTransaction
deriving DecidableEq

/-- What a request asks for. -/
inductive Command
  | miner (signal : MinerSignal)
  | generator (signal : GeneratorSignal)
deriving DecidableEq

def Command.forMiner : Command → Option MinerSignal
  | .miner signal => some signal
  | .generator _ => none

def Command.forGenerator : Command → Option GeneratorSignal
  | .miner _ => none
  | .generator signal => some signal

/-! ## Endpoints -/

/-- A URL as the server reads it. -/
structure Url where
  path : String
  queryPairs : List (String × String)

structure ApiResponse where
  statusCode : Nat
  success : Bool
  message : String
deriving DecidableEq

/-- The `lambda` of a query, of which the last one counts. -/
def Url.lambda (url : Url) : Except String UInt64 :=
  let params : HashMap String String :=
    url.queryPairs.foldl (fun params pair => params.insert pair.1 pair.2) ∅
  match params.lookup "lambda" with
  | none => .error "missing lambda"
  | some lambda =>
      match parseU64 lambda with
      | .ok lambda => .ok lambda
      | .error kind => .error ("error parsing lambda: " ++ kind.text)

/-- The endpoints. -/
def Url.command (url : Url) : Except ApiResponse Command :=
  let withLambda (command : UInt64 → Command) : Except ApiResponse Command :=
    match url.lambda with
    | .ok lambda => .ok (command lambda)
    | .error message => .error ⟨200, false, message⟩
  if url.path = "/miner/start" then
    withLambda fun lambda => .miner (.start lambda)
  else if url.path = "/generator/start" then
    withLambda fun lambda => .generator (.start lambda)
  else if url.path = "/generator/balance" then
    .ok (.generator .balance)
  else if url.path = "/generator/print_addr" then
    .ok (.generator .printAddr)
  else if url.path = "/generator/ico" then
    .ok (.generator .ico)
  else if url.path = "/generator/print_ico" then
    .ok (.generator .printIco)
  else if url.path = "/generator/print_transaction" then
    .ok (.generator .printTransaction)
  else
    .error ⟨404, false, "endpoint not found"⟩

/-- The answer to a request, whose URL may have failed to parse, and the signal that is
sent before the answer. -/
def serve : Except String Url → ApiResponse × Option Command
  | .error e => (⟨200, false, "error parsing url: " ++ e⟩, none)
  | .ok url =>
      match url.command with
      | .ok command => (⟨200, true, "ok"⟩, some command)
      | .error response => (response, none)

/-- The last pair for a key is the one that a collected map keeps. -/
theorem lookup_collected {pairs : List (String × String)} {key value : String} :
    (pairs.foldl (fun params pair => params.insert pair.1 pair.2)
        (∅ : HashMap String String)).lookup key = some value ↔
      ∃ front back, pairs = front ++ (key, value) :: back ∧ ∀ pair ∈ back, pair.1 ≠ key := by
  induction pairs using List.reverseRecOn with
  | nil => simp
  | append_singleton pairs last ih =>
      rw [List.foldl_append, List.foldl_cons, List.foldl_nil, HashMap.lookup_insert_ite]
      split
      · next same =>
          rw [Option.some.injEq]
          constructor
          · rintro rfl
            exact ⟨pairs, [], by rw [same], by simp⟩
          · rintro ⟨front, back, split, later⟩
            rcases List.eq_nil_or_concat back with rfl | ⟨rest, final, rfl⟩
            · have ends := (List.append_inj' split rfl).2
              cases ends
              rfl
            · rw [List.concat_eq_append, ← List.cons_append, ← List.append_assoc] at split
              have ends := (List.append_inj' split rfl).2
              cases ends
              exact absurd same.symm (later last (by simp))
      · next different =>
          rw [ih]
          constructor
          · rintro ⟨front, back, rfl, later⟩
            refine ⟨front, back ++ [last], by simp, ?_⟩
            intro pair member
            rcases List.mem_append.mp member with early | final
            · exact later pair early
            · rw [List.mem_singleton.mp final]
              exact fun same => different same.symm
          · rintro ⟨front, back, split, later⟩
            rcases List.eq_nil_or_concat back with rfl | ⟨rest, final, rfl⟩
            · have ends := (List.append_inj' split rfl).2
              cases ends
              exact absurd rfl different
            · rw [List.concat_eq_append, ← List.cons_append, ← List.append_assoc] at split
              exact ⟨front, rest, (List.append_inj' split rfl).1, fun pair member =>
                later pair (by simp [member])⟩

/-- The last `lambda` of the query stands for the number. -/
def Url.Names (url : Url) (value : UInt64) : Prop :=
  ∃ front back text, url.queryPairs = front ++ ("lambda", text) :: back ∧
    (∀ pair ∈ back, pair.1 ≠ "lambda") ∧ Spells text value

theorem lambda_eq_ok {url : Url} {value : UInt64} :
    url.lambda = .ok value ↔ url.Names value := by
  unfold Url.lambda
  dsimp only
  constructor
  · intro found
    split at found
    · cases found
    next text last =>
    split at found
    · next parsed =>
        cases found
        obtain ⟨front, back, pairs, later⟩ := lookup_collected.mp last
        exact ⟨front, back, text, pairs, later, parseU64_eq_ok.mp parsed⟩
    · cases found
  · rintro ⟨front, back, text, pairs, later, spelled⟩
    rw [lookup_collected.mpr ⟨front, back, pairs, later⟩]
    dsimp only
    rw [parseU64_eq_ok.mpr spelled]

/-- A start signal is sent exactly for the endpoint and the number that it names, and the
answer tells whether a signal was sent. -/
theorem start_iff_of_serve (url : Url) (value : UInt64) :
    ((serve (.ok url)).2 = some (.miner (.start value)) ↔
        url.path = "/miner/start" ∧ url.Names value) ∧
      ((serve (.ok url)).2 = some (.generator (.start value)) ↔
        url.path = "/generator/start" ∧ url.Names value) ∧
      ((serve (.ok url)).1.success = true ↔ (serve (.ok url)).2 ≠ none) := by
  rw [← lambda_eq_ok]
  unfold serve Url.command
  cases named : url.lambda with
  | ok number => refine ⟨?_, ?_, ?_⟩ <;> dsimp only <;> split_ifs <;> simp_all
  | error message => refine ⟨?_, ?_, ?_⟩ <;> dsimp only <;> split_ifs <;> simp_all

/-- What can be asked for: no request stops the miner, and none stops or pauses the
generator. -/
def Command.Offered : Command → Prop
  | .miner signal => ∃ lambda, signal = .start lambda
  | .generator signal => signal ≠ .paused ∧ signal ≠ .exit

theorem offered_of_command {url : Url} {command : Command} (asked : url.command = .ok command) :
    command.Offered := by
  unfold Url.command at asked
  dsimp only at asked
  split at asked
  · split at asked
    · cases asked
      exact ⟨_, rfl⟩
    · cases asked
  split at asked
  · split at asked
    · cases asked
      exact ⟨by simp, by simp⟩
    · cases asked
  repeat'
    split at asked
    · cases asked
      exact ⟨by simp, by simp⟩
  cases asked

theorem offered_of_serve {url : Except String Url} {command : Command}
    (sent : (serve url).2 = some command) : command.Offered := by
  cases url with
  | error e => cases sent
  | ok url =>
      rw [serve] at sent
      cases asked : url.command with
      | error response =>
          rw [asked] at sent
          cases sent
      | ok other =>
          rw [asked] at sent
          cases sent
          exact offered_of_command asked

/-! ## Loops -/

/-- The operating state of the miner and of the generator. -/
inductive OperatingState
  | paused
  | run (lambda : UInt64)
  | shutDown
deriving DecidableEq

/-- The miner's `handle_control_signal`. -/
def MinerSignal.handle (_ : OperatingState) : MinerSignal → OperatingState
  | .exit => .shutDown
  | .start lambda => .run lambda

/-- What the generator's `handle_control_signal` does to the operating state. -/
def GeneratorSignal.handle (operatingState : OperatingState) : GeneratorSignal → OperatingState
  | .exit => .shutDown
  | .start lambda => .run lambda
  | .paused => .paused
  | .balance | .printAddr | .ico | .printIco | .printTransaction => operatingState

def MinerSignal.lambda : MinerSignal → Option UInt64
  | .start lambda => some lambda
  | .exit => none

def GeneratorSignal.lambda : GeneratorSignal → Option UInt64
  | .start lambda => some lambda
  | .paused | .exit | .ico | .balance | .printAddr | .printIco | .printTransaction => none

/-- The state of a loop that has been started with these values, one after the other, and
never paused or ended. -/
def OperatingState.started (lambdas : List UInt64) : OperatingState :=
  match lambdas.getLast? with
  | none => .paused
  | some lambda => .run lambda

theorem OperatingState.mem_of_started {lambdas : List UInt64} {lambda : UInt64}
    (runs : OperatingState.started lambdas = .run lambda) : lambda ∈ lambdas := by
  unfold started at runs
  split at runs
  · cases runs
  · next last =>
      cases runs
      exact List.mem_of_getLast? last

theorem MinerSignal.foldl_handle {handled : List MinerSignal}
    (offered : ∀ signal ∈ handled, Command.Offered (.miner signal)) :
    handled.foldl MinerSignal.handle .paused = .started (handled.filterMap lambda) := by
  induction handled using List.reverseRecOn with
  | nil => rfl
  | append_singleton handled signal ih =>
      obtain ⟨value, rfl⟩ := offered signal (by simp)
      simp [OperatingState.started, handle, lambda, List.filterMap_append]

theorem GeneratorSignal.foldl_handle {handled : List GeneratorSignal}
    (offered : ∀ signal ∈ handled, Command.Offered (.generator signal)) :
    handled.foldl GeneratorSignal.handle .paused = .started (handled.filterMap lambda) := by
  induction handled using List.reverseRecOn with
  | nil => rfl
  | append_singleton handled signal ih =>
      have before := ih fun other member => offered other (by simp [member])
      rw [List.foldl_append, before]
      obtain ⟨unpaused, running⟩ := offered signal (by simp)
      cases signal with
      | paused => exact absurd rfl unpaused
      | exit => exact absurd rfl running
      | start value =>
          simp [OperatingState.started, handle, lambda, List.filterMap_append]
      | ico | balance | printAddr | printIco | printTransaction =>
          rw [List.filterMap_append, List.filterMap_cons_none rfl, List.filterMap_nil,
            List.append_nil]
          rfl

/-- The operating state and the control channel of a thread. -/
structure Context (Signal : Type) where
  operatingState : OperatingState
  controlChan : List Signal

/-- The handles of the thread send a signal. -/
def Context.send {Signal : Type} (context : Context Signal) (signal : Signal) : Context Signal :=
  { context with controlChan := context.controlChan ++ [signal] }

/-- What the first part of a pass of the loop leaves: the signal it handled, and whether
the second part follows. -/
structure Turn (Signal : Type) where
  context : Context Signal
  handled : Option Signal
  continues : Bool

/-- The first part of a pass: `recv` blocks while the thread is paused, `try_recv` does not
while it runs. -/
def Context.pass {Signal : Type} (handle : OperatingState → Signal → OperatingState)
    (context : Context Signal) : Option (Turn Signal) :=
  match context.operatingState, context.controlChan with
  | .paused, [] => none
  | .paused, signal :: rest => some ⟨⟨handle .paused signal, rest⟩, some signal, false⟩
  | .shutDown, _ => none
  | .run lambda, [] => some ⟨⟨.run lambda, []⟩, none, true⟩
  | .run lambda, signal :: rest =>
      let next := handle (.run lambda) signal
      some ⟨⟨next, rest⟩, some signal, next ≠ .shutDown⟩

variable {Signal : Type} {handle : OperatingState → Signal → OperatingState}
variable {context : Context Signal} {passed : Turn Signal}

theorem Context.queue_of_pass (passes : context.pass handle = some passed) :
    context.controlChan = passed.handled.toList ++ passed.context.controlChan ∧
      passed.context.operatingState =
        passed.handled.toList.foldl handle context.operatingState := by
  obtain ⟨operatingState, controlChan⟩ := context
  cases operatingState with
  | shutDown => cases controlChan <;> cases passes
  | paused | run lambda =>
      cases controlChan <;> cases passes <;> exact ⟨rfl, rfl⟩

theorem Context.handled_of_pass (passes : context.pass handle = some passed) :
    passed.handled = context.controlChan.head? := by
  obtain ⟨operatingState, controlChan⟩ := context
  cases operatingState with
  | shutDown => cases controlChan <;> cases passes
  | paused | run lambda =>
      cases controlChan <;> cases passes <;> rfl

theorem Context.run_of_pass (passes : context.pass handle = some passed)
    (continues : passed.continues = true) : ∃ lambda, context.operatingState = .run lambda := by
  obtain ⟨operatingState, controlChan⟩ := context
  cases operatingState with
  | shutDown => cases controlChan <;> cases passes
  | run lambda => exact ⟨lambda, rfl⟩
  | paused =>
      cases controlChan with
      | nil => cases passes
      | cons signal rest =>
          cases passes
          cases continues

end SimplifiedPrism
