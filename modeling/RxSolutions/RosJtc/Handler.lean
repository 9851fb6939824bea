import RxSolutions.Durable.History
import RxSolutions.Durable.Program
import RxSolutions.Durable.Runs
import RxSolutions.RosJtc.Bridge

/-!
# The requests that a bridge handles

A bridge reads one request a line and answers with one line. It keeps a table of the goals that it
was asked to send, and calls the services of the controller. A call may find no service, may get no
answer in time, or may fail in the middle; the clock and the output may fail too, and so may any
statement that allocates. An exception keeps what the handler has changed so far.

What a bridge does to the outside is kept in a trace, along with the points at which an answer was
taken into the table.
-/

namespace RxSolutions.RosJtc.Bridge

open Domain Durable
open Markup (Json)

/-! ## The process -/

/-- A goal that the bridge was asked to send. -/
structure Entry where
  operation : String
  body : Json
  send : Json
  result : Option Json
  pending : Bool
  cancel : Option Json

/-- What a handler does that can be seen from outside. -/
inductive Event
  /-- The request has a new sequence number. -/
  | accepted (sequence : Counter)
  /-- The goal has been recorded, to be sent. -/
  | entered (operation invocation : String)
  /-- The send service has been called. -/
  | sendCalled (operation invocation : String)
  /-- The answer to the send has been taken. -/
  | answered (invocation : String) (accepted : Bool)
  | sendUnknown (invocation : String)
  /-- A terminal result of a known goal has been taken. -/
  | captured (invocation : String) (result : Json)
  /-- The cancel service has been called. -/
  | cancelCalled (invocation : String)
  | cancelUnknown (invocation : String)
  | replied (message : Json)
  deriving DecidableEq

/-- What the bridge remembers between its lines. -/
structure Memory where
  sequence : Counter
  recordedBytes : ℕ
  faulted : Bool
  goals : SortedMap String Entry
  operations : SortedMap String String
  trace : List Event

/-- A bridge that has read no line. -/
def Memory.empty : Memory := ⟨0, 0, false, .empty, .empty, []⟩

/-- What the constructor has fixed. -/
structure Identity where
  setup : Setup
  instanceId : String
  clockId : String
  numberLength : ℚ → ℕ

/-! ## The outside -/

/-- What comes of the call of a service. -/
inductive Call (α : Type)
  /-- No service before the deadline: nothing is sent. -/
  | unavailable
  /-- The library throws when the request is sent, or while the answer is awaited. -/
  | failed (what : String)
  | unanswered
  | answered (response : α)

/-- A controller as the manager lists it. -/
structure Controller where
  name : String
  type : String
  state : String
  claimedInterfaces : List String
  isChained : Bool

/-- The answer to a goal that was sent. -/
structure SendResponse where
  accepted : Bool
  stampSec : ℤ
  stampNanosec : ℕ

/-- The answer to a request for a result. -/
structure ResultResponse where
  status : ℤ
  errorCode : ℤ
  errorString : String

/-- The answer to a request to cancel. -/
structure CancelResponse where
  returnCode : ℤ
  /-- The identifiers of the goals that are being cancelled. -/
  goalsCanceling : List (List ℕ)

/-- What the outside does while a line is handled: successive readings of the clock, successive
writes to the output, the statements that throw, and the services. -/
structure World where
  clock : ℕ → Option ℕ
  output : ℕ → Bool
  hazard : ℕ → Option Thrown
  list : Call (List Controller)
  send : Call SendResponse
  result : Call ResultResponse
  cancel : Call CancelResponse
  sendReady : Bool
  resultReady : Bool
  cancelReady : Bool

/-- The bridge while it handles a line. -/
structure Process where
  memory : Memory
  world : World
  reads : ℕ
  writes : ℕ
  hazards : ℕ

/-- A handler may throw and keeps what it has changed. -/
abbrev Handler (α : Type) := Program Process Thrown α

/-- A reading or a check that does not touch the process. -/
def check {α : Type} : Except Thrown α → Handler α
  | .ok a => pure a
  | .error e => throw e

/-- A statement that may throw. -/
def hazard : Handler Unit := do
  let s ← get
  set { s with hazards := s.hazards + 1 }
  match s.world.hazard s.hazards with
  | some e => throw e
  | none => pure ()

/-- What the bridge remembers now. -/
def known : Handler Memory := return (← get).memory

/-- Change what the bridge remembers. -/
def change (f : Memory → Memory) : Handler Unit := do
  let s ← get
  set { s with memory := f s.memory }

/-- The next reading of the clock. -/
def now : Handler ℕ := do
  let s ← get
  set { s with reads := s.reads + 1 }
  match s.world.clock s.reads with
  | some t => pure t
  | none => throw (.invalidArgument "boottime unavailable")

/-- Note an event. -/
def Memory.log (m : Memory) (e : Event) : Memory := { m with trace := m.trace ++ [e] }

/-- `reply`. -/
def reply (k : Identity) (seq : Json) (state : String) (value fault : Json) : Handler Unit := do
  let t ← now
  let message : Json := .object [("schema", .string "rx.ros-jtc-reply.v1"),
    ("bridge_instance", .string k.instanceId), ("sequence", seq), ("clock_id", .string k.clockId),
    ("ticks_ns", .string (toString t)), ("state", .string state), ("value", value),
    ("fault", fault)]
  check (require (message.size k.numberLength ≤ 1048576) "IPC response limit")
  let s ← get
  set { s with writes := s.writes + 1, memory := s.memory.log (.replied message) }
  check (require (s.world.output s.writes = true) "parent output closed")

/-- `deadline`, and the check in `remaining`. -/
def deadline (until_ : ℕ) : Handler Unit := do
  let t ← now
  check (require (t < until_) "request deadline expired")

/-- `call`. -/
def call {α : Type} (answer : World → Call α) (called : Memory → Memory) (until_ : ℕ) :
    Handler α := do
  deadline until_
  match answer (← get).world with
  | .unavailable => throw (.runtimeError "ROS service unavailable before deadline")
  | .failed what => do
    deadline until_
    change called
    throw (.runtimeError what)
  | .unanswered => do
    deadline until_
    change called
    throw (.runtimeError "ROS response unknown or still pending")
  | .answered response => do
    deadline until_
    change called
    return response

/-! ## Commands -/

/-- The interfaces that the selected controller claims. -/
def Setup.expected (s : Setup) : Finset String :=
  (s.joints.flatMap fun joint => s.interfaces.map fun i => joint ++ "/" ++ i).toFinset

/-- The selected controller is active with exactly its interfaces. -/
def Setup.matches_ (s : Setup) (c : Controller) : Bool :=
  decide (c.type = "joint_trajectory_controller/JointTrajectoryController" ∧ c.state = "active" ∧
    c.isChained = false ∧ c.claimedInterfaces.toFinset = s.expected ∧
    c.claimedInterfaces.length = s.expected.card)

/-- The loop over the observed controllers: whether the selected one matches, after the names of
those before. -/
def observe (s : Setup) : List Controller → List String → Bool → Except Thrown Bool
  | [], _, matched => .ok matched
  | c :: rest, names, matched => do
    require (c.name.utf8ByteSize ≤ 128 ∧ c.type.utf8ByteSize ≤ 256 ∧ c.state.utf8ByteSize ≤ 32 ∧
      c.claimedInterfaces.length ≤ 192) "controller observation size limit"
    require (∀ i ∈ c.claimedInterfaces, i.utf8ByteSize ≤ 256) "claimed interface size limit"
    require (c.name ∉ names) "duplicate controller observation"
    observe s rest (c.name :: names) (if c.name = s.controller then s.matches_ c else matched)

/-- A controller as a document. -/
def Controller.json (c : Controller) : Json :=
  .object [("name", .string c.name), ("type", .string c.type), ("state", .string c.state),
    ("claimed_interfaces", .array (c.claimedInterfaces.map .string)),
    ("is_chained", .bool c.isChained)]

/-- `inspect`. -/
def inspect (k : Identity) (until_ : ℕ) (requireActive : Bool) : Handler Json := do
  let start ← now
  let controllers ← call World.list id until_
  check (require (controllers.length ≤ 128) "controller observation count limit")
  let matched ← check (observe k.setup controllers [] false)
  check (require (requireActive = true → matched = true)
    "active controller/type/claimed interfaces differ")
  let end_ ← now
  let world := (← get).world
  return .object [("controllers", .array (controllers.map (·.json))),
    ("selected_matches", .bool matched), ("observed_start_ns", .string (toString start)),
    ("observed_end_ns", .string (toString end_)), ("controller_generation_known", .bool false),
    ("send_service_ready", .bool world.sendReady),
    ("result_service_ready", .bool world.resultReady),
    ("cancel_service_ready", .bool world.cancelReady), ("physical_readiness_proven", .bool false)]

/-- The value of a hexadecimal digit. -/
def hexValue (c : Char) : ℕ := if c.isDigit then c.toNat - 48 else c.toNat - 87

/-- The bytes that pairs of digits spell. -/
def hexPairs : List Char → List ℕ
  | a :: b :: rest => (hexValue a * 16 + hexValue b) :: hexPairs rest
  | _ => []

/-- `goal_id`: the bytes of an identifier. -/
def goalId (s : String) : Except Thrown (List ℕ) := do
  require ((s.toList.filter (· ≠ '-')).length = 32) "UUID bytes"
  return hexPairs (s.toList.filter (· ≠ '-'))

/-- The record of an operation with another state. -/
def withState (state : String) : Json → Json
  | .object members => .object (members.map fun m =>
      if m.1 = "state" then ("state", .string state) else m)
  | v => v

/-- Change the entry of a goal. -/
def Memory.update (m : Memory) (invocation : String) (f : Entry → Entry) : Memory :=
  match m.goals.get? invocation with
  | some e => { m with goals := m.goals.insert invocation (f e) }
  | none => m

/-- The part of `send` after an answer has come. -/
def sendAnswered (k : Identity) (seq : Json) (entered : ℕ) (invocation : String)
    (response : SendResponse) : Handler Unit := do
  change fun m => (m.update invocation ({ · with pending := response.accepted })).log
    (.answered invocation response.accepted)
  let captured ← now
  let send : Json := .object [
    ("state", .string (if response.accepted then "ACCEPTED" else "REJECTED")),
    ("goal_id", .string invocation), ("accepted", .bool response.accepted),
    ("entered_at_ns", .string (toString entered)), ("captured_at_ns", .string (toString captured)),
    ("stamp_sec", .number response.stampSec), ("stamp_nanosec", .number response.stampNanosec)]
  hazard
  change (·.update invocation ({ · with send := send }))
  reply k seq "SEND_RECORDED" send .null

/-- The part of `send` after the goal has been recorded. -/
def sendGoal (k : Identity) (seq : Json) (until_ entered : ℕ) (operation invocation : String) :
    Handler Unit := do
  let response ← call World.send (·.log (.sendCalled operation invocation)) until_
  sendAnswered k seq entered invocation response

/-- What `send` does when anything after the record was made has thrown. -/
def sendFailed (k : Identity) (seq : Json) (invocation : String) (e : Thrown) : Handler Unit := do
  change fun m => { m with faulted := true }.log (.sendUnknown invocation)
  hazard
  change (·.update invocation fun entry =>
    { entry with send := withState "SEND_UNKNOWN" entry.send })
  match (← known).goals.get? invocation with
  | some entry => reply k seq "SEND_UNKNOWN" entry.send (.string e.what)
  | none => throw (.json "map::at")

/-- Record the goal, and send it. -/
def enter (k : Identity) (seq : Json) (until_ entered : ℕ) (invocation : String) (entry : Entry) :
    Handler Unit := do
  change fun m => { m with goals := m.goals.insert invocation entry }.log
    (.entered entry.operation invocation)
  hazard
  change fun m => { m with
    operations := m.operations.insert entry.operation invocation
    recordedBytes := m.recordedBytes + entry.body.size k.numberLength }
  hazard
  let _ ← check (goalId invocation)
  tryCatch (sendGoal k seq until_ entered entry.operation invocation)
    (sendFailed k seq invocation)

/-- The command `send`, for a goal that is not known yet. -/
def sendNew (k : Identity) (seq : Json) (until_ : ℕ) (operation invocation : String)
    (payload : Json) : Handler Unit := do
  let m ← known
  check (require (m.faulted = false ∧ m.goals.entries.length < k.setup.capacity ∧
    m.recordedBytes + payload.size k.numberLength ≤ 16 * 1024 * 1024 ∧
    m.operations.get? operation = none) "bridge admission fault/capacity/operation conflict")
  check (require (∀ e ∈ m.goals.entries, e.2.pending = false) "previous native goal unresolved")
  let _ ← inspect k until_ true
  deadline until_
  let entered ← now
  let entry : Entry := {
    operation := operation
    body := payload
    send := .object [("state", .string "SEND_ENTERED"), ("goal_id", .string invocation),
      ("entered_at_ns", .string (toString entered))]
    result := none
    pending := true
    cancel := none }
  hazard
  enter k seq until_ entered invocation entry

/-- The command `send`. -/
def send (k : Identity) (seq body : Json) (until_ : ℕ) : Handler Unit := do
  check (keys body ["operation", "invocation", "goal"])
  let operation ← check (do uuid (← member body "operation"))
  let invocation ← check (do uuid (← member body "invocation"))
  let payload ← check (member body "goal")
  let _ ← check (goal payload k.setup.joints)
  match (← known).goals.get? invocation with
  | some existing => do
    check (require (existing.operation = operation ∧ existing.body = payload)
      "invocation/body conflict")
    reply k seq "SEND_RECORDED" existing.send .null
  | none => sendNew k seq until_ operation invocation payload

/-- Take a terminal result, if the goal is known. -/
def capture (invocation : String) (known : Bool) (value : Json) : Handler Unit :=
  if known = true then
    change fun m => (m.update invocation
      ({ · with result := some value, pending := false })).log (.captured invocation value)
  else pure ()

/-- The characters that the first bytes of a text hold. Where the cut falls into a character, the
reply writes the replacement character for what is left of it. -/
def firstBytes : ℕ → List Char → List Char
  | _, [] => []
  | n, c :: cs =>
    if c.utf8Size ≤ n then c :: firstBytes (n - c.utf8Size) cs
    else if n = 0 then []
    else [Char.ofNat 0xfffd]

/-- A result that has come for a goal. -/
def resultOf (k : Identity) (seq : Json) (until_ : ℕ) (invocation : String) (known : Bool) :
    Handler Unit := do
  let _ ← check (goalId invocation)
  let start ← now
  let response ← call World.result id until_
  check (require (0 ≤ response.status ∧ response.status ≤ 6) "unknown ROS goal status")
  let captured ← now
  let value : Json := .object [("goal_id", .string invocation),
    ("query_started_at_ns", .string (toString start)),
    ("captured_at_ns", .string (toString captured)), ("known_to_bridge", .bool known),
    ("ros_goal_status", .number response.status),
    ("controller_error_code", .number response.errorCode),
    ("controller_error_string",
      .string (String.ofList (firstBytes 4096 response.errorString.toList))),
    ("controller_generation_known", .bool false)]
  hazard
  if response.status = 4 ∨ response.status = 5 ∨ response.status = 6 then do
    capture invocation known value
    reply k seq "RESULT_CAPTURED" value .null
  else reply k seq "RESULT_UNKNOWN" value .null

/-- The command `result`. -/
def result (k : Identity) (seq body : Json) (until_ : ℕ) : Handler Unit := do
  check (keys body ["invocation"])
  let invocation ← check (do uuid (← member body "invocation"))
  match (← known).goals.get? invocation with
  | some entry =>
    match entry.result with
    | some value => reply k seq "RESULT_CAPTURED" value .null
    | none => resultOf k seq until_ invocation true
  | none => resultOf k seq until_ invocation false

/-- The part of `cancel` after an answer has come. -/
def cancelAnswered (k : Identity) (seq : Json) (entered : ℕ) (invocation : String)
    (response : CancelResponse) : Handler Unit := do
  let this ← check (goalId invocation)
  check (require (∀ id ∈ response.goalsCanceling, id = this)
    "cancel response contains another goal")
  let captured ← now
  let cancel : Json := .object [("state", .string "RESPONSE"),
    ("entered_at_ns", .string (toString entered)), ("captured_at_ns", .string (toString captured)),
    ("return_code", .number response.returnCode),
    ("goals_canceling", .array (response.goalsCanceling.map fun _ => .string invocation)),
    ("terminal_stop_proven", .bool false)]
  hazard
  change (·.update invocation ({ · with cancel := some cancel }))
  reply k seq "CANCEL_RESPONSE" cancel .null

/-- The part of `cancel` after the attempt has been recorded. -/
def cancelGoal (k : Identity) (seq : Json) (until_ entered : ℕ) (invocation : String) :
    Handler Unit := do
  let response ← call World.cancel (·.log (.cancelCalled invocation)) until_
  cancelAnswered k seq entered invocation response

/-- What `cancel` does when anything after the record was made has thrown. -/
def cancelFailed (k : Identity) (seq : Json) (invocation : String) (e : Thrown) :
    Handler Unit := do
  change fun m => { m with faulted := true }.log (.cancelUnknown invocation)
  hazard
  change (·.update invocation fun entry =>
    { entry with cancel := entry.cancel.map (withState "CANCEL_UNKNOWN") })
  match ((← known).goals.get? invocation).bind (·.cancel) with
  | some cancel => reply k seq "CANCEL_UNKNOWN" cancel (.string e.what)
  | none => throw (.json "map::at")

/-- The command `cancel`, for a goal that was not cancelled before. -/
def cancelNew (k : Identity) (seq : Json) (until_ : ℕ) (invocation : String) : Handler Unit := do
  let entered ← now
  hazard
  change (·.update invocation ({ · with cancel := some (.object [
    ("state", .string "CANCEL_ENTERED"), ("entered_at_ns", .string (toString entered)),
    ("terminal_stop_proven", .bool false)]) }))
  hazard
  let _ ← check (goalId invocation)
  tryCatch (cancelGoal k seq until_ entered invocation) (cancelFailed k seq invocation)

/-- The command `cancel`. -/
def cancel (k : Identity) (seq body : Json) (until_ : ℕ) : Handler Unit := do
  check (keys body ["invocation"])
  let invocation ← check (do uuid (← member body "invocation"))
  match (← known).goals.get? invocation with
  | none => throw (.invalidArgument "cannot cancel an unowned goal")
  | some entry =>
    match entry.cancel with
    | some cancel => reply k seq "CANCEL_RECORDED" cancel .null
    | none => cancelNew k seq until_ invocation

/-! ## Requests and lines -/

/-- The request is meant for this bridge. -/
def context (k : Identity) (p : Json) : Except Thrown Unit := do
  keys p ["schema", "bridge_instance", "sequence", "expires_at_ns", "command", "body"]
  require ((← text (← member p "schema")) = "rx.ros-jtc-request.v1")
    "bridge request context differs"
  require ((← text (← member p "bridge_instance")) = k.instanceId) "bridge request context differs"

/-- The command of a request, after its number and its deadline have been checked. -/
def command (k : Identity) (p : Json) (until_ : ℕ) : Handler Unit := do
  let t ← now
  check (require (t < until_ ∧ until_ - t ≤ 1000000000) "one-second maximum admission window")
  let body ← check (member p "body")
  let seq ← check (member p "sequence")
  let cmd ← check (do text (← member p "command"))
  if cmd = "inspect" then do
    check (keys body [])
    let value ← inspect k until_ false
    reply k seq "OBSERVED" value .null
  else if cmd = "send" then send k seq body until_
  else if cmd = "result" then result k seq body until_
  else if cmd = "cancel" then cancel k seq body until_
  else throw (.invalidArgument "unknown bridge command")

/-- `handle`. -/
def handle (k : Identity) (p : Json) : Handler Unit := do
  check (context k p)
  let seq ← check (do counter (← member p "sequence"))
  let m ← known
  check (require (m.sequence < seq) "IPC sequence did not advance")
  change fun m => { m with sequence := seq }.log (.accepted seq)
  let until_ ← check (do counter (← member p "expires_at_ns"))
  command k p until_

/-- The answer to a request that has thrown. -/
def refuse (k : Identity) (document : Except Thrown Json) (e : Thrown) : Handler Unit :=
  let seq : Json :=
    match document with
    | .ok p => (p.get? "sequence").getD .null
    | .error _ => .null
  match e with
  | .runtimeError what => reply k seq "RPC_UNKNOWN" .null (.string what)
  | e => reply k seq "REJECTED" .null (.string e.what)

/-- The body of the loop over the lines: a line is given as what its text is parsed to. -/
def line (k : Identity) (document : Except Thrown Json) : Handler Unit :=
  tryCatch (do handle k (← check document)) (refuse k document)

/-- A line, and what the outside does meanwhile. -/
structure Line where
  document : Except Thrown Json
  world : World

/-- A process runs until an answer cannot be written. -/
structure Machine where
  memory : Memory
  exited : Bool

/-- A bridge that has just been started. -/
def Machine.start : Machine := ⟨.empty, false⟩

/-- One line of input; a bridge that has exited reads no more. -/
def Machine.step (k : Identity) (machine : Machine) (input : Line) : Machine :=
  if machine.exited then machine
  else
    match line k input.document ⟨machine.memory, input.world, 0, 0, 0⟩ with
    | (.ok (), s) => ⟨s.memory, false⟩
    | (.error _, s) => ⟨s.memory, true⟩

/-- A process that was given some lines. -/
def after (k : Identity) (lines : List Line) : Machine := Runs.after (Machine.step k) .start lines

end RxSolutions.RosJtc.Bridge
