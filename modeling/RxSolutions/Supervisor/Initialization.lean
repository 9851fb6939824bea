import Mathlib.Algebra.Order.Ring.Nat
import RxSolutions.Domain.Syntax
import RxSolutions.Durable.Program
import RxSolutions.Markup.Json
import RxSolutions.Supervisor.Model

/-!
# Initializers of the services

Before the first start of a composition the supervisor runs the initializers of its services,
one after the other. A state of its own in the store says how far it came: an initializer is
marked as entered before its process is spawned, and as completed or failed after the process
has ended.

A run is a program over that store. Each of its effects is answered from outside, the store may
fail with or without having committed, and the supervisor may die at every effect.
-/

namespace RxSolutions.Supervisor.Initialization

open Domain Durable
open Markup (Json)

/-! ## Data -/

/-- How far a step has come. -/
inductive Phase
  | pending
  | entered
  | completed
  | failed
  deriving DecidableEq, Repr

/-- The service that a step belongs to. -/
inductive ServiceRole
  | host
  | executor
  deriving DecidableEq, Repr

/-- One initializer and how far it has come. -/
structure Step where
  program : Name
  role : ServiceRole
  instance_ : Id
  phase : Phase
  exitCode : Option Int32
  error : Option String
  deriving DecidableEq

/-- The steps of a plan, as they are stored. -/
structure State where
  digest : Digest
  steps : List Step
  deriving DecidableEq

/-- An initializer of the release: what is checked and spawned. -/
structure Initializer where
  id : Name
  role : ServiceRole
  executable : String
  executableSha256 : Digest
  files : List (String × Digest)
  arguments : List String
  named : IsName id

/-- Why a process was not spawned. The library takes the text from a buffer of 128 bytes, or it is
one of its own. -/
structure OsError where
  text : String
  short : text.toList.length ≤ 1024

/-! ## The check on a stored state -/

/-- How long a phase is as a JSON string. -/
def Phase.size : Phase → ℕ
  | pending => 9
  | entered => 9
  | completed => 11
  | failed => 8

/-- How long a role is as a JSON string. -/
def ServiceRole.size : ServiceRole → ℕ
  | host => 6
  | executor => 10

/-- How long a value is, or `null`. -/
def optionSize {α : Type} (size : α → ℕ) : Option α → ℕ
  | none => 4
  | some a => size a

/-- How long a step is as canonical JSON: its keys `error`, `exit_code`, `instance`, `phase`,
`program` and `role` with their punctuation, a quoted UUID, and the other values. -/
def Step.size (s : Step) : ℕ :=
  9 + optionSize Json.stringSize s.error +
    (13 + optionSize (fun c => (toString c.toInt).length) s.exitCode) + (12 + 38) +
    (9 + s.phase.size) + (11 + Json.stringSize s.program) + (8 + s.role.size) + 1

/-- How long a state is as canonical JSON: its keys `digest` and `steps`, a quoted digest, and the
steps with the commas between them. -/
def State.size (s : State) : ℕ :=
  11 + 64 + 11 + (s.steps.map Step.size).sum + (s.steps.length - 1) + 2

/-- `MAX_MESSAGE_BYTES`. -/
def maxMessageBytes : ℕ := 1048576

/-- What the phase of a step says about its exit code and its error. -/
def Step.Shaped (s : Step) : Prop :=
  match s.phase with
  | .pending | .entered => s.exitCode = none ∧ s.error = none
  | .completed => s.exitCode = some 0 ∧ s.error = none
  | .failed => s.error ≠ none

instance (s : Step) : Decidable s.Shaped := by
  unfold Step.Shaped
  split <;> infer_instance

/-- The identities and the phases of a state. -/
def State.Valid (s : State) : Prop :=
  s.steps ≠ [] ∧ s.steps.length ≤ 32 ∧ (s.steps.map Step.program).Nodup ∧
    (s.steps.map Step.instance_).Nodup ∧ ∀ step ∈ s.steps, step.Shaped

instance (s : State) : Decidable s.Valid :=
  inferInstanceAs (Decidable (_ ∧ _ ∧ _ ∧ _ ∧ _))

/-- `decode`. -/
def decode (s : State) : Except StoreError State :=
  if maxMessageBytes < s.size then .error (.integrity "invalid input: message exceeds 1 MiB")
  else if s.Valid then .ok s
  else .error (.integrity "initializer identity/phase differs")

/-- `check_commands`. -/
def checkCommands (s : State) (commands : List Initializer) : Except StoreError Unit :=
  if s.steps.map (fun step => (step.program, step.role)) = commands.map fun c => (c.id, c.role) then
    .ok ()
  else .error (.integrity "initializer list or order differs")

/-! ## Runs -/

/-- What a run did, seen from outside. -/
inductive Event
  | opened
  | stored (state : State)
  | spawn (commands : List Initializer) (index : ℕ) (started : Bool)

/-- The state an event commits. -/
def Event.state : Event → Option State
  | stored state => some state
  | _ => none

/-- What outlives a run. -/
structure Disk where
  record : Option State
  head : ℕ
  drawn : ℕ
  trace : List Event

/-- One turn of waiting for a process: whether a signal came, whether the deadline has passed, and
whether a termination signal was confirmed. -/
structure Poll where
  signalled : Bool
  late : Bool
  delivered : Bool

/-- What the environment answers to one effect. Each effect reads its own field. -/
structure Answer where
  crash : Bool
  fault : Option StoreError
  applied : Bool
  checked : Except Error Unit
  spawned : Except OsError Unit
  polls : List Poll
  status : Except Error (Option Int32)

/-- The supervisor during an attempt, with the answers that it will get. -/
structure InitState where
  disk : Disk
  answers : ℕ → Answer
  tick : ℕ

/-- An attempt may be refused, and the process may end in it. -/
abbrev Init (α : Type) := Durable.Program InitState Failure α

section Effects

variable {α : Type}

/-- The next answer. The supervisor may die here. -/
def reply : Init Answer := do
  let s ← get
  set { s with tick := s.tick + 1 }
  ensure ((s.answers s.tick).crash = false) .crashed
  return s.answers s.tick

/-- A refusal. -/
def refused (e : Error) : Init α := throw (.refused e)

/-- A result that may be an error. -/
def answered (r : Except Error α) : Init α :=
  match r with
  | .ok a => pure a
  | .error e => refused e

/-- What is found on the file system and what signals have come. -/
def checkFiles : Init Unit := do answered (← reply).checked

/-- Note an event. -/
def note (e : Event) : Init Unit :=
  modify fun s => { s with disk.trace := s.disk.trace ++ [e] }

/-- Identifiers never generated before. -/
def identifiers [FreshIds] (n : ℕ) : Init (List Id) := do
  let s ← get
  set { s with disk.drawn := s.disk.drawn + n }
  return (List.range n).map fun j => FreshIds.freshId (s.disk.drawn + j)

/-- The store after a transaction that leaves `state`, with `appended` events. -/
def Disk.commit (d : Disk) (state : State) (appended : ℕ) : Disk :=
  { d with record := some state, head := d.head + appended, trace := d.trace ++ [.stored state] }

/-- `snapshot` of the store. -/
def snapshot : Init Disk := do
  let a ← reply
  match a.fault with
  | some e => refused (.storage e)
  | none => return (← get).disk

/-- A transaction that only reads. -/
def view (body : Option State → Except StoreError α) : Init α := do
  let a ← reply
  match a.fault with
  | some e => refused (.storage e)
  | none =>
    match body (← get).disk.record with
    | .ok v => return v
    | .error e => refused (.storage e)

/-- A transaction that stores the state its body returns. A store that fails may have committed it
all the same. -/
def store (body : Option State → Except StoreError State) (appended : ℕ) : Init Unit := do
  let a ← reply
  match body (← get).disk.record with
  | .error e => refused (.storage e)
  | .ok state =>
    match a.fault with
    | none => modify fun s => { s with disk := s.disk.commit state appended }
    | some e =>
      if a.applied then modify fun s => { s with disk := s.disk.commit state appended }
      refused (.storage e)

/-- `spawn` of an initializer. -/
def spawn (commands : List Initializer) (index : ℕ) : Init (Except OsError Unit) := do
  let r := (← reply).spawned
  note (.spawn commands index r.isOk)
  return r

end Effects

/-- Whether a wait was interrupted, and whether a termination signal was confirmed. -/
structure Waiting where
  interrupted : Bool
  sent : Bool

/-- One turn of the loop that waits for a process. -/
def Waiting.poll (w : Waiting) (p : Poll) : Waiting :=
  let interrupted := w.interrupted || p.signalled
  if !w.sent && (interrupted || p.late) then ⟨true, p.delivered⟩ else ⟨interrupted, w.sent⟩

/-- Wait until the process has ended: its exit code, and whether it was interrupted. -/
def wait : Init (Option Int32 × Bool) := do
  let a ← reply
  let status ← answered a.status
  return (status, (a.polls.foldl Waiting.poll ⟨false, false⟩).interrupted)

/-! ## The source -/

/-- A stored state of the plan. -/
def readState (expected : Digest) (commands : List Initializer) :
    Option State → Except StoreError State
  | none => .error (.integrity "required initialization state absent")
  | some row => do
    let state ← decode row
    if state.digest ≠ expected then throw .keyConflict
    checkCommands state commands
    return state

/-- `inspect`. -/
def inspect (expected : Digest) (commands : List Initializer) : Init State :=
  view (readState expected commands)

/-- `require_complete`. -/
def requireComplete (expected : Digest) (commands : List Initializer) : Init State := do
  let state ← inspect expected commands
  ensure (∀ s ∈ state.steps, s.phase = .completed ∧ s.exitCode = some 0)
    (.refused (.reconciliation
      "fixed service initialization is incomplete; no automatic init replay"))
  return state

/-- The phases a step may go through. -/
def Phase.Follows : Phase → Phase → Prop
  | .pending, .entered | .entered, .completed | .entered, .failed => True
  | _, _ => False

instance (p q : Phase) : Decidable (p.Follows q) := by
  unfold Phase.Follows
  split <;> infer_instance

/-- The state with one step in its next phase. -/
def State.changed (expected : Digest) (commands : List Initializer) (index : ℕ) (phase : Phase)
    (code : Option Int32) (error : Option String) : Option State → Except StoreError State
  | none => .error (.integrity "initialization state missing")
  | some row => do
    let state ← decode row
    checkCommands state commands
    if state.digest ≠ expected then throw .keyConflict
    match state.steps[index]? with
    | none => throw .keyConflict
    | some step =>
      if step.phase.Follows phase then
        return { state with
          steps := state.steps.set index
            { step with phase := phase, exitCode := code, error := error } }
      else throw (.invalid "initialization transition differs")

/-- `change`. -/
def change (expected : Digest) (commands : List Initializer) (index : ℕ) (phase : Phase)
    (code : Option Int32) (error : Option String) : Init Unit :=
  store (State.changed expected commands index phase code error) 1

/-- The end of a process is recorded. -/
def finish (expected : Digest) (commands : List Initializer) (index : ℕ) (status : Option Int32)
    (interrupted : Bool) : Init Unit := do
  let completed : Bool := status = some 0 && !interrupted
  change expected commands index (if completed then .completed else .failed) status
    (if completed then none
      else some "initializer failed or interrupted; partial installation retained")
  ensure (completed = true) (.refused (.reconciliation "service initialization incomplete"))

/-- The part of `run` for an initializer that is pending. -/
def start (expected : Digest) (commands : List Initializer) (index : ℕ) (command : Initializer) :
    Init Unit := do
  checkFiles
  forM command.files fun _ => checkFiles
  checkFiles
  change expected commands index .entered none none
  checkFiles
  checkFiles
  match ← spawn commands index with
  | .error e =>
    change expected commands index .failed none (some e.text)
    refused (.io e.text)
  | .ok _ =>
    let result ← wait
    finish expected commands index result.1 result.2

/-- One turn of the loop of `run`. -/
def turn (expected : Digest) (commands : List Initializer) (index : ℕ) (command : Initializer) :
    Init Unit := do
  let state ← inspect expected commands
  let step ← orThrow (state.steps[index]?.filter fun s => s.program = command.id)
    (.refused (.reconciliation "initializer identity changed"))
  if step.phase = .completed then pure ()
  else
    ensure (step.phase = .pending) (.refused (.reconciliation ("initializer entered or failed; " ++
      "existing metadata requires inspection, never replay")))
    start expected commands index command

/-- The loop of `run` over the initializers that are left. -/
def turns (expected : Digest) (commands : List Initializer) : List Initializer → ℕ → Init Unit
  | [], _ => pure ()
  | command :: rest, index => do
    turn expected commands index command
    turns expected commands rest (index + 1)

/-- The state a new installation starts from. -/
def State.initial (expected : Digest) (commands : List Initializer) (ids : List Id) : State where
  digest := expected
  steps := List.zipWith (fun c id => ⟨c.id, c.role, id, .pending, none, none⟩) commands ids

/-- The commands of a plan. -/
def Bounded (commands : List Initializer) : Prop :=
  commands ≠ [] ∧ commands.length ≤ 32 ∧
    (∀ c ∈ commands, c.id.toList.take 11 = "rx/service/".toList) ∧
    (commands.map Initializer.id).Nodup

instance (commands : List Initializer) : Decidable (Bounded commands) :=
  inferInstanceAs (Decidable (_ ∧ _ ∧ _ ∧ _))

variable [FreshIds]

/-- Pending steps, stored where nothing is stored yet. -/
def create (expected : Digest) (commands : List Initializer) : Init Unit := do
  let ids ← identifiers commands.length
  store (fun
    | none => .ok (.initial expected commands ids)
    | some _ => .error (.revisionConflict "service-initialization/state")) 0

/-- The state is created where the store is new. -/
def ensureCreated (found : Disk) (expected : Digest) (commands : List Initializer) : Init Unit :=
  if found.record = none ∧ found.head = 0 then create expected commands else pure ()

/-- `run`. -/
def run (expected : Digest) (commands : List Initializer) : Init State := do
  note .opened
  ensure (Bounded commands)
    (.refused (.invalid "bounded release-generated service initializers required"))
  ensureCreated (← snapshot) expected commands
  checkFiles
  turns expected commands commands 0
  requireComplete expected commands

/-! ## Many runs -/

/-- A run with what it is given and what it is answered. -/
structure Attempt where
  expected : Digest
  commands : List Initializer
  answers : ℕ → Answer

/-- The store after one more run, wherever that run ended. -/
def Disk.step (d : Disk) (a : Attempt) : Disk :=
  (run a.expected a.commands ⟨d, a.answers, 0⟩).2.disk

/-- A store that was just created. -/
def Disk.empty : Disk := ⟨none, 0, 0, []⟩

/-- The store after some runs. -/
def after (attempts : List Attempt) : Disk := attempts.foldl Disk.step .empty

end RxSolutions.Supervisor.Initialization
