import RxSolutions.Durable.History
import RxSolutions.Durable.Repository
import RxSolutions.Durable.Runs
import RxSolutions.Executor.Pending
import RxSolutions.Executor.Snapshot
import RxSolutions.Supervisor.Model

/-!
# Stopping a run

A service that is to stop first records the intent, and then asks the platform to pause the run,
under one key for each attempt, until it has seen the run restricted. The record is kept under one
key of the journal and checked there: whoever writes it has to follow on what is stored. A process
may die between any two effects; its successor has another session.
-/

namespace RxSolutions.Executor.Stop

open Domain Durable
open Supervisor (StoreError FreshIds)

/-! ## Records -/

/-- The scope of a journal, as far as stop records are compared with it. -/
structure Scope where
  run : Id
  resolvedDigest : Digest

/-- Why a run is to be stopped. -/
inductive StopReason
  | requested | completed | plannerFault | workerFault | stateUnavailable | contextChanged
  | storeFault
  deriving DecidableEq

/-- How far a stop intent has come. -/
inductive StopPhase
  | pending | pauseObserved | superseded | attention
  deriving DecidableEq

/-- How far one attempt to pause has come. -/
inductive AttemptState
  | prepared | entered | rejected | replied
  deriving DecidableEq

/-- The checkpoint that a pause is answered with. -/
structure CheckpointView where
  run : Id
  revision : Counter
  /-- All that a stop record only carries. -/
  content : String
  deriving DecidableEq

/-- The platform's answer about a run. -/
structure RunResponse where
  run : Id
  revision : Counter
  recipe : Digest
  state : RunState
  executorSession : Option Id
  checkpoint : CheckpointView
  deriving DecidableEq

/-- One attempt to pause the run, under its own key. -/
structure StopAttempt where
  key : Id
  session : Id
  expectedRun : Counter
  state : AttemptState
  response : Option RunResponse
  deriving DecidableEq

/-- A stop intent with its attempts, as it is stored. -/
structure StopRecord where
  id : Id
  run : Id
  originSession : Id
  originContext : Option Identity
  reason : StopReason
  requestedAt : Option TimePoint
  phase : StopPhase
  attempts : List StopAttempt
  observation : Option RunResponse
  deriving DecidableEq

/-- `restricted`. -/
def restricted : RunState → Bool
  | .paused | .recoveryRequired | .completed | .abandoned => true
  | .prepared | .executing => false

/-! ## Checks of the journal -/

/-- `validate_view`. -/
def validateView (scope : Scope) (view : RunResponse) : Except StoreError Unit :=
  if view.run ≠ scope.run ∨ view.recipe ≠ scope.resolvedDigest ∨ view.revision = 0 ∨
      view.checkpoint.run ≠ view.run ∨ view.checkpoint.revision ≠ view.revision then
    .error (.invalid "stop observation run differs")
  else .ok ()

/-- The check on the answer to an attempt. -/
def validateResponse (scope : Scope) (attempt : StopAttempt) : Except StoreError Unit :=
  match attempt.response with
  | none => .ok ()
  | some response => do
    validateView scope response
    if restricted response.state = false ∨ response.revision < attempt.expectedRun then
      throw (.invalid "pause reply did not restrict run")
    return ()

/-- The loop over the attempts, after the keys of those before. -/
def validateAttempts (scope : Scope) : List StopAttempt → List Id → Except StoreError Unit
  | [], _ => .ok ()
  | attempt :: attempts, keys => do
    if attempt.key ∈ keys ∨ attempt.expectedRun = 0 ∨
        ¬ (attempt.state = .replied ↔ attempt.response.isSome = true) then
      throw (.invalid "stop attempt invalid")
    validateResponse scope attempt
    validateAttempts scope attempts (attempt.key :: keys)

/-- The check on the last observation. -/
def validateObservation (scope : Scope) : Option RunResponse → Except StoreError Unit
  | none => .ok ()
  | some view => validateView scope view

/-- The check on the phase. -/
def validatePhase (record : StopRecord) : Except StoreError Unit :=
  match record.phase with
  | .pending =>
    if record.observation.isSome = true then
      .error (.invalid "pending stop has final observation")
    else .ok ()
  | .pauseObserved =>
    if record.observation.all (fun v => !restricted v.state) = true then
      .error (.invalid "pause requires P observation")
    else .ok ()
  | .superseded =>
    if record.observation.all
        (fun v => v.executorSession.all (fun s => decide (s = record.originSession))) = true then
      .error (.invalid "superseded requires another executor session")
    else .ok ()
  | .attention => .ok ()

/-- `validate`. -/
def validate (scope : Scope) (record : StopRecord) : Except StoreError Unit := do
  if record.run ≠ scope.run ∨ 64 < record.attempts.length ∨
      record.originContext.any (fun c => decide (c.run ≠ scope.run ∨
        c.resolvedDigest ≠ scope.resolvedDigest ∨ c.executorSession ≠ record.originSession ∨
        c.epoch = 0)) = true then
    throw (.invalid "stop scope differs")
  validateAttempts scope record.attempts []
  validateObservation scope record.observation
  validatePhase record

/-- What an intent is recognised by. -/
def StopRecord.identity (r : StopRecord) :
    Id × Id × Id × Option Identity × StopReason × Option TimePoint :=
  (r.id, r.run, r.originSession, r.originContext, r.reason, r.requestedAt)

/-- The steps of an attempt. -/
def AttemptState.next : AttemptState → AttemptState → Bool
  | .prepared, .entered => true
  | .entered, .rejected => true
  | .entered, .replied => true
  | _, _ => false

/-- The loop over the attempts that both records have. -/
def validateSteps : List (StopAttempt × StopAttempt) → Except StoreError Unit
  | [] => .ok ()
  | (a, b) :: rest => do
    if a.key ≠ b.key ∨ a.session ≠ b.session ∨ a.expectedRun ≠ b.expectedRun then
      throw (.invalid "stop attempt body changed")
    if a ≠ b ∧ a.state.next b.state = false then throw (.invalid "stop attempt regressed")
    validateSteps rest

/-- `validate_transition`. Canonical bytes are compared as the records that they spell. -/
def validateTransition (old next : StopRecord) : Except StoreError Unit := do
  if old.identity ≠ next.identity ∨ next.attempts.length < old.attempts.length then
    throw (.invalid "stop identity/history changed")
  if old.phase ≠ .pending ∧ old ≠ next then throw (.invalid "terminal stop cannot be reopened")
  validateSteps (old.attempts.zip next.attempts)
  if old.attempts.length < next.attempts.length ∧
      (next.attempts.length ≠ old.attempts.length + 1 ∨
        old.attempts.getLast?.any (fun a => decide (a.state ≠ .rejected)) = true ∨
        next.attempts.getLast?.all (fun a => decide (a.state ≠ .prepared)) = true) then
    throw (.invalid "new stop key without confirmed rejection")
  return ()

/-! ## Processes -/

/-- The stop intent that a process handles, with the stored revision. -/
structure StopController where
  record : StopRecord
  revision : Option Counter
  durabilityFault : Option String

/-- What a process does that can be seen from outside. -/
inductive Event
  /-- A record is handed to `save_stop`, with the revision it is to replace and what is stored. -/
  | handed (expected : Counter) (stored : Option (Row StopRecord)) (next : StopRecord)
  /-- The platform is asked to pause, under a key of a stop intent. -/
  | paused (id key : Id)
  /-- The platform has rejected the attempt. -/
  | rejected (id key : Id)

/-- What is stored, and the process that runs. -/
structure Machine where
  stored : Option (Row StopRecord)
  starts : ℕ
  control : Option StopController
  drawn : ℕ
  trace : List Event

/-- Nothing is stored and no process runs. -/
def Machine.start : Machine := ⟨none, 0, none, 0, []⟩

/-- The process has died, and another one starts. -/
def Machine.restart (m : Machine) : Machine := { m with starts := m.starts + 1, control := none }

/-- Note an event. -/
def Machine.log (m : Machine) (e : Event) : Machine := { m with trace := m.trace ++ [e] }

/-- The platform gives each process a session of its own. -/
class Sessions where
  sessionOf : ℕ ↪ Id

/-- There are enough texts to name every session by one. -/
theorem Sessions.nonempty : Nonempty Sessions := ⟨⟨Infinite.natEmbedding String⟩⟩

/-- A run view of the platform: it names the recipe of the journal and a revision. -/
structure PlatformView (scope : Scope) where
  view : RunResponse
  recipe : view.recipe = scope.resolvedDigest
  revision : 0 < view.revision

/-- What a transaction of the journal comes to, apart from its own checks. -/
inductive StoreOutcome
  | commits
  /-- Nothing is written. -/
  | fails (error : StoreError)
  /-- The transaction is committed, but the caller gets an error. -/
  | lost (error : StoreError)

/-- What the outside does at one point. -/
structure Answer (scope : Scope) where
  crash : Bool
  view : Except Error (PlatformView scope)
  /-- Whether the checkpoint of the view can be read and fits it. -/
  artifact : Except Error Unit
  snapshot : Except Error Identity
  store : StoreOutcome

/-- Why a call ends without a value. -/
inductive Failure
  | crashed
  | refused (error : Error)

/-- A process during a call, with the answers that it will get. -/
structure Process (scope : Scope) where
  machine : Machine
  answers : ℕ → Answer scope
  tick : ℕ

variable {scope : Scope}

/-- A call that reads answers and may die. -/
abbrev Worker (scope : Scope) (α : Type) := Program (Process scope) Failure α

/-- The next answer. The process may die here. -/
def answer : Worker scope (Answer scope) := do
  let s ← get
  let a := s.answers s.tick
  set { s with tick := s.tick + 1 }
  ensure (a.crash = false) .crashed
  return a

/-- The machine as it is now. -/
def machine : Worker scope Machine := return (← get).machine

/-- Change the machine. -/
def change (f : Machine → Machine) : Worker scope Unit :=
  modify fun s => { s with machine := f s.machine }

/-- An answer, or the refusal it is. -/
def replied {α : Type} : Except Error α → Worker scope α
  | .ok a => pure a
  | .error e => throw (.refused e)

/-- The stop intent that is handled. -/
def control : Worker scope StopController := do orThrow (← machine).control .crashed

/-- Keep a changed stop intent in memory. -/
def setControl (c : StopController) : Worker scope Unit :=
  change fun m => { m with control := some c }

/-! ## The journal -/

/-- What is stored after `save_stop`, in a transaction that commits. -/
def saved (scope : Scope) (stored : Option (Row StopRecord)) (expected : Counter)
    (next : StopRecord) : Except StoreError (Row StopRecord) := do
  validate scope next
  match stored with
  | none => throw (.invalid "stop intent missing")
  | some row => do
    if row.revision ≠ expected then throw (.revisionConflict "executor-stop/current")
    validateTransition row.document next
    return if row.document = next then row else ⟨row.revision + 1, next⟩

/-- `save_stop`. -/
def saveStop (expected : Counter) (next : StopRecord) :
    Worker scope (Except StoreError Counter) := do
  change fun m => m.log (.handed expected m.stored next)
  let outcome := (← answer).store
  let m ← machine
  match outcome, saved scope m.stored expected next with
  | .fails e, _ => return .error e
  | _, .error e => return .error e
  | .commits, .ok row => do
    change fun m => { m with stored := some row }
    return .ok row.revision
  | .lost e, .ok row => do
    change fun m => { m with stored := some row }
    return .error e

/-- What is stored after `ensure_stop`, in a transaction that commits. -/
def ensured (scope : Scope) (stored : Option (Row StopRecord)) (candidate : StopRecord) :
    Except StoreError (Row StopRecord) := do
  validate scope candidate
  if candidate.phase ≠ .pending ∨ candidate.attempts ≠ [] ∨ candidate.observation.isSome = true then
    throw (.invalid "new stop must be pending")
  match stored with
  | some row => do
    validate scope row.document
    return row
  | none => return ⟨1, candidate⟩

/-- `ensure_stop`. -/
def ensureStop (candidate : StopRecord) :
    Worker scope (Except StoreError (Row StopRecord)) := do
  let outcome := (← answer).store
  let m ← machine
  match outcome, ensured scope m.stored candidate with
  | .fails e, _ => return .error e
  | _, .error e => return .error e
  | .commits, .ok row => do
    change fun m => { m with stored := some row }
    return .ok row
  | .lost e, .ok row => do
    change fun m => { m with stored := some row }
    return .error e

/-- `stop_record`. -/
def stopRecord : Worker scope (Except StoreError (Option (Row StopRecord))) := do
  let outcome := (← answer).store
  let m ← machine
  match outcome, m.stored with
  | .fails e, _ | .lost e, _ => return .error e
  | .commits, none => return .ok none
  | .commits, some row => return (validate scope row.document).map fun _ => some row

/-! ## The worker -/

section Worker

variable [FreshIds] [Sessions]

/-- The session of the current process. -/
def Machine.session (m : Machine) : Id := Sessions.sessionOf m.starts

/-- An identifier never generated before. -/
def drawId : Worker scope Id := do
  let m ← machine
  change fun m => { m with drawn := m.drawn + 1 }
  return FreshIds.freshId m.drawn

/-- `recovered_stop`. -/
def recoveredStop : Worker scope (Except StoreError Unit) := do
  match ← stopRecord with
  | .error e => return .error e
  | .ok none => return .ok ()
  | .ok (some row) => do
    setControl ⟨row.document, some row.revision, none⟩
    return .ok ()

/-- `request_stop`. -/
def requestStop (context : Option Identity) (reason : StopReason) (time : Option TimePoint) :
    Worker scope Unit := do
  let id ← drawId
  let candidate : StopRecord := {
    id := id
    run := scope.run
    originSession := (← machine).session
    originContext := context
    reason := reason
    requestedAt := time
    phase := .pending
    attempts := []
    observation := none }
  match ← ensureStop candidate with
  | .ok row => setControl ⟨row.document, some row.revision, none⟩
  | .error e => setControl ⟨candidate, none, some e.text⟩

/-- `persist_stop`. -/
def persistStop : Worker scope Unit := do
  let _ ← answer
  let c ← control
  match c.revision with
  | none => return ()
  | some revision =>
    match ← saveStop revision c.record with
    | .ok next => setControl { c with revision := some next }
    | .error e => setControl { c with revision := none, durabilityFault := some e.text }

/-- Change the record, and persist it. -/
def advance (f : StopRecord → StopRecord) : Worker scope Unit := do
  let c ← control
  setControl { c with record := f c.record }
  persistStop

/-- Change the record, persist it, and end the round. -/
def finish (f : StopRecord → StopRecord) : Worker scope StopPhase := do
  advance f
  return (← control).record.phase

/-- `run_response`. -/
def runResponse (view : RunResponse) : Except Error RunResponse :=
  if view.checkpoint.run ≠ view.run ∨ view.checkpoint.revision ≠ view.revision then
    .error (.invalid "run/checkpoint identity differs")
  else .ok view

/-- `inspect_run` of the worker and of its client. -/
def inspectRun : Worker scope RunResponse := do
  let reply ← replied (← answer).view
  let view ← replied (runResponse reply.view)
  ensure (view.run = scope.run) (.refused (.invalid "run read identity differs"))
  replied (← answer).artifact
  ensure (view.recipe = scope.resolvedDigest) (.refused (.invalid "service recipe changed"))
  return view

/-- `pause_lifecycle`, its errors as values. -/
def pauseLifecycle (id key run : Id) (revision : Counter) :
    Worker scope (Except Error RunResponse) := do
  change (·.log (.paused id key))
  match (← answer).view with
  | .error e => return .error e
  | .ok reply =>
    match runResponse reply.view with
    | .error e => return .error e
    | .ok view =>
      if view.run ≠ run ∨ view.revision < revision ∨ restricted view.state = false then
        return .error (.invalid "pause did not restrict requested run")
      else return .ok view

/-- Change the last attempt. -/
def StopRecord.withLast (r : StopRecord) (f : StopAttempt → StopAttempt) : StopRecord :=
  match r.attempts.getLast? with
  | some a => { r with attempts := r.attempts.dropLast ++ [f a] }
  | none => r

/-- Whether the context of the intent is still the current one. -/
def contextChanged (record : StopRecord) (view : RunResponse) : Worker scope Bool :=
  match record.originContext with
  | none => return false
  | some origin =>
    if view.state = .executing then do
      let identity ← replied (← answer).snapshot
      return decide (identity ≠ origin)
    else return false

/-- The last attempt may be followed by a new one. -/
def StopRecord.open_ (r : StopRecord) : Bool :=
  r.attempts.getLast?.all fun a => decide (a.state = .rejected)

/-- A new attempt, unless the last one is still to be answered. -/
def prepareAttempt (view : RunResponse) : Worker scope Unit := do
  let c ← control
  if c.record.open_ = true then do
    let key ← drawId
    let session := (← machine).session
    advance fun r =>
      { r with attempts := r.attempts ++ [⟨key, session, view.revision, .prepared, none⟩] }
  else return ()

/-- An attempt is entered before it is made. -/
def enterAttempt (attempt : StopAttempt) : Worker scope Unit :=
  if attempt.state = .prepared then advance (·.withLast ({ · with state := .entered }))
  else return ()

/-- The attempt, and what its answer makes of the record. -/
def pauseRun : Worker scope StopPhase := do
  let c ← control
  let attempt ← orThrow c.record.attempts.getLast? .crashed
  match ← pauseLifecycle c.record.id attempt.key c.record.run attempt.expectedRun with
  | .ok response => do
    advance (·.withLast ({ · with state := .replied, response := some response }))
    finish ({ · with phase := .pauseObserved, observation := some response })
  | .error (.rpc code) =>
    if code = .aborted then do
      change (·.log (.rejected c.record.id attempt.key))
      finish (·.withLast ({ · with state := .rejected }))
    else if code.transient then throw (.refused (.rpc code))
    else do
      advance ({ · with phase := .attention })
      throw (.refused (.rpc code))
  | .error e => do
    advance ({ · with phase := .attention })
    throw (.refused e)

/-- The part of `stop_once` after the view has been found open. -/
def attemptPause (view : RunResponse) : Worker scope StopPhase := do
  let c ← control
  let session := (← machine).session
  if c.record.originSession ≠ session ∨ (64 ≤ c.record.attempts.length ∧
      c.record.attempts.getLast?.any (fun a => decide (a.state = .rejected)) = true) then
    finish ({ · with phase := .attention })
  else do
    prepareAttempt view
    let c ← control
    let attempt ← orThrow c.record.attempts.getLast? .crashed
    if attempt.session ≠ session then finish ({ · with phase := .attention })
    else do
      enterAttempt attempt
      pauseRun

/-- The part of `stop_once` after the run has been read. -/
def judge (view : RunResponse) : Worker scope StopPhase := do
  let c ← control
  if restricted view.state = true then
    finish ({ · with observation := some view, phase := .pauseObserved })
  else if view.executorSession.any (fun s => decide (s ≠ c.record.originSession)) = true then
    finish ({ · with observation := some view, phase := .superseded })
  else do
    let changed ← contextChanged c.record view
    if changed = true then finish ({ · with phase := .attention, observation := some view })
    else attemptPause view

/-- `stop_once`. -/
def stopOnce : Worker scope StopPhase := do
  let c ← control
  if c.record.phase ≠ .pending then return c.record.phase
  else do
    let view ← inspectRun
    judge view

end Worker

/-! ## Runs -/

/-- What a service does about stopping, and that its process ends. A service has one controller:
the one that it recovers when it starts, or the one that it requests. -/
inductive Action
  | restart
  | recover
  | request (context : Option Identity) (reason : StopReason) (time : Option TimePoint)
  | stopOnce

/-- A call and the answers it gets. -/
structure Input (scope : Scope) where
  action : Action
  answers : ℕ → Answer scope

/-- A program of the worker; a process that dies is followed by another one. -/
def Machine.perform {α : Type} (m : Machine) (answers : ℕ → Answer scope)
    (program : Worker scope α) : Machine :=
  match program ⟨m, answers, 0⟩ with
  | (.error .crashed, s) => s.machine.restart
  | (_, s) => s.machine

variable [FreshIds] [Sessions]

/-- One call of the process, or a new process. -/
def Machine.step (m : Machine) (input : Input scope) : Machine :=
  match input.action, m.control with
  | .restart, _ => m.restart
  | .recover, none => m.perform input.answers (recoveredStop : Worker scope _)
  | .request context reason time, none =>
    m.perform input.answers (requestStop context reason time : Worker scope _)
  | .stopOnce, some _ => m.perform input.answers (stopOnce : Worker scope _)
  | _, _ => m

/-- The machine after a list of calls. -/
def after (inputs : List (Input scope)) : Machine := Runs.after Machine.step .start inputs

end RxSolutions.Executor.Stop
