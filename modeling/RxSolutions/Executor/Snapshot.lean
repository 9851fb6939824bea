import RxSolutions.Executor.Requests
import RxSolutions.Process.Frontier

/-!
# Snapshots of an execution

The executor reads one snapshot of a run, has it validated and projects it into the packet
that the behaviour tree engine takes: what is known about each node, and which nodes may ask
for something.
-/

namespace RxSolutions.Executor

open Domain Durable Process

/-- The states of a run. -/
inductive RunState
  | prepared | executing | paused | recoveryRequired | completed | abandoned
  deriving DecidableEq, Repr

/-- A run, of which the projection reads the identifier only. -/
structure Run where
  id : Id
  deriving DecidableEq, Repr

/-- A run as a snapshot shows it. -/
structure RunSnapshot where
  run : Run
  deriving DecidableEq, Repr

/-- What the platform says about an execution, as far as the projection reads it. -/
structure ExecutionSnapshot where
  sequence : Counter
  callerSession : Id
  cellEpoch : Counter
  checkedAt : TimePoint
  validUntil : TimePoint
  run : RunSnapshot
  visit : Counter
  resolved : ArtifactRef
  progress : ProgressView
  requestAdmissionAllowed : Bool

/-- A snapshot with the frontier that its validation found. -/
structure ValidatedSnapshot where
  raw : ExecutionSnapshot
  frontier : Frontier
  /-- On the clock of the executor, in nanoseconds. -/
  deadline : ℕ

/-! ## Packets -/

/-- Until when, on which clock, a frame may be used. -/
structure SourceDeadline where
  clockId : String
  checkedAtNs : Counter
  validUntilNs : Counter
  deriving DecidableEq, Repr

/-- How a wait stands. -/
inductive WaitState
  | pending | satisfied | timedOut
  deriving DecidableEq, Repr

/-- What a frame says about a node. -/
structure Node where
  operationId : Option Id := none
  outcome : Domain.Outcome := .none
  unknown : Bool := false
  integrityValid : Bool := true
  released : Bool := false
  branch : Option Bool := none
  decisionId : Option Id := none
  wait : WaitState := .pending
  clearance : Option Id := none
  deriving DecidableEq, Repr

/-- A frame as it is sent to the engine. -/
structure Packet where
  schema : String
  identity : Identity
  revision : Counter
  complete : Bool
  current : Bool
  submissionAuthorized : Bool
  remainingValidityNs : Counter
  source : SourceDeadline
  nodes : SortedMap Name Node
  /-- In order and without repetition: a set in the source. -/
  eligible : List Name

/-- Why no frame is made. -/
inductive FrameError
  | invalid (why : String)
  | expired
  /-- The shared clock cannot be read. -/
  | clock
  deriving DecidableEq, Repr

/-! ## The projection -/

/-- The node of an operation. -/
def Node.ofOperation (progress : OperationProgress) : Node :=
  let operation := progress.operation
  { operationId := some operation.operationId
    outcome := operation.outcome
    unknown := operation.executionKnowledge = .unknown ∨ operation.outcome = .unresolved
    integrityValid := operation.integrity = .valid
    released := operation.disposition = .released }

/-- The node of a branch that has been decided. -/
def Node.ofBranch (choice : BranchChoice) : Node :=
  { branch := some choice.chosen, decisionId := some choice.decision }

/-- The node of a wait that has ended. -/
def Node.ofWait : WaitProgress → Node
  | .satisfied decision _ => { wait := .satisfied, decisionId := some decision }
  | .timedOut decision => { wait := .timedOut, decisionId := some decision }

/-- The node of an intervention that has been cleared. -/
def Node.ofClearance (clearance : Id) : Node := { clearance := some clearance }

/-- What is known about each node, one kind of progress written after the other. -/
def nodesOf (view : ProgressView) : SortedMap Name Node :=
  SortedMap.empty
    |>.overlay view.operations.entries (some ∘ Node.ofOperation)
    |>.overlay view.branches.entries (some ∘ Node.ofBranch)
    |>.overlay view.waits.entries (some ∘ Node.ofWait)
    |>.overlay view.clearedInterventions.entries (some ∘ Node.ofClearance)

/-- The nodes that may ask for something. -/
def eligibleOf (frontier : Frontier) : List Name :=
  sorted (frontier.operations ++ frontier.decisions ++ frontier.waits ++ frontier.handovers ++
    frontier.interventions).dedup

namespace ValidatedSnapshot

/-- The execution context that a snapshot belongs to. -/
def contextIdentity (s : ValidatedSnapshot) : Identity where
  run := s.raw.run.run.id
  executorSession := s.raw.callerSession
  resolvedDigest := s.raw.resolved.sha256
  visit := s.raw.visit
  epoch := s.raw.cellEpoch

/-- Inside both deadlines, by one reading of each clock. -/
def IsCurrent (s : ValidatedSnapshot) (instant : ℕ) (now : Option TimePoint) : Prop :=
  instant < s.deadline ∧ ∃ t ∈ now, t.clockId = s.raw.checkedAt.clockId ∧
    s.raw.checkedAt.ticksNs ≤ t.ticksNs ∧ t.ticksNs < s.raw.validUntil.ticksNs

instance (s : ValidatedSnapshot) (instant : ℕ) (now : Option TimePoint) :
    Decidable (s.IsCurrent instant now) :=
  inferInstanceAs (Decidable (_ ∧ ∃ t ∈ now, _))

/-- The time that remains on both clocks. -/
def remaining (s : ValidatedSnapshot) (instant : ℕ) (now : TimePoint) : Counter :=
  let localRemaining := s.deadline - instant
  min (s.raw.validUntil.ticksNs - now.ticksNs)
    (if localRemaining < counterBound then localRemaining else counterBound - 1)

/-- The packet of a snapshot, with the time that remains. -/
def packet (s : ValidatedSnapshot) (expected : Identity) (remaining : Counter) : Packet where
  schema := "rx.bt-frame.v1"
  identity := expected
  revision := s.raw.sequence
  complete := true
  current := true
  submissionAuthorized := s.raw.requestAdmissionAllowed
  remainingValidityNs := remaining
  source :=
    { clockId := s.raw.checkedAt.clockId
      checkedAtNs := s.raw.checkedAt.ticksNs
      validUntilNs := s.raw.validUntil.ticksNs }
  nodes := nodesOf s.raw.progress
  eligible := eligibleOf s.frontier

/-- The projection. Each clock is read twice: for `is_current`, and for the time that
remains. -/
def frame (s : ValidatedSnapshot) (expected : Identity) (instant instant' : ℕ)
    (now now' : Option TimePoint) : Except FrameError Packet := do
  if s.contextIdentity ≠ expected then
    throw (.invalid "execution context changed; explicit reconciliation required")
  if ¬ s.IsCurrent instant now then throw .expired
  match now' with
  | none => throw .clock
  | some now =>
    if 256 < now.clockId.utf8ByteSize then throw (.invalid "clock identity exceeds frame bound")
    if now.clockId ≠ s.raw.checkedAt.clockId ∨ now.ticksNs < s.raw.checkedAt.ticksNs then
      throw (.invalid "shared clock changed")
    if s.raw.validUntil.ticksNs < now.ticksNs then throw .expired
    if s.remaining instant' now = 0 then throw .expired
    return s.packet expected (s.remaining instant' now)

/-- What a projection that succeeds has checked. -/
theorem frame_eq_ok {s : ValidatedSnapshot} {expected : Identity} {instant instant' : ℕ}
    {now now' : Option TimePoint} {result : Packet}
    (h : s.frame expected instant instant' now now' = .ok result) :
    s.contextIdentity = expected ∧ s.IsCurrent instant now ∧
      ∃ t, now' = some t ∧ t.clockId.utf8ByteSize ≤ 256 ∧
        t.clockId = s.raw.checkedAt.clockId ∧ s.raw.checkedAt.ticksNs ≤ t.ticksNs ∧
        s.remaining instant' t ≠ 0 ∧ result = s.packet expected (s.remaining instant' t) := by
  unfold frame at h
  simp only [bind, Except.bind, throw, throwThe, MonadExceptOf.throw] at h
  split at h
  · cases h
  rename_i hidentity
  split at h
  · cases h
  rename_i hcurrent
  split at h
  · cases h
  rename_i t
  split at h
  · cases h
  rename_i hclock
  split at h
  · cases h
  rename_i hsame
  split at h
  · cases h
  split at h
  · cases h
  rename_i hleft
  cases h
  rw [not_or, not_not, not_lt] at hsame
  exact ⟨not_not.mp hidentity, not_not.mp hcurrent, t, rfl, not_lt.mp hclock, hsame.1, hsame.2,
    hleft, rfl⟩

end ValidatedSnapshot

end RxSolutions.Executor
