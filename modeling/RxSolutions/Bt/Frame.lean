import RxSolutions.Durable.SortedMap
import RxSolutions.Executor.Requests

/-!
# Frames of the behaviour tree engine

A frame is one complete reading of the process state: what is known about each node, which
nodes may submit work, and until when the reading holds on two clocks.
-/

namespace RxSolutions.Bt

open Domain Durable

/-- The kinds of nodes. -/
inductive Kind
  | sequence | parallelAll | branch | operation | wait | intervention
  deriving DecidableEq, Repr

/-- How an operation has ended. -/
inductive Outcome
  | none | succeeded | failed | canceled | notExecuted | unresolved
  deriving DecidableEq, Repr

/-- How a wait stands. -/
inductive WaitState
  | pending | satisfied | timedOut
  deriving DecidableEq, Repr

/-- What the engine knows of a node. -/
structure Definition where
  kind : Kind
  children : List Name
  argument : String
  timeoutNs : Counter
  deriving DecidableEq, Repr

/-- What a frame says about a node. -/
structure Observation where
  operationId : Option Id := none
  outcome : Outcome := .none
  unknown : Bool := false
  integrityValid : Bool := true
  released : Bool := false
  branch : Option Bool := none
  decisionId : Option Id := none
  wait : WaitState := .pending
  clearance : Option Id := none
  deriving DecidableEq, Repr

/-- Whether an observation answers a request of some kind. -/
def Observation.settles (value : Observation) : Executor.RequestKind → Bool
  | .submitOperation => value.operationId.isSome
  | .resolveBranch => value.branch.isSome
  | .beginWait => value.wait ≠ .pending
  | .requestHandover => value.released
  | .requestIntervention => value.clearance.isSome
  | .pauseExecutor => false

/-- Until when, on which clock, a frame may be used. -/
structure SourceDeadline where
  clockId : String
  checkedAtNs : Counter
  validUntilNs : Counter
  deriving DecidableEq, Repr

/-- What is known of a run at a revision. -/
structure Frame where
  identity : Executor.Identity
  revision : Counter
  complete : Bool
  current : Bool
  submissionAuthorized : Bool
  /-- On the steady clock of the engine. -/
  validUntil : ℕ
  sourceDeadline : Option SourceDeadline
  nodes : SortedMap Name Observation
  /-- A set in the source. -/
  eligible : List Name

/-- What the clocks show: the steady one, and the source clock unless there is none or it
fails. -/
structure Reading where
  steady : ℕ
  source : Option TimePoint
  deriving DecidableEq, Repr

namespace Frame

/-- `source_current`. -/
def SourceCurrent (f : Frame) (now : Reading) : Prop :=
  ∀ bound ∈ f.sourceDeadline, ∃ t ∈ now.source,
    t.clockId = bound.clockId ∧ bound.checkedAtNs ≤ t.ticksNs ∧ t.ticksNs < bound.validUntilNs

instance (f : Frame) (now : Reading) : Decidable (f.SourceCurrent now) :=
  inferInstanceAs (Decidable (∀ bound ∈ f.sourceDeadline, ∃ t ∈ now.source, _ ∧ _ ∧ _))

/-- Complete, current and inside both deadlines. -/
def Usable (f : Frame) (now : Reading) : Prop :=
  f.complete = true ∧ f.current = true ∧ now.steady < f.validUntil ∧ f.SourceCurrent now

instance (f : Frame) (now : Reading) : Decidable (f.Usable now) :=
  inferInstanceAs (Decidable (_ ∧ _ ∧ _ ∧ _))

/-- Whether the frame shows that nothing is left to do for a request. -/
def Resolves (f : Frame) (r : Executor.Request) : Prop :=
  ∃ value ∈ f.nodes.get? r.node, value.settles r.kind = true

instance (f : Frame) (r : Executor.Request) : Decidable (f.Resolves r) :=
  inferInstanceAs (Decidable (∃ value ∈ f.nodes.get? r.node, _))

end Frame

end RxSolutions.Bt
