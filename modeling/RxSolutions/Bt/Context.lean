import RxSolutions.Bt.Frame
import RxSolutions.Durable.Checks

/-!
# The execution context of the behaviour tree engine

Other threads publish frames, pause the context and take requests; the tick reads one frame
and enqueues requests. Each method that holds the lock is one step here, with the clock
readings it makes as arguments.

A frame that is replaced is a new object, and the engine compares frames as objects: a
frame is kept with the number of its publication.
-/

namespace RxSolutions.Bt

open Domain Durable Executor

/-- Throws the text when the condition holds. -/
def refuse (condition : Prop) [Decidable condition] (why : String) : Except String Unit :=
  if condition then .error why else .ok ()

theorem refuse_eq_ok {condition : Prop} [Decidable condition] {why : String} :
    refuse condition why = .ok () ↔ ¬ condition := by
  unfold refuse
  split <;> simp_all

/-- A published frame and the number of its publication. -/
structure Published where
  serial : ℕ
  frame : Frame

/-- The frames of an execution context and what they have bound. -/
structure Context where
  identity : Identity
  root : Name
  definitions : SortedMap Name Definition
  incoming : Option Published
  tick : Option Published
  /-- The number of the next publication. -/
  published : ℕ
  operations : SortedMap Name Id
  outcomes : SortedMap Name Outcome
  decisions : SortedMap Name (Id × Bool)
  waits : SortedMap Name (Id × WaitState)
  queue : List Request
  requested : Finset (Name × RequestKind)
  halted : Bool
  suppressNew : Bool

namespace Context

/-- The fields of a new context. -/
def initial (identity : Identity) (root : Name) (definitions : SortedMap Name Definition) :
    Context :=
  { identity, root, definitions, incoming := none, tick := none, published := 0,
    operations := .empty, outcomes := .empty, decisions := .empty, waits := .empty,
    queue := [], requested := ∅, halted := false, suppressNew := false }

/-- The constructor. -/
def new (identity : Identity) (root : Name) (definitions : SortedMap Name Definition) :
    Except String Context :=
  if identity.run = "" ∨ identity.executorSession = "" ∨ identity.resolvedDigest.utf8ByteSize ≠ 64 ∨
      identity.visit = 0 ∨ identity.epoch = 0 ∨ definitions.entries = [] ∨
      4096 < definitions.entries.length ∨ definitions.get? root = none then
    .error "invalid executor context"
  else .ok (initial identity root definitions)

/-- The definition of a node, which has to exist. -/
def definition (c : Context) (node : Name) : Except String Definition :=
  match c.definitions.get? node with
  | some d => .ok d
  | none => .error "node is not in the resolved process"

/-! ## Publishing -/

/-- The checks of one node of an incoming frame. -/
def checkNode (c : Context) (node : Name) (value : Observation) : Except String Unit := do
  let d ← c.definition node
  refuse (value.operationId = some "") "empty operation identity"
  refuse (value.released ∧ (value.operationId = none ∨ value.outcome = .none ∨
    ¬ value.integrityValid)) "release contradicts operation state"
  refuse (value.outcome ≠ .none ∧ value.operationId = none) "outcome without operation identity"
  refuse (∃ o ∈ c.outcomes.get? node, o ≠ value.outcome) "immutable operation outcome changed"
  refuse (d.kind ≠ .operation ∧ (value.operationId ≠ none ∨ value.outcome ≠ .none ∨
    value.released)) "operation fields on another node kind"
  refuse (d.kind ≠ .branch ∧ value.branch ≠ none) "branch fields on another node kind"
  refuse (d.kind ≠ .wait ∧ value.wait ≠ .pending) "wait fields on another node kind"
  refuse (d.kind ≠ .intervention ∧ value.clearance ≠ none) "clearance on another node kind"
  refuse (value.wait ≠ .pending ∧ value.decisionId = none) "wait result lacks P decision identity"
  refuse (∃ w ∈ c.waits.get? node, value.decisionId ≠ some w.1 ∨ w.2 ≠ value.wait)
    "committed wait result changed"
  refuse (value.decisionId = some "") "empty decision identity"
  refuse (value.clearance = some "") "empty clearance identity"
  refuse (∃ operation ∈ value.operationId, ∃ known ∈ c.operations.get? node, known ≠ operation)
    "operation identity changed at an existing activation"
  refuse (∃ operation ∈ value.operationId, ∃ e ∈ c.operations.entries,
    e.1 ≠ node ∧ e.2 = operation) "operation shared across activations"
  refuse (value.branch ≠ none ∧ value.decisionId = none) "branch has no committed decision identity"
  refuse (∃ b ∈ value.branch, ∃ known ∈ c.decisions.get? node, value.decisionId ≠ some known.1 ∨
    known.2 ≠ b) "committed branch decision changed"

/-- What a complete frame must still show of the recorded history. -/
def checkContinuity (c : Context) (frame : Frame) : Except String Unit := do
  refuse (∃ e ∈ c.operations.entries, ((frame.nodes.get? e.1).bind (·.operationId)) ≠ some e.2)
    "complete view lost an operation binding"
  refuse (∃ e ∈ c.decisions.entries, ∀ value ∈ frame.nodes.get? e.1,
    value.decisionId ≠ some e.2.1 ∨ value.branch ≠ some e.2.2)
    "complete view lost a committed branch choice"
  refuse (∃ e ∈ c.waits.entries, ∀ value ∈ frame.nodes.get? e.1,
    value.decisionId ≠ some e.2.1 ∨ value.wait ≠ e.2.2)
    "complete view lost a committed wait result"

/-- All checks of an incoming frame, before anything is recorded. -/
def validate (c : Context) (frame : Frame) (now : Reading) : Except String Unit := do
  refuse (¬ frame.SourceCurrent now) "expired or foreign source clock"
  refuse (frame.identity ≠ c.identity ∨ ∃ old ∈ c.incoming, frame.revision < old.frame.revision)
    "stale or foreign P frame"
  frame.eligible.forM fun node => discard (c.definition node)
  frame.nodes.entries.forM fun e => c.checkNode e.1 e.2
  if frame.complete then c.checkContinuity frame

/-- The continuity memory, and the queue without what a complete frame resolves. -/
def record (c : Context) (frame : Frame) : Context :=
  { c with
    operations := c.operations.overlay frame.nodes.entries (·.operationId)
    outcomes := c.outcomes.overlay frame.nodes.entries fun value =>
      if value.outcome = .none then none else some value.outcome
    decisions := c.decisions.overlay frame.nodes.entries fun value =>
      match value.branch, value.decisionId with
      | some b, some d => some (d, b)
      | _, _ => none
    waits := c.waits.overlay frame.nodes.entries fun value =>
      match value.decisionId with
      | some d => if value.wait = .pending then none else some (d, value.wait)
      | none => none
    queue := if frame.complete then c.queue.filter (¬ frame.Resolves ·) else c.queue
    incoming := some ⟨c.published, frame⟩
    published := c.published + 1 }

/-- The request to pause, which has a slot of its own. -/
def pauseRequest (c : Context) : Request :=
  { identity := c.identity, node := c.root, kind := .pauseExecutor, argument := "", timeoutNs := 0 }

/-- Halts and asks for a pause, once. -/
def halt (c : Context) : Context :=
  if (c.root, RequestKind.pauseExecutor) ∈ c.requested then { c with halted := true }
  else { c with
    halted := true
    queue := c.pauseRequest :: c.queue
    requested := insert (c.root, .pauseExecutor) c.requested }

/-- The handler of a rejected frame: the last one is no longer usable. -/
def reject (c : Context) : Context :=
  halt { c with
    incoming := c.incoming.map fun p =>
      ⟨c.published, { p.frame with complete := false, current := false }⟩
    published := c.published + 1 }

/-- Take a frame, or reject it and halt. -/
def publish (c : Context) (frame : Frame) (now : Reading) : Except String Unit × Context :=
  match c.validate frame now with
  | .ok _ => (.ok (), c.record frame)
  | .error e => (.error e, c.reject)

/-! ## Ticking -/

/-- A tick sees the last frame. -/
def beginTick (c : Context) : Context := { c with tick := c.incoming, suppressNew := false }

/-- Nothing new is started in this tick. -/
def suppressNewForTick (c : Context) : Context := { c with suppressNew := true }

/-- Whether the frame of the tick can still be used. -/
def Usable (c : Context) (now : Reading) : Prop := ∃ p ∈ c.tick, p.frame.Usable now

instance (c : Context) (now : Reading) : Decidable (c.Usable now) :=
  inferInstanceAs (Decidable (∃ p ∈ c.tick, p.frame.Usable now))

/-- What the frame of the tick says about a node. -/
def observe (c : Context) (node : Name) (now : Reading) : Except String Observation := do
  discard (c.definition node)
  match c.tick with
  | some p =>
    if p.frame.Usable now then return (p.frame.nodes.get? node).getD {}
    else return { unknown := true }
  | none => return { unknown := true }

/-- Whether the frame of the tick lets a node ask for work. -/
def Permits (c : Context) (node : Name) (now : Reading) : Prop :=
  ∃ p ∈ c.tick, p.frame.Usable now ∧ p.frame.submissionAuthorized = true ∧ node ∈ p.frame.eligible

instance (c : Context) (node : Name) (now : Reading) : Decidable (c.Permits node now) :=
  inferInstanceAs (Decidable (∃ p ∈ c.tick, _ ∧ _ ∧ _))

/-- Whether the latest frame is the one of the tick and still authorises it. -/
def Current (c : Context) : Prop :=
  c.incoming.map (·.serial) = c.tick.map (·.serial) ∧
    ∃ p ∈ c.incoming, p.frame.current = true ∧ p.frame.submissionAuthorized = true

instance (c : Context) : Decidable c.Current :=
  inferInstanceAs (Decidable (_ ∧ ∃ p ∈ c.incoming, _ ∧ _))

/-- Queue a request, once for each node and kind. -/
def enqueue (c : Context) (node : Name) (kind : RequestKind) (now : Reading) :
    Except String (Bool × Context) := do
  let d ← c.definition node
  if c.suppressNew ∧ (kind = .submitOperation ∨ kind = .resolveBranch ∨ kind = .beginWait) then
    return (false, c)
  if ¬ c.Permits node now then return (false, c)
  if c.halted ∨ ¬ c.Current then return (false, c)
  if (node, kind) ∈ c.requested then return (true, c)
  if 32 ≤ c.queue.length then return (false, c)
  return (true, { c with
    queue := c.queue ++ [⟨c.identity, node, kind, d.argument, d.timeoutNs⟩]
    requested := insert (node, kind) c.requested })

/-! ## Pausing and taking requests -/

/-- Halt, and ask for a pause. -/
def pause (c : Context) (node : Name) : Except String Context := do
  discard (c.definition node)
  return c.halt

/-- Whether a queued request may be handed out. -/
def Deliverable (c : Context) (r : Request) (now : Reading) : Prop :=
  r.kind = .pauseExecutor ∨ (c.halted = false ∧ ∃ p ∈ c.incoming, p.frame.complete = true ∧
    p.frame.current = true ∧ p.frame.submissionAuthorized = true ∧
    now.steady < p.frame.validUntil ∧ p.frame.SourceCurrent now ∧ r.node ∈ p.frame.eligible)

instance (c : Context) (r : Request) (now : Reading) : Decidable (c.Deliverable r now) :=
  inferInstanceAs (Decidable (_ ∨ (_ ∧ ∃ p ∈ c.incoming, _)))

/-- The loop of `take_requests`: each queued request is looked at once, and goes to the end
of the queue when it is not handed out. -/
def takeLoop (c : Context) (limit : ℕ) (clock : ℕ → Reading) :
    ℕ → List Request → List Request → List Request × List Request
  | 0, queue, result => (result, queue)
  | _ + 1, [], result => (result, [])
  | n + 1, r :: queue, result =>
    if limit ≤ result.length then (result, r :: queue)
    else if c.Deliverable r (clock n) then c.takeLoop limit clock n queue (result ++ [r])
    else c.takeLoop limit clock n (queue ++ [r]) result

/-- Take so many requests from the queue. -/
def takeRequests (c : Context) (limit : ℕ) (clock : ℕ → Reading) :
    Except String (List Request × Context) := do
  refuse (limit = 0 ∨ 32 < limit) "request batch limit"
  let (result, queue) := c.takeLoop limit clock c.queue.length c.queue []
  return (result, { c with queue })

end Context

end RxSolutions.Bt
