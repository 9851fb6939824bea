import RxSolutions.Bt.Context
import RxSolutions.Durable.Program
import RxSolutions.Process.Encoding

/-!
# The behaviour tree engine

The engine collects the definitions of a resolved process, builds a tree of nodes for it and
ticks the tree. A tick reads the frame of the context node by node, and each reading looks at
the clocks again: the state of a tick is the context with the readings still to come.
-/

namespace RxSolutions.Bt

open Domain Durable Executor Process

/-! ## Definitions -/

/-- The kind of a compiled node. -/
def kindOf : CompiledNode → Kind
  | .sequence .. => .sequence
  | .parallelAll .. => .parallelAll
  | .branch .. => .branch
  | .operation .. => .operation
  | .wait .. => .wait
  | .intervention .. => .intervention

/-- What the engine keeps of a resolved node. -/
def definitionOf (n : CompiledNode) : Definition where
  kind := kindOf n
  children := n.children.map CompiledNode.id
  argument := match n.label with
    | .sequence | .parallelAll => ""
    | .branch condition | .wait condition _ => condition
    | .operation binding => binding
    | .intervention procedure => procedure.sha256
  timeoutNs := match n.label with
    | .wait _ timeoutNs => timeoutNs
    | _ => 0

/-- Whether one more node may be collected. -/
def Room (result : SortedMap Name Definition) (depth : ℕ) : Prop :=
  depth ≤ 64 ∧ result.entries.length < 4096

instance (result : SortedMap Name Definition) (depth : ℕ) : Decidable (Room result depth) :=
  inferInstanceAs (Decidable (_ ∧ _))

/-- A node is kept after the nodes below it. -/
def emplace (n : CompiledNode) (result : SortedMap Name Definition) :
    Except String (SortedMap Name Definition) :=
  if (result.get? n.id).isSome then .error "duplicate resolved node"
  else .ok (result.insert n.id (definitionOf n))

mutual

/-- The definitions of a node and of those below it. -/
def collect : CompiledNode → SortedMap Name Definition → ℕ →
    Except String (SortedMap Name Definition)
  | .sequence id source children, result, depth =>
    if ¬ Room result depth then .error "resolved node limit"
    else match collectAll children result (depth + 1) with
      | .error e => .error e
      | .ok result => emplace (.sequence id source children) result
  | .parallelAll id source children, result, depth =>
    if ¬ Room result depth then .error "resolved node limit"
    else match collectAll children result (depth + 1) with
      | .error e => .error e
      | .ok result => emplace (.parallelAll id source children) result
  | .branch id source condition whenTrue whenFalse, result, depth =>
    if ¬ Room result depth then .error "resolved node limit"
    else match collect whenTrue result (depth + 1) with
      | .error e => .error e
      | .ok result =>
        match collect whenFalse result (depth + 1) with
        | .error e => .error e
        | .ok result => emplace (.branch id source condition whenTrue whenFalse) result
  | .operation id source binding, result, depth =>
    if ¬ Room result depth then .error "resolved node limit"
    else emplace (.operation id source binding) result
  | .wait id source condition timeoutNs, result, depth =>
    if ¬ Room result depth then .error "resolved node limit"
    else if timeoutNs = 0 then .error "wait timeout required"
    else emplace (.wait id source condition timeoutNs) result
  | .intervention id source procedure, result, depth =>
    if ¬ Room result depth then .error "resolved node limit"
    else emplace (.intervention id source procedure) result

/-- The definitions of a list of nodes. -/
def collectAll : List CompiledNode → SortedMap Name Definition → ℕ →
    Except String (SortedMap Name Definition)
  | [], result, _ => .ok result
  | child :: children, result, depth =>
    match collect child result depth with
    | .error e => .error e
    | .ok result => collectAll children result depth

end

/-- The root and the definitions of a resolved process that has passed the checks on its document:
what `definitions` does after them. -/
def definitionsOf (p : ResolvedProcess) : Except String (Name × SortedMap Name Definition) :=
  match collect p.root .empty 0 with
  | .error e => .error e
  | .ok result => .ok (p.root.id, result)

/-- `definitions`: the checks on the document of a resolved process, and what is taken from it.
The length of each number in the document is `number`. -/
def definitions (number : ℚ → ℕ) (p : ResolvedProcess) :
    Except String (Name × SortedMap Name Definition) :=
  if p.schema ≠ "rx.resolved-process.v1" then .error "resolved schema differs"
  else if 1000000 < (processJson p).size number then .error "resolved payload limit"
  else definitionsOf p

/-! ## Ticks -/

/-- A node of the engine. -/
inductive Tree
  | node (kind : Kind) (id : Name) (children : List Tree)

mutual

/-- The nodes that the engine creates for a resolved tree. -/
def Tree.of : CompiledNode → Tree
  | .sequence id _ children => .node .sequence id (Tree.ofAll children)
  | .parallelAll id _ children => .node .parallelAll id (Tree.ofAll children)
  | .branch id _ _ whenTrue whenFalse => .node .branch id [Tree.of whenTrue, Tree.of whenFalse]
  | .operation id _ _ => .node .operation id []
  | .wait id _ _ _ => .node .wait id []
  | .intervention id _ _ => .node .intervention id []

/-- The trees of a list of nodes. -/
def Tree.ofAll : List CompiledNode → List Tree
  | [] => []
  | child :: children => Tree.of child :: Tree.ofAll children

end

/-- What the tick of a node returns. -/
inductive Status
  | running | success | failure
  deriving DecidableEq, Repr

/-- A context with the readings of its clocks that are still to come. -/
structure Ticking where
  context : Context
  clock : ℕ → Reading
  /-- The number of the next reading. -/
  reads : ℕ

/-- Part of a tick, which may throw. -/
abbrev Tick (α : Type) := Program Ticking String α

/-- The next reading of the clock. -/
def reading : Tick Reading := do
  let s ← get
  set { s with reads := s.reads + 1 }
  return s.clock s.reads

/-- The result of a method of the context. -/
def call {α : Type} (result : Except String α) : Tick α :=
  match result with
  | .ok a => return a
  | .error e => throw e

/-- The definition of a node, which has to exist. -/
def definition (id : Name) : Tick Definition := do
  call ((← get).context.definition id)

/-- The observation of a node at the next reading. -/
def observe (id : Name) : Tick Observation := do
  let now ← reading
  call ((← get).context.observe id now)

/-- Whether the frame is usable at the next reading. -/
def usable : Tick Bool := do
  let now ← reading
  return decide ((← get).context.Usable now)

/-- Ask for something to be done, unless it has been asked for. -/
def enqueue (id : Name) (kind : RequestKind) : Tick Bool := do
  let now ← reading
  let s ← get
  let (accepted, context) ← call (s.context.enqueue id kind now)
  set { s with context }
  return accepted

/-- Nothing new is started in this tick. -/
def suppressNewForTick : Tick Unit := do
  let s ← get
  set { s with context := s.context.suppressNewForTick }

/-- Asks for something and keeps running. -/
def ask (id : Name) (kind : RequestKind) : Tick Status := do
  let _ ← enqueue id kind
  return .running

/-- The tick of a leaf. -/
def leafTick (kind : Kind) (id : Name) : Tick Status := do
  let value ← observe id
  let ready ← usable
  if ¬ ready ∨ value.unknown ∨ ¬ value.integrityValid then return .running
  match kind with
  | .operation =>
    if value.operationId = none then ask id .submitOperation
    else match value.outcome with
      | .succeeded => if value.released then return .success else ask id .requestHandover
      | .failed | .canceled | .notExecuted => return .failure
      | .unresolved | .none => return .running
  | .wait =>
    match value.wait with
    | .satisfied => return .success
    | .timedOut => return .failure
    | .pending => ask id .beginWait
  | .intervention =>
    if value.clearance ≠ none then return .success else ask id .requestIntervention
  | _ => throw "unsupported RX leaf kind"

/-- The children of a node that can still matter: of a branch only the chosen one. -/
def activeChildren (d : Definition) (value : Observation) : Tick (List Name) :=
  if d.kind ≠ .branch then return d.children
  else match value.branch with
    | none => return []
    | some chosen =>
      match d.children[if chosen then 0 else 1]? with
      | some child => return [child]
      | none => throw "vector::_M_range_check"

/-- Looks for a node with some property below a node, as deep as the levels last. -/
def anyActive (found : Definition → Observation → Bool) : ℕ → Name → Tick Bool
  | 0, _ => throw "more levels than a resolved process has"
  | levels + 1, id => do
    let value ← observe id
    let d ← definition id
    if found d value then return true
    (← activeChildren d value).anyM (anyActive found levels)

/-- Nothing is known, or the operation failed, or an intervention or a wait stands in the way. -/
def problem (d : Definition) (value : Observation) : Bool :=
  value.unknown || !value.integrityValid || value.outcome = .unresolved ||
    value.outcome = .failed || value.outcome = .canceled || value.outcome = .notExecuted ||
    (d.kind = .wait && value.wait = .timedOut) ||
    (d.kind = .intervention && value.clearance = none)

/-- Nothing is known, or an intervention stands in the way. -/
def blocker (d : Definition) (value : Observation) : Bool :=
  value.unknown || !value.integrityValid || value.outcome = .unresolved ||
    (d.kind = .intervention && value.clearance = none)

/-- An operation without an outcome. -/
def liveWork (_ : Definition) (value : Observation) : Bool :=
  value.operationId ≠ none && value.outcome = .none

/-- The levels of a resolved process. -/
def maxLevels : ℕ := 65

/-- A node that is active has a problem. -/
def hasProblem (id : Name) : Tick Bool := anyActive problem maxLevels id

/-- A node that is active blocks. -/
def hasBlocker (id : Name) : Tick Bool := anyActive blocker maxLevels id

/-- A node that is active has work under way. -/
def hasLiveWork (id : Name) : Tick Bool := anyActive liveWork maxLevels id

/-- What a parallel node returns once its children have been ticked. -/
def settle (id : Name) (running failed : Bool) : Tick Status := do
  if ← hasBlocker id then return .running
  if failed then
    if ¬ (← hasLiveWork id) then return .failure
  return if running then .running else if failed then .failure else .success

mutual

/-- The tick of a node. -/
def tick : Tree → Tick Status
  | .node .branch id children => do
    if ¬ (← usable) then return .running
    let choice ← observe id
    if choice.unknown ∨ ¬ choice.integrityValid then return .running
    match choice.branch with
    | none => ask id .resolveBranch
    | some chosen =>
      match children with
      | [whenTrue, whenFalse] => if chosen then tick whenTrue else tick whenFalse
      | _ => throw "RXBranch requires two branches"
  | .node .sequence _ children => do
    if ¬ (← usable) then return .running
    if children.isEmpty then throw "empty RX control node"
    tickSequence children
  | .node .parallelAll id children => do
    if ¬ (← usable) then return .running
    if children.isEmpty then throw "empty RX control node"
    if ← hasProblem id then suppressNewForTick
    let statuses ← tickAll children
    settle id (.running ∈ statuses) (.failure ∈ statuses)
  | .node kind id _ => leafTick kind id

/-- The children of a sequence up to the first that has not succeeded. -/
def tickSequence : List Tree → Tick Status
  | [] => return .success
  | child :: children => do
    match ← tick child with
    | .success => tickSequence children
    | status => return status

/-- Tick every child, in order. -/
def tickAll : List Tree → Tick (List Status)
  | [] => return []
  | child :: children => do
    let status ← tick child
    return status :: (← tickAll children)

end

/-- A tick of the executor takes up the latest frame first. -/
def executorTick (tree : Tree) : Tick Status := do
  let s ← get
  set { s with context := s.context.beginTick }
  tick tree

end RxSolutions.Bt
