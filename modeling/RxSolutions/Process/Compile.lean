import RxSolutions.Durable.Program
import RxSolutions.Process.SourceValidation

/-!
# The process compiler

The compiler expands the entry flow into one tree: calls and repetitions are instantiated
under a path that is part of each node's identity, under bounds on depth and size. It then
checks that parallel branches use disjoint resources.
-/

namespace RxSolutions.Process

open Domain Durable

namespace Compile

/-- Why a source is not compiled, and where. -/
structure Error where
  location : String
  reason : String
  deriving DecidableEq, Repr

end Compile

/-- The state of the expansion. -/
structure Expander where
  remaining : ℕ
  ids : Finset Name
  visitedFlows : Finset Name
  usedBindings : Finset Name

variable [Hashing]

/-- The identity of a node: a digest of the process and the source location. -/
def nodeId (process : Name) (source : SourceLocation) : Name :=
  "node/" ++ Hashing.node process source

/-- Counts a node, finds it in its flow and claims its identity. -/
def enter (process : Name) (flow : Flow) (name : Name) (path : List String) :
    Program Expander Compile.Error Node := do
  let st ← get
  ensure (st.remaining ≠ 0) ⟨name, "expanded plan limit"⟩
  let st := { st with
    remaining := st.remaining - 1
    visitedFlows := insert flow.id st.visitedFlows }
  set st
  let node ← orThrow (flow.find name) ⟨name, "node missing"⟩
  let id := nodeId process ⟨flow.id, node.id, path⟩
  ensure (id ∉ st.ids) ⟨name, "expanded identity collision"⟩
  set { st with ids := insert id st.ids }
  return node

/-- The element that one round of a repetition adds to a path. -/
def repeatStep (node : Name) (iteration : ℕ) : String :=
  "repeat:" ++ node ++ "/" ++ toString iteration

/-- The element that a call adds to a path. -/
def callStep (flow node : Name) : String := "call:" ++ flow ++ "/" ++ node

/-- The path of one round of a repetition. -/
def repeatPath (node : Name) (path : List String) (iteration : ℕ) : List String :=
  path ++ [repeatStep node iteration]

/-- The path of a called flow. -/
def callPath (flow node : Name) (path : List String) : List String := path ++ [callStep flow node]

/-- The expansion of a node; the levels left bound its depth by 64. -/
def expand (process : Name) (flows : SortedMap Name Flow) :
    ℕ → Flow → Name → List String → List Name → Program Expander Compile.Error CompiledNode
  | 0, _, id, _, _ => throw ⟨id, "expanded plan limit"⟩
  | levels + 1, flow, id, path, calls => do
    let node ← enter process flow id path
    let source : SourceLocation := ⟨flow.id, node.id, path⟩
    let id := nodeId process source
    match node.body with
    | .sequence children =>
      return .sequence id source
        (← children.mapM fun child => expand process flows levels flow child path calls)
    | .parallelAll children =>
      return .parallelAll id source
        (← children.mapM fun child => expand process flows levels flow child path calls)
    | .branch condition whenTrue whenFalse =>
      let whenTrue ← expand process flows levels flow whenTrue path calls
      let whenFalse ← expand process flows levels flow whenFalse path calls
      return .branch id source condition whenTrue whenFalse
    | .repeat count child =>
      return .sequence id source (← (List.range count).mapM fun iteration =>
        expand process flows levels flow child (repeatPath node.id path iteration) calls)
    | .call callee =>
      ensure (callee ∉ calls ∧ callee ≠ flow.id) ⟨node.id, "recursive flow call"⟩
      let called ← orThrow (flows.get? callee) ⟨node.id, "flow missing"⟩
      let child ← expand process flows levels called called.root (callPath flow.id node.id path)
        (calls ++ [flow.id])
      return .sequence id source [child]
    | .operation binding =>
      let st ← get
      set { st with usedBindings := insert binding st.usedBindings }
      return .operation id source binding
    | .wait condition timeoutNs => return .wait id source condition timeoutNs
    | .intervention procedure => return .intervention id source procedure

/-! ## Resources -/

/-- The text of the error about shared resources. -/
def sharedResource : String := "parallel branches share a resolved command/support resource"

mutual

/-- The resources of a tree. -/
def resources (bindings : SortedMap Name ActionBinding) :
    CompiledNode → Except Compile.Error (Finset Name)
  | .operation _ _ binding =>
    match bindings.get? binding with
    | some action => .ok action.intent.resourceSet.toFinset
    | none => .error ⟨binding, "no entry found for key"⟩
  | .sequence _ source children => resourcesAll bindings false source.node children ∅
  | .parallelAll _ source children => resourcesAll bindings true source.node children ∅
  | .branch _ _ _ whenTrue whenFalse =>
    match resources bindings whenTrue, resources bindings whenFalse with
    | .ok a, .ok b => .ok (a ∪ b)
    | .error e, _ | _, .error e => .error e
  | .wait .. | .intervention .. => .ok ∅

/-- The resources of the children of a node, which must be disjoint below a parallel one. -/
def resourcesAll (bindings : SortedMap Name ActionBinding) (parallel : Bool) (at_ : Name) :
    List CompiledNode → Finset Name → Except Compile.Error (Finset Name)
  | [], result => .ok result
  | child :: children, result =>
    match resources bindings child with
    | .error e => .error e
    | .ok subset =>
      if parallel ∧ ¬ Disjoint result subset then
        .error ⟨at_, sharedResource⟩
      else resourcesAll bindings parallel at_ children (result ∪ subset)

end

/-! ## Compiling -/

/-- The flow with its nodes in order. -/
def Flow.canonical (flow : Flow) : Flow :=
  { flow with nodes := flow.nodes.insertionSort fun a b => a.id ≤ b.id }

/-- The source with its flows and their nodes in order. -/
def ProcessSource.canonical (source : ProcessSource) : ProcessSource :=
  { source with
    flows := (source.flows.insertionSort fun a b => a.id ≤ b.id).map Flow.canonical }

/-- The first operation of the source without a binding. -/
def unresolved (source : ProcessSource) (bindings : SortedMap Name ActionBinding) : Option Node :=
  (source.flows.flatMap (·.nodes)).find? fun node =>
    match node.body with
    | .operation binding => (bindings.get? binding).isNone
    | _ => false

/-- The binding with its intent in normal form. -/
def normalizedBinding (id : Name) (binding : ActionBinding) : Except Compile.Error ActionBinding :=
  match binding.intent.normalized with
  | .ok intent => .ok { binding with intent }
  | .error e => .error ⟨id, "invalid input: " ++ e⟩

/-- The checks and the result of a compilation after the expansion. -/
def finish (source : ProcessSource) (bindings : SortedMap Name ActionBinding) (root : CompiledNode)
    (st : Expander) : Except Compile.Error ResolvedProcess :=
  if st.visitedFlows.card ≠ source.flows.length then
    .error ⟨"source", "unreachable flow definition"⟩
  else
    let bindings := bindings.restrict (· ∈ st.usedBindings)
    match resources bindings root with
    | .error e => .error e
    | .ok _ => .ok
      { schema := "rx.resolved-process.v1"
        packageDigest := none
        sourceDigest := Hashing.source source.canonical
        process := source.process
        root
        bindings
        conditions := source.conditions }

/-- Compile a source with the bindings of its operations. -/
def compile (source : ProcessSource) (bindings : SortedMap Name ActionBinding) :
    Except Compile.Error ResolvedProcess :=
  match SourceValidation.validate source with
  | issue :: _ => .error ⟨issue.location, issue.message⟩
  | [] =>
    match unresolved source bindings with
    | some node => .error ⟨node.id, "unresolved action binding"⟩
    | none =>
      match bindings.traverse normalizedBinding with
      | .error e => .error e
      | .ok bindings =>
        match source.flowMap.get? source.entry with
        | none => .error ⟨source.entry, "entry flow missing"⟩
        | some entry =>
          match expand source.process source.flowMap 65 entry entry.root [] []
              ⟨4096, ∅, ∅, ∅⟩ with
          | (.error e, _) => .error e
          | (.ok root, st) => finish source bindings root st

end RxSolutions.Process
