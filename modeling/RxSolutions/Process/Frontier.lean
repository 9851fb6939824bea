import RxSolutions.Domain.Operation
import RxSolutions.Process.Tree

/-!
# Planning

The planner reads a resolved process and everything known about its progress and suggests
what may be asked for next. It refuses views in which something happened out of order.
-/

namespace RxSolutions.Process

open Domain Durable

/-- The operation of a node and the digest of its intent. -/
structure OperationProgress where
  operation : Operation
  intentDigest : Digest

/-- The committed decision of a branch. -/
structure BranchChoice where
  decision : Id
  chosen : Bool
  evidenceIds : List Id
  deriving DecidableEq, Repr

/-- The committed end of a wait. -/
inductive WaitProgress
  | satisfied (decision : Id) (evidenceIds : List Id)
  | timedOut (decision : Id)
  deriving DecidableEq, Repr

/-- How far a run has come. -/
structure ProgressView where
  run : Id
  resolvedDigest : Digest
  complete : Bool
  operations : SortedMap Name OperationProgress
  branches : SortedMap Name BranchChoice
  waits : SortedMap Name WaitProgress
  clearedInterventions : SortedMap Name Id

/-- How far a node has come. -/
inductive State
  | ready | running | blocked | failed | completed
  deriving DecidableEq, Repr

/-- The state of a node and what can be done next below it. -/
structure Frontier where
  state : State
  operations : List Name := []
  decisions : List Name := []
  waits : List Name := []
  handovers : List Name := []
  interventions : List Name := []
  pendingOperations : List Id := []
  reasons : List String := []
  deriving DecidableEq, Repr

namespace Frontier

/-- The suggestions of both, under the first one's state. -/
def merge (f g : Frontier) : Frontier :=
  { state := f.state
    operations := f.operations ++ g.operations
    decisions := f.decisions ++ g.decisions
    waits := f.waits ++ g.waits
    handovers := f.handovers ++ g.handovers
    interventions := f.interventions ++ g.interventions
    pendingOperations := f.pendingOperations ++ g.pendingOperations
    reasons := f.reasons ++ g.reasons }

/-- Nothing new is suggested. -/
def suppressNew (f : Frontier) : Frontier :=
  { f with operations := [], decisions := [], waits := [] }

/-- The frontier of a parallel node from those of its children. -/
def parallel (results : List Frontier) : Frontier :=
  let blocked := ∃ r ∈ results, r.state = .blocked
  let failed := ∃ r ∈ results, r.state = .failed
  let result := results.foldl merge { state := .running }
  let state : State :=
    if blocked ∨ (failed ∧ result.pendingOperations ≠ []) then .blocked
    else if failed then .failed
    else if ∀ r ∈ results, r.state = .completed then .completed
    else if result.operations ≠ [] then .ready
    else .running
  let result := { result with state }
  if blocked ∨ failed then result.suppressNew else result

end Frontier

/-- The frontier of an operation. -/
def evaluateOperation (id : Name) (progress : Option OperationProgress) : Frontier :=
  match progress with
  | none => { state := .ready, operations := [id] }
  | some progress =>
    let operation := progress.operation
    if operation.Unclear then
      { state := .blocked, reasons := [id ++ " requires reconciliation"],
        pendingOperations := [operation.operationId] }
    else match operation.outcome with
      | .succeeded =>
        if operation.disposition = .released then { state := .completed }
        else { state := .running, handovers := [id] }
      | .failed | .canceled | .notExecuted => { state := .failed }
      | .none | .unresolved =>
        { state := .running, pendingOperations := [operation.operationId] }

/-- Whether anything is known to have happened at a node. -/
def ProgressView.touches (view : ProgressView) (id : Name) : Bool :=
  (view.operations.get? id).isSome || (view.branches.get? id).isSome ||
    (view.waits.get? id).isSome || (view.clearedInterventions.get? id).isSome

mutual

/-- A node or one below it has been touched. -/
def hasProgress (view : ProgressView) : CompiledNode → Bool
  | .sequence id _ children | .parallelAll id _ children =>
    view.touches id || hasProgressAny view children
  | .branch id _ _ whenTrue whenFalse =>
    view.touches id || (hasProgress view whenTrue || hasProgress view whenFalse)
  | .operation id .. | .wait id .. | .intervention id .. => view.touches id

/-- One of the nodes has progress. -/
def hasProgressAny (view : ProgressView) : List CompiledNode → Bool
  | [] => false
  | child :: children => hasProgress view child || hasProgressAny view children

end

mutual

/-- The frontier of a node. -/
def evaluate (view : ProgressView) : CompiledNode → Except String Frontier
  | .operation id _ _ => .ok (evaluateOperation id (view.operations.get? id))
  | .sequence _ _ children => evaluateSequence view children
  | .parallelAll _ _ children =>
    match evaluateAll view children with
    | .error e => .error e
    | .ok results => .ok (Frontier.parallel results)
  | .branch id _ _ whenTrue whenFalse =>
    match view.branches.get? id with
    | some choice =>
      if hasProgress view (if choice.chosen then whenFalse else whenTrue) then
        .error "progress exists on the unselected branch"
      else if choice.chosen then evaluate view whenTrue
      else evaluate view whenFalse
    | none =>
      if hasProgress view whenTrue || hasProgress view whenFalse then
        .error "branch activity lacks a committed choice"
      else .ok { state := .running, decisions := [id] }
  | .wait id _ _ _ =>
    match view.waits.get? id with
    | some (.satisfied ..) => .ok { state := .completed }
    | some (.timedOut _) => .ok { state := .failed }
    | none => .ok { state := .running, waits := [id] }
  | .intervention id _ _ =>
    if (view.clearedInterventions.get? id).isSome then .ok { state := .completed }
    else .ok { state := .blocked, interventions := [id] }

/-- The first child that is not complete; nothing after it may have happened. -/
def evaluateSequence (view : ProgressView) : List CompiledNode → Except String Frontier
  | [] => .ok { state := .completed }
  | child :: children =>
    match evaluate view child with
    | .error e => .error e
    | .ok result =>
      if result.state ≠ .completed then
        if hasProgressAny view children then
          .error "progress crosses an incomplete sequence predecessor"
        else .ok result
      else evaluateSequence view children

/-- The frontiers of a list of nodes. -/
def evaluateAll (view : ProgressView) : List CompiledNode → Except String (List Frontier)
  | [] => .ok []
  | child :: children =>
    match evaluate view child with
    | .error e => .error e
    | .ok result =>
      match evaluateAll view children with
      | .error e => .error e
      | .ok results => .ok (result :: results)

end

/-! ## Plans -/

/-- Adds a node, unless it is too deep, one too many or known already. -/
def place (node : CompiledNode) (all : SortedMap Name CompiledNode) (depth : ℕ) :
    Except String (SortedMap Name CompiledNode) :=
  if 64 < depth ∨ 4096 ≤ all.entries.length ∨ (all.get? node.id).isSome then
    .error "compiled node depth/count/identity differs"
  else .ok (all.insert node.id node)

mutual

/-- The nodes of a tree by identity. -/
def collect : CompiledNode → SortedMap Name CompiledNode → ℕ →
    Except String (SortedMap Name CompiledNode)
  | .sequence id source children, all, depth =>
    match place (.sequence id source children) all depth with
    | .error e => .error e
    | .ok all =>
      if children.isEmpty then .error "empty compiled control node"
      else collectAll children all (depth + 1)
  | .parallelAll id source children, all, depth =>
    match place (.parallelAll id source children) all depth with
    | .error e => .error e
    | .ok all =>
      if children.isEmpty then .error "empty compiled control node"
      else collectAll children all (depth + 1)
  | .branch id source condition whenTrue whenFalse, all, depth =>
    match place (.branch id source condition whenTrue whenFalse) all depth with
    | .error e => .error e
    | .ok all =>
      match collect whenTrue all (depth + 1) with
      | .error e => .error e
      | .ok all => collect whenFalse all (depth + 1)
  | .operation id source binding, all, depth => place (.operation id source binding) all depth
  | .wait id source condition timeoutNs, all, depth =>
    place (.wait id source condition timeoutNs) all depth
  | .intervention id source procedure, all, depth =>
    place (.intervention id source procedure) all depth

/-- The nodes of a list of trees, by identifier. -/
def collectAll : List CompiledNode → SortedMap Name CompiledNode → ℕ →
    Except String (SortedMap Name CompiledNode)
  | [], all, _ => .ok all
  | child :: children, all, depth =>
    match collect child all depth with
    | .error e => .error e
    | .ok all => collectAll children all depth

end

variable [Hashing]

/-- The digest of a process whose nodes can be collected. -/
def resolvedDigest (p : ResolvedProcess) : Except String Digest :=
  match collect p.root .empty 0 with
  | .error e => .error e
  | .ok _ => .ok (Hashing.process p)

/-- The checks of the operations, each with the identities of those before it. -/
def checkOperations (p : ResolvedProcess) (nodes : SortedMap Name CompiledNode) :
    List (Name × OperationProgress) → List Id → Except String Unit
  | [], _ => .ok ()
  | (node, progress) :: entries, ids =>
    match (nodes.get? node).map CompiledNode.label with
    | some (.operation binding) =>
      match p.bindings.get? binding with
      | none => .error "compiled action binding missing"
      | some binding =>
        match binding.intent.normalized with
        | .error e => .error ("invalid input: " ++ e)
        | .ok intent =>
          if progress.intentDigest ≠ Hashing.intent intent ∨
              progress.operation.operationId ∈ ids then
            .error "operation intent/activation correlation differs"
          else checkOperations p nodes entries (progress.operation.operationId :: ids)
    | _ => .error "operation progress targets a non-operation node"

/-- The first entry that is refused decides. -/
def checkEntries {α : Type} (ok : Name → α → Bool) (why : String) (entries : List (Name × α)) :
    Except String Unit :=
  if entries.all fun e => ok e.1 e.2 then .ok () else .error why

/-- What to do next, for a view that belongs to the process. -/
def plan (p : ResolvedProcess) (view : ProgressView) : Except String Frontier := do
  if ¬ view.complete then throw "partial progress cannot drive a process"
  if view.resolvedDigest ≠ (← resolvedDigest p) then
    throw "progress belongs to a different resolved process"
  let nodes ← collect p.root .empty 0
  let label (id : Name) : Option CompiledNode.Label := (nodes.get? id).map CompiledNode.label
  checkOperations p nodes view.operations.entries []
  checkEntries (fun id choice => (label id matches some (.branch _)) && !choice.evidenceIds.isEmpty)
    "branch choice requires a matching committed decision and evidence" view.branches.entries
  checkEntries (fun id wait => (label id matches some (.wait ..)) &&
      !(wait matches .satisfied _ []))
    "wait progress has no matching evidenced decision" view.waits.entries
  checkEntries (fun id _ => label id matches some (.intervention _))
    "clearance targets a non-intervention node" view.clearedInterventions.entries
  evaluate view p.root

/-! ## What the planner accepts -/

open CompiledNode (Holds holds_empty nodes nodes_eq)

omit [Hashing] in
theorem place_eq_ok {t : CompiledNode} {all all' : SortedMap Name CompiledNode} {depth : ℕ} :
    place t all depth = .ok all' ↔ depth ≤ 64 ∧ all.entries.length < 4096 ∧
      all.get? t.id = none ∧ all' = all.insert t.id t := by
  unfold place
  split
  · rename_i h
    refine iff_of_false (by simp) ?_
    rintro ⟨hdepth, hroom, hnone, -⟩
    simp only [hnone, Option.isSome_none, Bool.false_eq_true, or_false] at h
    omega
  · rename_i h
    simp only [not_or, not_lt, not_le, Option.not_isSome_iff_eq_none] at h
    simp [h, eq_comm]

omit [Hashing] in
/-- A node is collected before its children. -/
theorem collect_eq_ok {t : CompiledNode} {all all' : SortedMap Name CompiledNode} {depth : ℕ} :
    collect t all depth = .ok all' ↔
      (t.label = .sequence ∨ t.label = .parallelAll → t.children ≠ []) ∧
        ∃ mid, place t all depth = .ok mid ∧ collectAll t.children mid (depth + 1) = .ok all' := by
  cases t with
  | sequence id source cs | parallelAll id source cs =>
    rw [collect]
    split
    · rename_i hplace
      simp [hplace]
    · rename_i hplace
      cases cs <;> simp [hplace, CompiledNode.label, CompiledNode.children]
  | branch id source condition a b =>
    rw [collect]
    split
    · rename_i hplace
      simp [hplace]
    · rename_i mid hplace
      simp only [hplace, Except.ok.injEq, exists_eq_left', CompiledNode.label,
        CompiledNode.children, collectAll, reduceCtorEq, or_self, false_imp_iff, true_and]
      cases collect a mid (depth + 1) with
      | error e => simp
      | ok mid =>
        dsimp only
        cases collect b mid (depth + 1) <;> simp
  | operation | wait | intervention =>
    simp [collect, CompiledNode.label, CompiledNode.children, collectAll]

omit [Hashing] in
theorem collectAll_eq (ts : List CompiledNode) (all : SortedMap Name CompiledNode) (depth : ℕ) :
    collectAll ts all depth = ts.foldlM (fun all t => collect t all depth) all := by
  induction ts generalizing all with
  | nil => rfl
  | cons t ts ih =>
    rw [collectAll, List.foldlM_cons]
    cases collect t all depth with
    | error e => rfl
    | ok mid => exact ih mid

omit [Hashing] in
/-- The collected nodes are those of the tree, by identity. -/
theorem holds_collect {t : CompiledNode} {ns : List CompiledNode}
    {all all' : SortedMap Name CompiledNode} {depth : ℕ} (hall : Holds id ns all)
    (h : collect t all depth = .ok all') : Holds id (ns ++ t.nodes) all' := by
  induction t generalizing ns all all' depth with
  | h t ih =>
  obtain ⟨-, mid, hplace, hrest⟩ := collect_eq_ok.mp h
  obtain ⟨-, -, hnone, rfl⟩ := place_eq_ok.mp hplace
  rw [collectAll_eq] at hrest
  rw [nodes_eq, ← List.singleton_append, ← List.append_assoc]
  exact (hall.insert (hall.get?_eq_none.mp hnone)).foldlM (fun c hc _ _ _ => ih c hc) hrest

/-- What an accepted view says: progress is at nodes of its kind, and the tree was
evaluated. -/
structure Planned (p : ResolvedProcess) (view : ProgressView) (f : Frontier) : Prop where
  operations : ∀ id progress, view.operations.get? id = some progress →
    ∃ n ∈ p.root.nodes, n.id = id ∧ ∃ binding, n.label = .operation binding
  branches : ∀ id choice, view.branches.get? id = some choice →
    ∃ n ∈ p.root.nodes, n.id = id ∧ ∃ condition, n.label = .branch condition
  waits : ∀ id wait, view.waits.get? id = some wait →
    ∃ n ∈ p.root.nodes, n.id = id ∧ ∃ condition timeoutNs, n.label = .wait condition timeoutNs
  cleared : ∀ id clearance, view.clearedInterventions.get? id = some clearance →
    ∃ n ∈ p.root.nodes, n.id = id ∧ ∃ procedure, n.label = .intervention procedure
  evaluated : evaluate view p.root = .ok f

theorem label_of_checkOperations {p : ResolvedProcess} {nodes : SortedMap Name CompiledNode}
    {entries : List (Name × OperationProgress)} {ids : List Id}
    (h : checkOperations p nodes entries ids = .ok ()) :
    ∀ e ∈ entries, ∃ binding, (nodes.get? e.1).map CompiledNode.label =
      some (.operation binding) := by
  induction entries generalizing ids with
  | nil => simp
  | cons e entries ih =>
    unfold checkOperations at h
    split at h
    · rename_i binding hlabel
      split at h
      · cases h
      split at h
      · cases h
      split at h
      · cases h
      exact List.forall_mem_cons.mpr ⟨⟨binding, hlabel⟩, ih h⟩
    · cases h

omit [Hashing] in
theorem checkEntries_eq_ok {α : Type} {ok : Name → α → Bool} {why : String}
    {entries : List (Name × α)} (h : checkEntries ok why entries = .ok ()) :
    ∀ e ∈ entries, ok e.1 e.2 = true := by
  unfold checkEntries at h
  split at h
  · rename_i hall
    exact List.all_eq_true.mp hall
  · cases h

theorem planned_of_plan {p : ResolvedProcess} {view : ProgressView} {f : Frontier}
    (h : plan p view = .ok f) : Planned p view f := by
  unfold plan at h
  simp only [bind, Except.bind, throw, throwThe, MonadExceptOf.throw] at h
  split at h
  · cases h
  split at h
  · cases h
  split at h
  · cases h
  split at h
  · cases h
  rename_i nodes hnodes
  split at h
  · cases h
  rename_i hoperations
  split at h
  · cases h
  rename_i hbranches
  split at h
  · cases h
  rename_i hwaits
  split at h
  · cases h
  rename_i hcleared
  -- a label found among the collected nodes is the label of a node of the tree
  have hlabel : ∀ {id label}, (nodes.get? id).map CompiledNode.label = some label →
      ∃ n ∈ p.root.nodes, n.id = id ∧ n.label = label := by
    intro id label hid
    obtain ⟨n, hn, rfl⟩ := Option.map_eq_some_iff.mp hid
    obtain ⟨_, hmem, hname, rfl⟩ := (holds_collect holds_empty hnodes id n).mp hn
    exact ⟨_, hmem, hname, rfl⟩
  constructor
  case evaluated => exact h
  case operations =>
    intro id progress hget
    obtain ⟨binding, hid⟩ :=
      label_of_checkOperations hoperations _ (SortedMap.mem_entries.mpr hget)
    obtain ⟨n, hn, hid, hl⟩ := hlabel hid
    exact ⟨n, hn, hid, binding, hl⟩
  case branches =>
    intro id choice hget
    have hok := checkEntries_eq_ok hbranches _ (SortedMap.mem_entries.mpr hget)
    rw [Bool.and_eq_true] at hok
    split at hok
    · rename_i condition hid
      obtain ⟨n, hn, hid, hl⟩ := hlabel hid
      exact ⟨n, hn, hid, condition, hl⟩
    · exact absurd hok.1 Bool.false_ne_true
  case waits =>
    intro id wait hget
    have hok := checkEntries_eq_ok hwaits _ (SortedMap.mem_entries.mpr hget)
    rw [Bool.and_eq_true] at hok
    split at hok
    · rename_i condition timeoutNs hid
      obtain ⟨n, hn, hid, hl⟩ := hlabel hid
      exact ⟨n, hn, hid, condition, timeoutNs, hl⟩
    · exact absurd hok.1 Bool.false_ne_true
  case cleared =>
    intro id clearance hget
    have hok := checkEntries_eq_ok hcleared _ (SortedMap.mem_entries.mpr hget)
    split at hok
    · rename_i procedure hid
      obtain ⟨n, hn, hid, hl⟩ := hlabel hid
      exact ⟨n, hn, hid, procedure, hl⟩
    · exact absurd hok Bool.false_ne_true

end RxSolutions.Process
