import RxSolutions.Process.Model

/-!
# Validation of process sources

The structural checks a source must pass before it is compiled. Every check adds an issue
to a bounded report and the source is valid when there is none, so a valid source has
passed every check that was made.

Of the report only the issues and the number of expanded nodes are modelled; nothing below
reads its other fields.
-/

namespace RxSolutions.Process

open Domain Durable

/-- The texts of the errors about a condition's shape. -/
structure ShapeTexts where
  limit : String
  empty : String
  range : String

mutual

/-- The shape checks of a condition, counting its parts. -/
def conditionShape (texts : ShapeTexts) : Condition → ℕ → ℕ → Except String ℕ
  | .all children, depth, count | .any children, depth, count =>
    if 32 ≤ depth ∨ 1024 < count + 1 then .error texts.limit
    else if children.isEmpty then .error texts.empty
    else conditionShapes texts children (depth + 1) (count + 1)
  | .range _ _ _ min max, depth, count =>
    if 32 ≤ depth ∨ 1024 < count + 1 then .error texts.limit
    else if max < min then .error texts.range
    else .ok (count + 1)
  | .eq .., depth, count | .setContains .., depth, count =>
    if 32 ≤ depth ∨ 1024 < count + 1 then .error texts.limit else .ok (count + 1)

/-- The shape checks of the parts of a condition. -/
def conditionShapes (texts : ShapeTexts) : List Condition → ℕ → ℕ → Except String ℕ
  | [], _, count => .ok count
  | c :: cs, depth, count =>
    match conditionShape texts c depth count with
    | .ok count => conditionShapes texts cs depth count
    | .error e => .error e

end

mutual

/-- Whether the shape is accepted does not depend on the texts. -/
theorem conditionShape_texts {texts texts' : ShapeTexts} :
    ∀ (c : Condition) (depth count n : ℕ), conditionShape texts c depth count = .ok n →
      conditionShape texts' c depth count = .ok n
  | .all children, depth, count, n, h | .any children, depth, count, n, h => by
    unfold conditionShape at h ⊢
    split at h
    · cases h
    split at h
    · cases h
    · rename_i hlimit hempty
      rw [if_neg hlimit, if_neg hempty]
      exact conditionShapes_texts children _ _ n h
  | .range .., depth, count, n, h => by
    unfold conditionShape at h ⊢
    split at h
    · cases h
    split at h
    · cases h
    · rename_i hlimit hrange
      rw [if_neg hlimit, if_neg hrange]
      exact h
  | .eq .., depth, count, n, h | .setContains .., depth, count, n, h => by
    unfold conditionShape at h ⊢
    split at h
    · cases h
    · rename_i hlimit
      rw [if_neg hlimit]
      exact h

theorem conditionShapes_texts {texts texts' : ShapeTexts} :
    ∀ (cs : List Condition) (depth count n : ℕ), conditionShapes texts cs depth count = .ok n →
      conditionShapes texts' cs depth count = .ok n
  | [], _, _, _, h => h
  | c :: cs, depth, count, n, h => by
    unfold conditionShapes at h ⊢
    split at h
    · rename_i count' hc
      rw [conditionShape_texts c depth count count' hc]
      exact conditionShapes_texts cs depth count' n h
    · cases h

end

namespace SourceValidation

/-- A fault of a source and where it is. -/
structure Issue where
  location : String
  code : String
  message : String
  deriving DecidableEq, Repr

/-- Adds an issue, up to a bound. -/
def issue (r : List Issue) (location code message : String) : List Issue :=
  if r.length < 128 then r ++ [⟨location, code, message⟩] else r

theorem issue_ne_nil (r : List Issue) (location code message : String) :
    issue r location code message ≠ [] := by
  unfold issue
  split
  · simp
  · rename_i h
    intro hnil
    simp [hnil] at h

/-- Adds an issue when a condition holds. -/
def flag (condition : Prop) [Decidable condition] (location code message : String)
    (r : List Issue) : List Issue :=
  if condition then issue r location code message else r

theorem flag_eq_nil {condition : Prop} [Decidable condition] {location code message : String}
    {r : List Issue} : flag condition location code message r = [] ↔ r = [] ∧ ¬ condition := by
  unfold flag
  split
  · simp_all [issue_ne_nil]
  · simp_all

/-! ## The checks of one flow -/

/-- The checks of one node's body. -/
def bodyIssue (source : ProcessSource) (at_ : String) (r : List Issue) : NodeBody → List Issue
  | .sequence children | .parallelAll children =>
    flag (children = []) at_ "EMPTY_CONTROL" "empty control node" r
  | .repeat count _ =>
    flag (count = 0 ∨ 1024 < count) at_ "REPEAT_LIMIT"
      "repeat must have a finite count in 1..1024" r
  | .call flow => flag (source.flowMap.get? flow = none) at_ "CALL_MISSING" "called flow missing" r
  | .branch condition _ _ =>
    flag (source.conditions.get? condition = none) at_ "CONDITION_MISSING" "condition missing" r
  | .wait condition timeoutNs =>
    if source.conditions.get? condition = none then
      issue r at_ "CONDITION_MISSING" "condition missing"
    else flag (timeoutNs = 0) at_ "WAIT_LIMIT" "wait deadline required" r
  | .operation _ | .intervention _ => r

/-- The faults of a node. -/
def nodeIssues (source : ProcessSource) (flow : Flow) (r : List Issue) (node : Node) :
    List Issue :=
  let at_ := flow.id ++ "/" ++ node.id
  bodyIssue source at_
    (node.body.children.foldl (fun r child =>
      flag (∀ n ∈ flow.nodes, n.id ≠ child) at_ "CHILD_MISSING" "child missing" r) r)
    node.body

/-- Visits children until one is refused. -/
def visitAll (visit : Name → List Name → Bool × List Name) : List Name → List Name →
    Bool × List Name
  | [], seen => (true, seen)
  | child :: children, seen =>
    match visit child seen with
    | (true, seen) => visitAll visit children seen
    | refused => refused

/-- The search for a cycle; the levels left bound its depth by 64. -/
def visit (flow : Flow) : ℕ → Name → List Name → Bool × List Name
  | 0, _, seen => (false, seen)
  | levels + 1, id, seen =>
    if id ∈ seen then (false, seen)
    else match flow.find id with
      | none => (false, id :: seen)
      | some node => visitAll (visit flow levels) node.body.children (id :: seen)

/-- The nodes of a flow form a tree under its root. -/
def treeIssues (flow : Flow) (r : List Issue) : List Issue :=
  match visit flow 65 flow.root [] with
  | (false, _) => issue r flow.id "TREE_DEPTH_OR_CYCLE" "cycle or structural depth"
  | (true, seen) =>
    flag (seen.length ≠ flow.nodes.length) flow.id "UNREACHABLE_NODE" "unreachable nodes" r

/-- The faults of a flow. -/
def flowIssues (source : ProcessSource) (r : List Issue) (flow : Flow) : List Issue :=
  if flow.nodes = [] ∨ 1024 < flow.nodes.length then issue r flow.id "NODE_LIMIT" "node count"
  else if ¬ (flow.nodes.map (·.id)).Nodup then
    issue r flow.id "DUPLICATE_NODE" "duplicate node ID"
  else if ∀ n ∈ flow.nodes, n.id ≠ flow.root then
    issue r flow.id "ROOT_MISSING" "flow root missing"
  else
    let r := flow.nodes.foldl (nodeIssues source flow) r
    let children := flow.nodes.flatMap (·.body.children)
    let r := flag (flow.root ∈ children ∨ ∃ c ∈ children, children.count c ≠ 1) flow.id
      "SHARED_OR_CYCLIC_NODE" "shared/cyclic node: use a distinct Call occurrence for reuse" r
    if r = [] then treeIssues flow r else r

/-! ## The checks of a source -/

/-- The texts of the faults of a condition. -/
def shapeTexts : ShapeTexts := ⟨"condition complexity", "empty condition", "inverted range"⟩

/-- A condition has a proper shape. -/
def conditionIssue (r : List Issue) (e : Name × Condition) : List Issue :=
  match conditionShape shapeTexts e.2 0 0 with
  | .ok _ => r
  | .error reason => issue r e.1 "CONDITION_SHAPE" reason

/-- Follows every call and repetition, as the compiler does. -/
def expand (flows : SortedMap Name Flow) : ℕ → Flow → Name → List Name → Finset Name × ℕ →
    Except (String × String) (Finset Name × ℕ)
  | 0, _, _, _, _ => .error ("EXPANSION_LIMIT", "expanded plan limit")
  | levels + 1, flow, id, calls, (visited, remaining) =>
    if remaining = 0 then .error ("EXPANSION_LIMIT", "expanded plan limit")
    else
      let state := (insert flow.id visited, remaining - 1)
      match flow.find id with
      | none => .error ("", "validated child")
      | some node =>
        match node.body with
        | .call target =>
          if target ∈ calls then .error ("CALL_CYCLE", "recursive flow call")
          else match flows.get? target with
            | none => .error ("", "validated call")
            | some next => expand flows levels next next.root (calls ++ [target]) state
        | .repeat count child =>
          (List.replicate count child).foldlM
            (fun state child => expand flows levels flow child calls state) state
        | body => body.children.foldlM
            (fun state child => expand flows levels flow child calls state) state

/-- The faults that unfolding the entry meets. -/
def expansionIssues (source : ProcessSource) (r : List Issue) : List Issue :=
  match source.flowMap.get? source.entry with
  | none => r
  | some entry =>
    match expand source.flowMap 65 entry entry.root [source.entry] (∅, 4096) with
    | .error (code, message) => issue r source.entry code message
    | .ok (visited, _) =>
      flag (visited.card ≠ source.flowMap.entries.length) "source" "UNREACHABLE_FLOW"
        "unreachable flow definition" r

/-- The issues of a source. -/
def validate (source : ProcessSource) : List Issue :=
  if source.schema ≠ "rx.process-source.v1" ∨ source.flows = [] ∨ 128 < source.flows.length then
    issue [] "source" "SOURCE_SHAPE" "schema or flow count"
  else if source.flowMap.entries.length ≠ source.flows.length then
    issue [] "source" "DUPLICATE_FLOW" "duplicate flow ID"
  else
    let r := flag (source.flowMap.get? source.entry = none) source.entry "ENTRY_MISSING"
      "entry flow missing" []
    let r := source.flows.foldl (flowIssues source) r
    let r := source.conditions.entries.foldl conditionIssue r
    if r = [] then expansionIssues source r else r

/-- The number of expanded nodes in the report of a source without issues. -/
def expandedNodes (source : ProcessSource) : ℕ :=
  match source.flowMap.get? source.entry with
  | none => 0
  | some entry =>
    match expand source.flowMap 65 entry entry.root [source.entry] (∅, 4096) with
    | .error _ => 0
    | .ok (_, remaining) => 4096 - remaining

/-! ## What a source without issues satisfies -/

/-- What the checks of one node's body establish. -/
def BodyOk (source : ProcessSource) : NodeBody → Prop
  | .sequence children | .parallelAll children => children ≠ []
  | .repeat count _ => count ≠ 0 ∧ count ≤ 1024
  | .call flow => source.flowMap.get? flow ≠ none
  | .branch condition _ _ => source.conditions.get? condition ≠ none
  | .wait condition timeoutNs => source.conditions.get? condition ≠ none ∧ timeoutNs ≠ 0
  | .operation _ | .intervention _ => True

/-- What the checks of one flow establish. -/
structure FlowOk (source : ProcessSource) (flow : Flow) : Prop where
  size : flow.nodes ≠ [] ∧ flow.nodes.length ≤ 1024
  ids : (flow.nodes.map (·.id)).Nodup
  root : ∃ n ∈ flow.nodes, n.id = flow.root
  children : ∀ node ∈ flow.nodes, ∀ child ∈ node.body.children, ∃ n ∈ flow.nodes, n.id = child
  bodies : ∀ node ∈ flow.nodes, BodyOk source node.body
  rootless : flow.root ∉ flow.nodes.flatMap (·.body.children)
  unshared : ∀ c ∈ flow.nodes.flatMap (·.body.children),
    (flow.nodes.flatMap (·.body.children)).count c = 1
  tree : ∃ seen, visit flow 65 flow.root [] = (true, seen) ∧ seen.length = flow.nodes.length

/-- What the checks of a source establish. -/
structure Accepted (source : ProcessSource) : Prop where
  schema : source.schema = "rx.process-source.v1"
  count : source.flows ≠ [] ∧ source.flows.length ≤ 128
  distinct : source.flowMap.entries.length = source.flows.length
  flows : ∀ flow ∈ source.flows, FlowOk source flow
  conditions : ∀ name c, source.conditions.get? name = some c →
    ∃ n, conditionShape shapeTexts c 0 0 = .ok n
  expansion : ∃ entry visited remaining, source.flowMap.get? source.entry = some entry ∧
    expand source.flowMap 65 entry entry.root [source.entry] (∅, 4096) =
      .ok (visited, remaining) ∧ visited.card = source.flowMap.entries.length

variable {source : ProcessSource} {flow : Flow} {r : List Issue}

/-- A loop of checks adds nothing when there was nothing and each check passes. -/
theorem foldl_eq_nil {α : Type} {check : List Issue → α → List Issue} {ok : α → Prop} {l : List α}
    {r : List Issue} (h : ∀ r, ∀ a ∈ l, check r a = [] ↔ r = [] ∧ ok a) :
    l.foldl check r = [] ↔ r = [] ∧ ∀ a ∈ l, ok a := by
  induction l generalizing r with
  | nil => simp
  | cons a l ih =>
    rw [List.foldl_cons, ih fun r b hb => h r b (List.mem_cons_of_mem _ hb),
      h r a List.mem_cons_self, List.forall_mem_cons, and_assoc]

theorem bodyIssue_eq_nil {at_ : String} {body : NodeBody} :
    bodyIssue source at_ r body = [] ↔ r = [] ∧ BodyOk source body := by
  cases body with
  | wait condition timeoutNs =>
    simp only [bodyIssue, BodyOk]
    split
    · rename_i hmissing
      simp [issue_ne_nil, hmissing]
    · rename_i hfound
      simp [flag_eq_nil, hfound]
  | _ => simp [bodyIssue, BodyOk, flag_eq_nil]

theorem nodeIssues_eq_nil {node : Node} : nodeIssues source flow r node = [] ↔
    r = [] ∧ (∀ child ∈ node.body.children, ∃ n ∈ flow.nodes, n.id = child) ∧
      BodyOk source node.body := by
  have hchildren : ∀ at_ r, node.body.children.foldl (fun r child =>
      flag (∀ n ∈ flow.nodes, n.id ≠ child) at_ "CHILD_MISSING" "child missing" r) r = [] ↔
      r = [] ∧ ∀ child ∈ node.body.children, ¬ ∀ n ∈ flow.nodes, n.id ≠ child :=
    fun at_ r => foldl_eq_nil fun r child _ => flag_eq_nil
  unfold nodeIssues
  rw [bodyIssue_eq_nil, hchildren, and_assoc]
  simp only [not_forall, not_not, exists_prop]

theorem treeIssues_eq_nil : treeIssues flow r = [] ↔
    r = [] ∧ ∃ seen, visit flow 65 flow.root [] = (true, seen) ∧
      seen.length = flow.nodes.length := by
  unfold treeIssues
  split
  · rename_i hvisit
    simp [issue_ne_nil, hvisit]
  · rename_i seen hvisit
    simp [flag_eq_nil, hvisit]

theorem flowIssues_eq_nil : flowIssues source r flow = [] ↔ r = [] ∧ FlowOk source flow := by
  have hnodes : ∀ r, flow.nodes.foldl (nodeIssues source flow) r = [] ↔ r = [] ∧
      ∀ node ∈ flow.nodes, (∀ child ∈ node.body.children, ∃ n ∈ flow.nodes, n.id = child) ∧
        BodyOk source node.body :=
    fun r => foldl_eq_nil fun r node _ => nodeIssues_eq_nil
  constructor
  · intro h
    unfold flowIssues at h
    split at h
    · exact absurd h (issue_ne_nil _ _ _ _)
    rename_i hsize
    split at h
    · exact absurd h (issue_ne_nil _ _ _ _)
    rename_i hids
    split at h
    · exact absurd h (issue_ne_nil _ _ _ _)
    rename_i hroot
    dsimp only at h
    -- the search of the tree is skipped when there are issues already
    split at h
    · rename_i hnone
      rw [flag_eq_nil, hnodes, not_or] at hnone
      obtain ⟨⟨hr, hpassed⟩, hrootless, hshared⟩ := hnone
      refine ⟨hr, ?_⟩
      push Not at hsize hroot hshared
      exact {
        size := hsize
        ids := not_not.mp hids
        root := hroot
        children := fun node hnode => (hpassed node hnode).1
        bodies := fun node hnode => (hpassed node hnode).2
        rootless := hrootless
        unshared := hshared
        tree := (treeIssues_eq_nil.mp h).2 }
    · contradiction
  · rintro ⟨rfl, hok⟩
    have hsize : ¬ (flow.nodes = [] ∨ 1024 < flow.nodes.length) := by
      rw [not_or, not_lt]
      exact hok.size
    have hroot : ¬ ∀ n ∈ flow.nodes, n.id ≠ flow.root := by
      push Not
      exact hok.root
    unfold flowIssues
    rw [if_neg hsize, if_neg (not_not.mpr hok.ids), if_neg hroot]
    dsimp only
    split
    · rename_i hnone
      exact treeIssues_eq_nil.mpr ⟨hnone, hok.tree⟩
    · rename_i hsome
      refine absurd (flag_eq_nil.mpr ⟨?_, ?_⟩) hsome
      · rw [hnodes]
        exact ⟨rfl, fun node hnode => ⟨hok.children node hnode, hok.bodies node hnode⟩⟩
      · rintro (hbad | ⟨c, hc, hbad⟩)
        · exact hok.rootless hbad
        · exact hbad (hok.unshared c hc)

theorem conditionIssue_eq_nil {e : Name × Condition} : conditionIssue r e = [] ↔
    r = [] ∧ ∃ n, conditionShape shapeTexts e.2 0 0 = .ok n := by
  unfold conditionIssue
  split
  · rename_i n hn
    simp [hn]
  · rename_i reason hreason
    simp [hreason, issue_ne_nil]

theorem expansionIssues_eq_nil (hentry : source.flowMap.get? source.entry ≠ none) :
    expansionIssues source r = [] ↔ r = [] ∧
      ∃ entry visited remaining, source.flowMap.get? source.entry = some entry ∧
        expand source.flowMap 65 entry entry.root [source.entry] (∅, 4096) =
          .ok (visited, remaining) ∧ visited.card = source.flowMap.entries.length := by
  obtain ⟨entry, hfound⟩ := Option.ne_none_iff_exists'.mp hentry
  unfold expansionIssues
  simp only [hfound, Option.some.injEq, exists_eq_left', exists_and_left]
  split
  · rename_i hexpand
    simp [hexpand, issue_ne_nil]
  · rename_i visited remaining hexpand
    simp [hexpand, flag_eq_nil]

/-- A source has no issues exactly when it passes every check. -/
theorem validate_eq_nil : validate source = [] ↔ Accepted source := by
  have hconditions : ∀ r, source.conditions.entries.foldl conditionIssue r = [] ↔
      r = [] ∧ ∀ name c, source.conditions.get? name = some c →
        ∃ n, conditionShape shapeTexts c 0 0 = .ok n := by
    intro r
    have hloop : source.conditions.entries.foldl conditionIssue r = [] ↔ r = [] ∧
        ∀ e ∈ source.conditions.entries, ∃ n, conditionShape shapeTexts e.2 0 0 = .ok n :=
      foldl_eq_nil fun r e _ => conditionIssue_eq_nil
    simpa only [Prod.forall, SortedMap.mem_entries] using hloop
  have hflows : ∀ r, source.flows.foldl (flowIssues source) r = [] ↔
      r = [] ∧ ∀ flow ∈ source.flows, FlowOk source flow :=
    fun r => foldl_eq_nil fun r flow _ => flowIssues_eq_nil
  unfold validate
  constructor
  · intro h
    split at h
    · exact absurd h (issue_ne_nil _ _ _ _)
    rename_i hshape
    split at h
    · exact absurd h (issue_ne_nil _ _ _ _)
    rename_i hdistinct
    dsimp only at h
    split at h
    · rename_i hnone
      rw [hconditions, hflows, flag_eq_nil] at hnone
      obtain ⟨⟨⟨-, hentry⟩, hpassed⟩, hshapes⟩ := hnone
      push Not at hshape
      exact {
        schema := hshape.1
        count := hshape.2
        distinct := not_not.mp hdistinct
        flows := hpassed
        conditions := hshapes
        expansion := ((expansionIssues_eq_nil hentry).mp h).2 }
    · contradiction
  · intro hok
    have hshape : ¬ (source.schema ≠ "rx.process-source.v1" ∨ source.flows = [] ∨
        128 < source.flows.length) := by
      push Not
      exact ⟨hok.schema, hok.count⟩
    have hentry : source.flowMap.get? source.entry ≠ none := by
      obtain ⟨entry, _, _, hfound, -⟩ := hok.expansion
      simp [hfound]
    rw [if_neg hshape, if_neg (not_not.mpr hok.distinct)]
    dsimp only
    split
    · rename_i hnone
      exact (expansionIssues_eq_nil hentry).mpr ⟨hnone, hok.expansion⟩
    · rename_i hsome
      refine absurd ((hconditions _).mpr ⟨?_, hok.conditions⟩) hsome
      rw [hflows]
      exact ⟨flag_eq_nil.mpr ⟨rfl, hentry⟩, hok.flows⟩

end SourceValidation

end RxSolutions.Process
