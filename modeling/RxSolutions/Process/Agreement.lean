import RxSolutions.Process.SourceLink

/-!
# The compiler and the independent checks agree

Whatever the compiler returns is well formed and is the expansion of its source, so both
independent checks accept it; and every tree that the check against the source accepts is
the tree the compiler returns.
-/

namespace RxSolutions.Process

open Domain Durable CompiledNode

/-- The nodes that an expansion added to the state. -/
structure Grown (st : Expander) (ns : List CompiledNode) (st' : Expander) : Prop where
  ids : st'.ids = st.ids ∪ idsOf ns
  distinct : (ns.map CompiledNode.id).Nodup
  fresh : ∀ n ∈ ns, n.id ∉ st.ids
  remaining : st'.remaining + ns.length = st.remaining
  visited : st'.visitedFlows = st.visitedFlows ∪ flowsOf ns
  used : st'.usedBindings = st.usedBindings ∪ usedBy ns

theorem grown_nil (st : Expander) : Grown st [] st where
  ids := by simp [idsOf]
  distinct := List.nodup_nil
  fresh := by simp
  remaining := rfl
  visited := by simp [flowsOf]
  used := by simp [usedBy]

theorem grown_append (st st' st'' : Expander) (a b : List CompiledNode) (h : Grown st a st')
    (h' : Grown st' b st'') : Grown st (a ++ b) st'' where
  ids := by rw [h'.ids, h.ids]; simp [idsOf, Finset.union_assoc]
  distinct := by
    rw [List.map_append, List.nodup_append]
    refine ⟨h.distinct, h'.distinct, fun i hi j hj heq => ?_⟩
    obtain ⟨n, hn, rfl⟩ := List.mem_map.mp hj
    apply h'.fresh n hn
    rw [h.ids]
    exact Finset.mem_union_right _ (List.mem_toFinset.mpr (heq ▸ hi))
  fresh n hn := by
    obtain hn | hn := List.mem_append.mp hn
    · exact h.fresh n hn
    · intro hin
      apply h'.fresh n hn
      rw [h.ids]
      exact Finset.mem_union_left _ hin
  remaining := by
    have hfirst := h.remaining
    have hsecond := h'.remaining
    rw [List.length_append]
    omega
  visited := by rw [h'.visited, h.visited]; simp [flowsOf, Finset.union_assoc]
  used := by rw [h'.used, h.used]; simp [usedBy, Finset.union_assoc]

variable [Hashing] {process : Name} {flows : SortedMap Name Flow} {levels : ℕ} {pos : Position}
  {node : Node} {below : List Position} {t : CompiledNode} {st st' st'' : Expander}

/-- The state after a node was entered. -/
def Expander.entered (st : Expander) (flow id : Name) : Expander :=
  { st with
    remaining := st.remaining - 1
    visitedFlows := insert flow st.visitedFlows
    ids := insert id st.ids }

theorem enter_commits (st : Expander) : Program.Commits
    (enter process pos.flow pos.id pos.path)
    (fun node st' => pos.flow.find pos.id = some node ∧ st.remaining ≠ 0 ∧
      nodeId process ⟨pos.flow.id, node.id, pos.path⟩ ∉ st.ids ∧
      st' = st.entered pos.flow.id (nodeId process ⟨pos.flow.id, node.id, pos.path⟩)) st := by
  unfold enter
  rw [Program.commits_bind, Program.commits_get, Program.commits_bind, Program.commits_ensure]
  intro hremaining
  rw [Program.commits_bind]
  refine (Program.commits_set _).mpr ?_
  rw [Program.commits_bind, Program.commits_orThrow]
  intro node hnode
  rw [Program.commits_bind, Program.commits_ensure]
  intro hfresh
  rw [Program.commits_bind]
  exact (Program.commits_set _).mpr ⟨hnode, hremaining, hfresh, rfl⟩

/-- A tree that the expansion of a place may return. -/
structure Expands (process : Name) (flows : SortedMap Name Flow) (levels : ℕ) (pos : Position)
    (t : CompiledNode) : Prop where
  within : t.Within levels
  expansion : Matches flows pos t
  ids : ∀ n ∈ t.nodes, n.id = nodeId process n.source

/-- A node over the expansions of the places below it. -/
theorem expands_node (hfind : pos.flow.find pos.id = some node)
    (hspawn : spawn flows pos.flow pos.path node = some below)
    (hid : t.id = nodeId process t.source)
    (hsource : t.source = ⟨pos.flow.id, node.id, pos.path⟩) (hlabel : t.label = node.body.label)
    (hchildren : List.Forall₂ (Expands process flows levels) below t.children) :
    Expands process flows (levels + 1) pos t := by
  have hall : ∀ c ∈ t.children, ∃ pos, Expands process flows levels pos c := by
    generalize t.children = cs at hchildren
    clear hspawn
    induction hchildren with
    | nil => simp
    | cons hc _ ih => exact List.forall_mem_cons.mpr ⟨⟨_, hc⟩, ih⟩
  constructor
  · intro c hc
    obtain ⟨pos, hpos⟩ := hall c hc
    exact hpos.within
  · exact .intro pos t node below hfind hsource hlabel hspawn
      (hchildren.imp fun _ _ h => h.expansion)
  · intro n hn
    rw [nodes_eq] at hn
    obtain rfl | hn := List.mem_cons.mp hn
    · exact hid
    · obtain ⟨c, hc, hn⟩ := List.mem_flatMap.mp hn
      obtain ⟨pos, hpos⟩ := hall c hc
      exact hpos.ids n hn

omit [Hashing] in
/-- Entering a node adds it to the state. -/
theorem grown_entered {id : Name} (hremaining : st.remaining ≠ 0) (hfresh : id ∉ st.ids)
    (hid : t.id = id) (hflow : t.source.flow = pos.flow.id) :
    Grown st [t] { st.entered pos.flow.id id with
      usedBindings := st.usedBindings ∪ usedBy [t] } where
  ids := by
    ext i
    simp [Expander.entered, idsOf, hid]
  distinct := List.nodup_singleton _
  fresh n hn := by rw [List.mem_singleton.mp hn, hid]; exact hfresh
  remaining := by
    simp only [Expander.entered, List.length_singleton]
    omega
  visited := by
    ext f
    simp [Expander.entered, flowsOf, hflow]
  used := rfl

/-! ## One step of the expansion

Every node is expanded in the same way: it is entered, the places below it are expanded in
turn, and the node is put over what they became. -/

/-- The flow that a node calls. -/
def NodeBody.callee? : NodeBody → Option Name
  | .call callee => some callee
  | _ => none

/-- The open calls below a node of the flow. -/
def NodeBody.calls (body : NodeBody) (flow : Name) (calls : List Name) : List Name :=
  match body with
  | .call _ => calls ++ [flow]
  | _ => calls

/-- An operation uses its binding. -/
def NodeBody.use : NodeBody → Program Expander Compile.Error Unit
  | .operation binding => do
    let st ← get
    set { st with usedBindings := insert binding st.usedBindings }
  | _ => pure ()

/-- The expanded node over its expanded children. -/
def NodeBody.over (body : NodeBody) (id : Name) (source : SourceLocation)
    (children : List CompiledNode) : CompiledNode :=
  match body, children with
  | .parallelAll _, _ => .parallelAll id source children
  | .branch condition .., [whenTrue, whenFalse] => .branch id source condition whenTrue whenFalse
  | .operation binding, _ => .operation id source binding
  | .wait condition timeoutNs, _ => .wait id source condition timeoutNs
  | .intervention procedure, _ => .intervention id source procedure
  | _, _ => .sequence id source children

omit [Hashing] in
theorem NodeBody.over_spec (id : Name) (source : SourceLocation) {path : List String}
    {ts : List CompiledNode} (hspawn : spawn flows pos.flow path node = some below)
    (hlength : below.length = ts.length) :
    (node.body.over id source ts).id = id ∧ (node.body.over id source ts).source = source ∧
      (node.body.over id source ts).label = node.body.label ∧
      (node.body.over id source ts).children = ts := by
  unfold spawn at hspawn
  cases hbody : node.body with
  | branch condition whenTrue whenFalse =>
    rw [hbody] at hspawn
    cases hspawn
    obtain ⟨a, b, rfl⟩ := List.length_eq_two.mp hlength.symm
    exact ⟨rfl, rfl, rfl, rfl⟩
  | operation | wait | intervention =>
    rw [hbody] at hspawn
    cases hspawn
    obtain rfl := List.eq_nil_of_length_eq_zero hlength.symm
    exact ⟨rfl, rfl, rfl, rfl⟩
  | _ => exact ⟨rfl, rfl, rfl, rfl⟩

theorem expand_succ (levels : ℕ) (pos : Position) (calls : List Name) :
    expand process flows (levels + 1) pos.flow pos.id pos.path calls = (do
      let node ← enter process pos.flow pos.id pos.path
      ensure (∀ callee ∈ node.body.callee?, callee ∉ calls ∧ callee ≠ pos.flow.id)
        ⟨node.id, "recursive flow call"⟩
      let below ← orThrow (spawn flows pos.flow pos.path node) ⟨node.id, "flow missing"⟩
      node.body.use
      let ts ← below.mapM fun place => expand process flows levels place.flow place.id place.path
        (node.body.calls pos.flow.id calls)
      return node.body.over (nodeId process ⟨pos.flow.id, node.id, pos.path⟩)
        ⟨pos.flow.id, node.id, pos.path⟩ ts) := by
  rw [expand]
  congr 1
  funext node
  unfold spawn NodeBody.callee? NodeBody.calls NodeBody.use
  cases node.body with
  | call callee =>
    dsimp only
    cases flows.get? callee <;> simp [ensure, orThrow, NodeBody.over]
  | _ => simp [ensure, orThrow, NodeBody.over, List.mapM_map, Function.comp_def]

omit [Hashing] in
theorem use_commits (body : NodeBody) (st : Expander) : Program.Commits body.use (fun _ st' =>
    ∀ t : CompiledNode, t.label = body.label →
      st' = { st with usedBindings := st.usedBindings ∪ usedBy [t] }) st := by
  have hother : ∀ t : CompiledNode, t.binding? = none →
      st = { st with usedBindings := st.usedBindings ∪ usedBy [t] } := by
    intro t ht
    rw [usedBy_eq_empty ht, Finset.union_empty]
  cases body with
  | operation binding =>
    rw [NodeBody.use, Program.commits_bind, Program.commits_get]
    refine (Program.commits_set _).mpr fun t ht => ?_
    have hused : usedBy [t] = {binding} := by
      simp [usedBy, binding?, ht, NodeBody.label]
    rw [hused, Finset.union_comm, ← Finset.insert_eq]
  | _ => exact fun t ht => hother t (by rw [binding?, ht]; rfl)

/-- What an expansion returns and does to the state. -/
def Expansion (process : Name) (flows : SortedMap Name Flow) (levels : ℕ) (pos : Position)
    (st : Expander) (t : CompiledNode) (st' : Expander) : Prop :=
  Grown st t.nodes st' ∧ Expands process flows levels pos t

/-- The expansion of a place returns a tree that matches it. -/
theorem expand_commits (levels : ℕ) (pos : Position) (calls : List Name) (st : Expander) :
    Program.Commits (expand process flows levels pos.flow pos.id pos.path calls)
      (Expansion process flows levels pos st) st := by
  induction levels generalizing pos calls st with
  | zero => exact Program.commits_throw _
  | succ levels ih =>
    rw [expand_succ, Program.commits_bind]
    refine (enter_commits st).mono ?_
    rintro node _ ⟨hfind, hremaining, hfresh, rfl⟩
    rw [Program.commits_bind, Program.commits_ensure]
    intro _
    rw [Program.commits_bind, Program.commits_orThrow]
    intro below hspawn
    rw [Program.commits_bind]
    refine (use_commits node.body _).mono fun _ st₁ hused => ?_
    rw [Program.commits_bind]
    have hbelow := fun place (_ : place ∈ below) => ih place (node.body.calls pos.flow.id calls)
    refine (Program.commits_mapM_log grown_nil grown_append hbelow _).mono ?_
    rintro ts st' ⟨hgrown, hchildren⟩
    obtain ⟨hid, hsource, hlabel, hts⟩ := NodeBody.over_spec
      (nodeId process ⟨pos.flow.id, node.id, pos.path⟩) ⟨pos.flow.id, node.id, pos.path⟩ hspawn
      hchildren.length_eq
    rw [← hts] at hgrown hchildren
    rw [hused _ hlabel] at hgrown
    constructor
    · rw [nodes_eq, ← List.singleton_append]
      refine grown_append _ _ _ _ _ (grown_entered hremaining hfresh hid ?_) hgrown
      rw [hsource]
    · exact expands_node hfind hspawn (by rw [hid, hsource]) hsource hlabel hchildren

/-! ## Where the nodes of a compiled tree come from -/

omit [Hashing] in
theorem mem_flows_of_get? {source : ProcessSource} {name : Name} {flow : Flow}
    (h : source.flowMap.get? name = some flow) : flow ∈ source.flows := by
  obtain ⟨flow', hmem, heq⟩ := List.mem_map.mp (SortedMap.mem_of_overlay h)
  cases heq
  exact hmem

omit [Hashing] in
/-- The places below a place are in the flows of the source. -/
theorem mem_flows_of_spawn {source : ProcessSource} {flow : Flow} {path : List String}
    (hflow : flow ∈ source.flows) (h : spawn source.flowMap flow path node = some below) :
    ∀ pos ∈ below, pos.flow ∈ source.flows := by
  unfold spawn at h
  split at h
  all_goals try (cases h; simp [hflow])
  rename_i callee _
  cases hcallee : source.flowMap.get? callee with
  | none => rw [hcallee] at h; cases h
  | some called =>
    rw [hcallee] at h
    cases h
    simpa using mem_flows_of_get? hcallee

/-- The source node of a compiled node. -/
structure Origin (source : ProcessSource) (n : CompiledNode) (node : Node) : Prop where
  mem : ∃ flow ∈ source.flows, node ∈ flow.nodes
  label : n.label = node.body.label
  children : ∃ flow path below, spawn source.flowMap flow path node = some below ∧
    below.length = n.children.length

omit [Hashing] in
/-- Every node of an expansion comes from a node of the source. -/
theorem Matches.origin {source : ProcessSource} (h : Matches source.flowMap pos t)
    (hflow : pos.flow ∈ source.flows) : ∀ n ∈ t.nodes, ∃ node, Origin source n node := by
  induction t generalizing pos with
  | h t ih =>
  obtain ⟨_, _, node, below, hfind, hsource, hlabel, hspawn, hchildren⟩ := h
  intro n hn
  rw [nodes_eq] at hn
  obtain rfl | hn := List.mem_cons.mp hn
  · exact ⟨node, ⟨pos.flow, hflow, List.mem_of_find?_eq_some hfind⟩, hlabel,
      pos.flow, pos.path, below, hspawn, hchildren.length_eq⟩
  · obtain ⟨c, hc, hn⟩ := List.mem_flatMap.mp hn
    have hbelow := mem_flows_of_spawn hflow hspawn
    obtain ⟨pos', hpos', hmatch⟩ : ∃ pos' ∈ below, Matches source.flowMap pos' c := by
      generalize t.children = cs at hchildren hc
      clear hspawn hbelow
      induction hchildren with
      | nil => cases hc
      | cons hfirst _ rest =>
        obtain rfl | hc := List.mem_cons.mp hc
        · exact ⟨_, List.mem_cons_self, hfirst⟩
        · obtain ⟨pos', hmem, hmatch⟩ := rest hc
          exact ⟨pos', List.mem_cons_of_mem _ hmem, hmatch⟩
    exact ih c hc hmatch (hbelow pos' hpos') n hn

/-! ## Resources -/

omit [Hashing] in
/-- The compiler's resources are those of the tree, and parallel children are disjoint. -/
theorem resourcesAll_eq_ok {bindings : SortedMap Name ActionBinding} {parallel : Bool} {at_ : Name}
    {ts : List CompiledNode} {acc res : Finset Name}
    (ih : ∀ t ∈ ts, ∀ res, resources bindings t = .ok res →
      res = t.resourceSet bindings ∧ ∀ n ∈ t.nodes, n.Exclusive bindings)
    (h : resourcesAll bindings parallel at_ ts acc = .ok res) :
    res = acc ∪ resourcesOf bindings ts ∧ (∀ n ∈ ts.flatMap nodes, n.Exclusive bindings) ∧
      (parallel = true → Apart bindings acc ts) := by
  induction ts generalizing acc with
  | nil =>
    cases h
    simp [resourcesOf, Apart]
  | cons t ts rest =>
    rw [resourcesAll] at h
    split at h
    · cases h
    rename_i subset hsubset
    split at h
    · cases h
    rename_i hparallel
    obtain ⟨rfl, hexclusive⟩ := ih t List.mem_cons_self subset hsubset
    obtain ⟨rfl, hall, hapart⟩ := rest (fun c hc => ih c (List.mem_cons_of_mem _ hc)) h
    rw [List.flatMap_cons, List.forall_mem_append, apart_cons]
    exact ⟨Finset.union_assoc .., ⟨hexclusive, hall⟩,
      fun hp => ⟨by simpa [hp] using hparallel, hapart hp⟩⟩

omit [Hashing] in
/-- The resources of a bound node are its own and those of its children. -/
theorem resources_eq {bindings : SortedMap Name ActionBinding} (t : CompiledNode)
    (hbound : ∀ b, t.binding? = some b → bindings.get? b ≠ none) : resources bindings t =
      resourcesAll bindings (decide (t.label = .parallelAll)) t.source.node t.children
        (t.ownResources bindings) := by
  cases t with
  | branch id source condition whenTrue whenFalse =>
    simp only [resources, CompiledNode.children, resourcesAll, label]
    rw [ownResources_eq_empty rfl]
    cases resources bindings whenTrue with
    | error e => rfl
    | ok a => cases resources bindings whenFalse <;> simp
  | operation id source binding =>
    obtain ⟨action, haction⟩ := Option.ne_none_iff_exists'.mp (hbound binding rfl)
    simp [resources, CompiledNode.children, resourcesAll, ownResources, binding?, label, haction]
  | _ => rfl

omit [Hashing] in
theorem resources_eq_ok {bindings : SortedMap Name ActionBinding} (t : CompiledNode)
    (res : Finset Name) (h : resources bindings t = .ok res) :
    res = t.resourceSet bindings ∧ ∀ n ∈ t.nodes, n.Exclusive bindings := by
  induction t generalizing res with
  | h t ih =>
  have hbound : ∀ b, t.binding? = some b → bindings.get? b ≠ none := by
    intro b hb hnone
    cases t with
    | operation id source binding =>
      cases hb
      rw [resources, hnone] at h
      cases h
    | _ => cases hb
  rw [resources_eq t hbound] at h
  obtain ⟨rfl, hall, hapart⟩ := resourcesAll_eq_ok ih h
  rw [resourceSet_eq, nodes_eq, List.forall_mem_cons]
  exact ⟨rfl, fun hlabel => (hapart (decide_eq_true hlabel)).2, hall⟩

/-! ## Compiled processes -/

/-- Everything a successful compilation did. -/
structure Compiled (source : ProcessSource) (bindings : SortedMap Name ActionBinding)
    (p : ResolvedProcess) (normal : SortedMap Name ActionBinding) (entry : Flow)
    (st : Expander) : Prop where
  valid : SourceValidation.validate source = []
  resolved : unresolved source bindings = none
  normalized : bindings.traverse normalizedBinding = .ok normal
  found : source.flowMap.get? source.entry = some entry
  expanded : expand source.process source.flowMap 65 entry entry.root [] [] ⟨4096, ∅, ∅, ∅⟩ =
    (.ok p.root, st)
  visited : st.visitedFlows.card = source.flows.length
  resources : ∃ res, resources p.bindings p.root = .ok res
  schema : p.schema = "rx.resolved-process.v1"
  process : p.process = source.process
  bindings : p.bindings = normal.restrict (· ∈ st.usedBindings)
  conditions : p.conditions = source.conditions

variable {source : ProcessSource} {bindings : SortedMap Name ActionBinding} {p : ResolvedProcess}

/-- The stages of a compilation that succeeds. -/
theorem compile_eq_ok : compile source bindings = .ok p ↔
    SourceValidation.validate source = [] ∧ unresolved source bindings = none ∧
      ∃ normal entry root st, bindings.traverse normalizedBinding = .ok normal ∧
      source.flowMap.get? source.entry = some entry ∧
      expand source.process source.flowMap 65 entry entry.root [] [] ⟨4096, ∅, ∅, ∅⟩ =
        (.ok root, st) ∧
      finish source normal root st = .ok p := by
  unfold compile
  constructor
  · intro h
    split at h
    · cases h
    rename_i hvalid
    split at h
    · cases h
    rename_i hresolved
    split at h
    · cases h
    rename_i normal hnormal
    split at h
    · cases h
    rename_i entry hentry
    split at h
    · cases h
    rename_i root st hexpand
    exact ⟨hvalid, hresolved, normal, entry, root, st, hnormal, hentry, hexpand, h⟩
  · rintro ⟨hvalid, hresolved, normal, entry, root, st, hnormal, hentry, hexpand, hfinish⟩
    simp only [hvalid, hresolved, hnormal, hentry, hexpand, hfinish]

theorem compiled_of_compile (h : compile source bindings = .ok p) :
    ∃ normal entry st, Compiled source bindings p normal entry st := by
  obtain ⟨hvalid, hresolved, normal, entry, root, st, hnormal, hentry, hexpand, hfinish⟩ :=
    compile_eq_ok.mp h
  unfold finish at hfinish
  split at hfinish
  · cases hfinish
  rename_i hvisited
  dsimp only at hfinish
  split at hfinish
  · cases hfinish
  · rename_i res hres
    cases hfinish
    exact ⟨normal, entry, st, hvalid, hresolved, hnormal, hentry, hexpand, not_not.mp hvisited,
      ⟨res, hres⟩, rfl, rfl, rfl, rfl⟩

section Facts

variable {normal : SortedMap Name ActionBinding} {entry : Flow}
  (h : Compiled source bindings p normal entry st)

include h

/-- A compiled process is an expansion of its entry. -/
theorem Compiled.expansion : Expansion source.process source.flowMap 65 ⟨entry, entry.root, []⟩
    ⟨4096, ∅, ∅, ∅⟩ p.root st := by
  have hcommits := @expand_commits _ source.process source.flowMap 65
    ⟨entry, entry.root, []⟩ [] ⟨4096, ∅, ∅, ∅⟩
  simpa only [Program.Commits, Program.wp, h.expanded] using hcommits

theorem Compiled.used : st.usedBindings = usedBy p.root.nodes := by
  have hused := h.expansion.1.used
  rwa [Finset.empty_union] at hused

theorem Compiled.origin : ∀ n ∈ p.root.nodes, ∃ node, Origin source n node :=
  h.expansion.2.expansion.origin (mem_flows_of_get? h.found)

/-- Every operation of the tree has its binding, in normal form. -/
theorem Compiled.binding {b : Name} (hb : b ∈ usedBy p.root.nodes) :
    ∃ action, p.bindings.get? b = some action ∧ ∃ i, action.intent.normalized = .ok i := by
  obtain ⟨n, hn, hbinding⟩ := List.mem_filterMap.mp (List.mem_toFinset.mp hb)
  obtain ⟨node, ⟨flow, hflow, hnode⟩, hlabel, -⟩ := h.origin n hn
  -- only an operation of the source expands to an operation
  have hbody : node.body = .operation b := by
    rw [binding?, hlabel] at hbinding
    cases hbody : node.body <;> simp_all [NodeBody.label]
  have hsome : bindings.get? b ≠ none := by
    intro hnone
    have hfound := List.find?_eq_none.mp h.resolved node (List.mem_flatMap.mpr ⟨flow, hflow, hnode⟩)
    simp [hbody, hnone] at hfound
  obtain ⟨action, haction⟩ := Option.ne_none_iff_exists'.mp hsome
  obtain ⟨action', hnormal, hget⟩ := (SortedMap.get?_traverse h.normalized b).2 action haction
  refine ⟨action', ?_, ?_⟩
  · rw [h.bindings, SortedMap.get?_restrict, h.used]
    simp [hb, hget]
  · unfold normalizedBinding at hnormal
    split at hnormal
    · rename_i i hi
      cases hnormal
      exact ⟨i, Intent.normalized_idem hi⟩
    · cases hnormal

theorem Compiled.bodyFine (n : CompiledNode) (hn : n ∈ p.root.nodes) : BodyFine p n := by
  obtain ⟨node, ⟨flow, hflow, hnode⟩, hlabel, _, _, below, hspawn, hlength⟩ := h.origin n hn
  have haccepted := SourceValidation.validate_eq_nil.mp h.valid
  have hok := (haccepted.flows flow hflow).bodies node hnode
  obtain ⟨res, hres⟩ := h.resources
  have hexclusive := (resources_eq_ok _ _ hres).2 n hn
  unfold SourceValidation.BodyOk at hok
  -- a control node has children because its source node does
  have hcontrol : node.body.label = .sequence ∨ node.body.label = .parallelAll →
      n.children ≠ [] := by
    intro hcontrol hnil
    rw [hnil, List.length_nil, List.length_eq_zero_iff] at hlength
    subst hlength
    unfold spawn at hspawn
    cases hbody : node.body with
    | sequence children | parallelAll children => simp_all
    | «repeat» count child => simp_all
    | call callee =>
      rw [hbody] at hspawn
      simp at hspawn
    | branch _ _ _ | operation _ | wait _ _ | intervention _ => simp_all [NodeBody.label]
  cases n with
  | sequence id source cs => exact hcontrol (Or.inl hlabel.symm)
  | parallelAll id source cs => exact ⟨hcontrol (Or.inr hlabel.symm), hexclusive rfl⟩
  | branch id source condition a b =>
    rw [BodyFine, h.conditions]
    cases hbody : node.body <;> simp_all [NodeBody.label, label]
  | operation id source binding =>
    apply h.binding
    exact List.mem_toFinset.mpr (List.mem_filterMap.mpr ⟨_, hn, rfl⟩)
  | wait id source condition timeoutNs =>
    rw [BodyFine, h.conditions]
    cases hbody : node.body <;> simp_all [NodeBody.label, label]
  | intervention id source procedure => trivial

theorem Compiled.wellFormed : p.WellFormed where
  schema := h.schema
  within := h.expansion.2.within
  fits := by
    have hgrown := h.expansion.1
    refine ⟨hgrown.distinct, by simp, ?_⟩
    have hremaining := hgrown.remaining
    simp only [Finset.card_empty] at hremaining ⊢
    omega
  fine n hn := ⟨by rw [h.process]; exact h.expansion.2.ids n hn, h.bodyFine n hn⟩
  bindings b := by
    constructor
    · intro hb
      rw [h.bindings, SortedMap.get?_restrict, h.used] at hb
      by_contra hnot
      simp [hnot] at hb
    · intro hb
      obtain ⟨action, haction, -⟩ := h.binding hb
      rw [haction]
      simp
  conditions name c hc := by
    rw [h.conditions] at hc
    obtain ⟨n, hn⟩ := (SourceValidation.validate_eq_nil.mp h.valid).conditions name c hc
    exact ⟨n, conditionShape_texts c 0 0 n hn⟩

/-- The check against the source accepts a compiled process. -/
theorem Compiled.verified : verify source p = .ok () := by
  have hgrown := h.expansion.1
  refine verify_eq_ok.mpr ⟨h.valid, h.wellFormed, h.process.symm, by rw [h.conditions], entry,
    h.found, h.expansion.2.expansion, ?_, ?_⟩
  · have hroom := h.wellFormed.fits.room
    simpa [size] using hroom
  · have hvisited := hgrown.visited
    rw [Finset.empty_union] at hvisited
    rw [← hvisited, h.visited, (SourceValidation.validate_eq_nil.mp h.valid).distinct]

end Facts

theorem compile_wellFormed (h : compile source bindings = .ok p) : p.WellFormed := by
  obtain ⟨normal, entry, st, hcompiled⟩ := compiled_of_compile h
  exact hcompiled.wellFormed

/-- Whatever the compiler returns passes both independent checks, and every tree that the
check against the source accepts is the tree the compiler returns. -/
theorem compile_agrees_with_verify (source : ProcessSource)
    (bindings : SortedMap Name ActionBinding) (p : ResolvedProcess)
    (h : compile source bindings = .ok p) :
    verify source p = .ok () ∧ validate p = .ok () ∧
      ∀ p', verify source p' = .ok () →
        (∀ n ∈ p'.root.nodes, n.id = nodeId source.process n.source) → p'.root = p.root := by
  obtain ⟨normal, entry, st, hcompiled⟩ := compiled_of_compile h
  refine ⟨hcompiled.verified, validate_eq_ok.mpr hcompiled.wellFormed, fun p' hp' hids => ?_⟩
  obtain ⟨-, -, -, -, entry', hentry', hmatch, -⟩ := verify_eq_ok.mp hp'
  obtain rfl : entry = entry' := Option.some.inj (hcompiled.found.symm.trans hentry')
  exact hmatch.unique hcompiled.expansion.2.expansion hids hcompiled.expansion.2.ids

/-- Digests that spell out what they are of. -/
abbrev plainHashing : Hashing where
  node process source := process ++ "/" ++ source.node ++ String.join source.instantiation
  source _ := "source"
  process _ := "process"
  intent i := i.target
  conditions _ := "conditions"

/-- A flow that loads twice. -/
def loadTwice : ProcessSource where
  schema := "rx.process-source.v1"
  process := "example"
  entry := "main"
  flows := [⟨"main", "twice", [⟨"twice", .repeat 2 "load"⟩, ⟨"load", .operation "load"⟩]⟩]
  conditions := .empty

/-- The binding of the one operation. -/
def loadBindings : SortedMap Name ActionBinding :=
  SortedMap.empty.insert "load"
    { host := "host"
      intent :=
        { kind := .modeTransition, target := "robot", profileDigest := "profile",
          siteConfigDigest := "site", calibrationDigests := [], resourceSet := ["arm"],
          executionTimeoutMs := 1, prepareValidityMs := 1, completionRule := "done",
          cancelRule := "stop", body := .mode "idle" "transition" } }

/-- The process with two loads in sequence. -/
def loadedTwice : ResolvedProcess where
  schema := "rx.resolved-process.v1"
  packageDigest := none
  sourceDigest := "source"
  process := "example"
  root := .sequence "node/example/twice" ⟨"main", "twice", []⟩
    [.operation "node/example/loadrepeat:twice/0" ⟨"main", "load", ["repeat:twice/0"]⟩ "load",
      .operation "node/example/loadrepeat:twice/1" ⟨"main", "load", ["repeat:twice/1"]⟩ "load"]
  bindings := loadBindings
  conditions := .empty

omit [Hashing] in
theorem compile_agrees_with_verify_loadTwice :
    @verify plainHashing loadTwice loadedTwice = .ok () ∧
    @validate plainHashing loadedTwice = .ok () ∧
      ∀ p', @verify plainHashing loadTwice p' = .ok () →
        (∀ n ∈ p'.root.nodes, n.id = @nodeId plainHashing "example" n.source) →
        p'.root = loadedTwice.root :=
  @compile_agrees_with_verify plainHashing loadTwice loadBindings loadedTwice rfl

end RxSolutions.Process
