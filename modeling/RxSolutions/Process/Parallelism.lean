import RxSolutions.Process.Agreement
import RxSolutions.Process.Evaluation

/-!
# Operations that can be active together

The compiler checks that the children of a parallel node use disjoint resources. The planner
suggests operations without looking at resources at all. Together they never let two
operations that use one resource be active at the same time.
-/

namespace RxSolutions.Process

open Domain Durable CompiledNode

/-- The frontier suggests the operation at this node, or it has begun and is not done. -/
def Active (view : ProgressView) (f : Frontier) (n : CompiledNode) : Prop :=
  n.id ∈ f.operations ∨ ∃ q, view.operations.get? n.id = some q ∧ ¬ q.operation.Done

section Tree

variable {view : ProgressView} {t : CompiledNode} {f : Frontier} {n : CompiledNode} {b : Name}

/-- Nodes of different children have different identities. -/
theorem child_unique (hids : (t.nodes.map CompiledNode.id).Nodup) {c d m : CompiledNode}
    (hc : c ∈ t.children) (hd : d ∈ t.children) (hn : n ∈ c.nodes) (hm : m ∈ d.nodes)
    (hid : n.id = m.id) : c = d := by
  rw [nodes_eq, List.map_cons, List.nodup_cons, List.map_flatMap, List.nodup_flatMap] at hids
  by_contra hne
  have hsymm : Std.Symm
      (Function.onFun List.Disjoint fun c : CompiledNode => c.nodes.map CompiledNode.id) :=
    ⟨fun _ _ h => List.Disjoint.symm h⟩
  have hdisjoint := hids.2.2.forall hc hd hne
  apply hdisjoint (List.mem_map_of_mem hn)
  rw [hid]
  exact List.mem_map_of_mem hm

variable {c : CompiledNode}

theorem nodup_child (hids : (t.nodes.map CompiledNode.id).Nodup) (hc : c ∈ t.children) :
    (c.nodes.map CompiledNode.id).Nodup := by
  rw [nodes_eq, List.map_cons, List.nodup_cons, List.map_flatMap, List.nodup_flatMap] at hids
  exact hids.2.1 c hc

/-- An operation below a tree that is done or not begun is active only if it is suggested. -/
theorem Active.suggested (h : Active view f n) (hc : Untouched view c ∨ Completes view c)
    (hn : n ∈ c.nodes) (hop : n.label = .operation b) : n.id ∈ f.operations := by
  obtain hid | ⟨q, hq, hopen⟩ := h
  · exact hid
  obtain hfree | hcomplete := hc
  · rw [hfree.operations hn] at hq
    cases hq
  · exact absurd (hcomplete.done hn hop hq) hopen

/-- Where a control node has one current child, the active operations are below it. -/
theorem Active.current {c k : CompiledNode} (h : Active view f n)
    (hids : (t.nodes.map CompiledNode.id).Nodup) (hk : k ∈ t.children)
    (hnow : evaluate view k = .ok f) (hc : c ∈ t.children)
    (hcases : c = k ∨ Untouched view c ∨ Completes view c) (hn : n ∈ c.nodes)
    (hop : n.label = .operation b) : c = k := by
  obtain hck | hcases := hcases
  · exact hck
  obtain ⟨m, hm, hid, -⟩ := mem_operations hnow (h.suggested hcases hn hop)
  exact child_unique hids hc hk hn hm hid.symm

/-- Below a parallel node an operation is active by the frontier of its own child. -/
theorem Active.child (hids : (t.nodes.map CompiledNode.id).Nodup)
    (hall : ∀ c ∈ t.children, evaluate view c = .ok (frontierOf view c))
    (h : Active view (Frontier.parallel (t.children.map (frontierOf view))) n)
    (hc : c ∈ t.children) (hn : n ∈ c.nodes) : Active view (frontierOf view c) n := by
  obtain hid | hway := h
  · obtain ⟨r, hr, hid⟩ := List.mem_flatMap.mp ((suggestions_parallel _).1 hid)
    obtain ⟨d, hd, rfl⟩ := List.mem_map.mp hr
    obtain ⟨m, hm, heq, -⟩ := mem_operations (hall d hd) hid
    rw [child_unique hids hc hd hn hm heq.symm]
    exact Or.inl hid
  · exact Or.inr hway

variable {bindings : SortedMap Name ActionBinding}

theorem disjoint_of_active (h : evaluate view t = .ok f)
    (hids : (t.nodes.map CompiledNode.id).Nodup) (hexclusive : ∀ n ∈ t.nodes, n.Exclusive bindings)
    {m : CompiledNode}
    (hn : n ∈ t.nodes) (hm : m ∈ t.nodes) (hne : n.id ≠ m.id) (hactive : Active view f n)
    (hactive' : Active view f m) :
    Disjoint (n.ownResources bindings) (m.ownResources bindings) := by
  -- only operations use resources
  cases hop : n.binding? with
  | none => simp [ownResources_eq_empty hop]
  | some b =>
  cases hop' : m.binding? with
  | none => simp [ownResources_eq_empty hop']
  | some b' =>
  have hlabel : n.label = .operation b := by
    cases n <;> simp_all [binding?, label]
  have hlabel' : m.label = .operation b' := by
    cases m <;> simp_all [binding?, label]
  clear hop hop'
  induction t generalizing f with
  | h t ih =>
  by_cases hcontrol : ∀ b, t.label ≠ .operation b
  case neg =>
    -- an operation is the only node of its tree
    exfalso
    cases t with
    | operation id source binding =>
      rw [nodes, List.mem_singleton] at hn hm
      exact hne (by rw [hn, hm])
    | _ => simp [label] at hcontrol
  have hbelow : ∀ {n b}, n ∈ t.nodes → n.label = .operation b → ∃ c ∈ t.children, n ∈ c.nodes := by
    intro n b hn hlabel
    rw [nodes_eq, List.mem_cons] at hn
    obtain rfl | hn := hn
    · exact absurd hlabel (hcontrol b)
    · exact List.mem_flatMap.mp hn
  obtain ⟨c, hc, hnc⟩ := hbelow hn hlabel
  obtain ⟨d, hd, hmd⟩ := hbelow hm hlabel'
  have hrec : ∀ k ∈ t.children, ∀ g, evaluate view k = .ok g → n ∈ k.nodes → m ∈ k.nodes →
      Active view g n → Active view g m →
      Disjoint (n.ownResources bindings) (m.ownResources bindings) := by
    intro k hk g hg hnk hmk hna hma
    exact ih k hk hg (nodup_child hids hk)
      (fun q hq => hexclusive q (mem_nodes_of_child hk hq)) hnk hmk hna hma
  obtain ⟨hnone, hall⟩ | ⟨k, hk, hnow, hall⟩ | ⟨hparallel, hall, rfl⟩ :=
    (evaluated_of_evaluate h).shape hcontrol
  · have hid := hactive.suggested (hall c hc) hnc hlabel
    rw [hnone] at hid
    cases hid
  · obtain rfl := hactive.current hids hk hnow hc (hall c hc) hnc hlabel
    obtain rfl := hactive'.current hids hk hnow hd (hall d hd) hmd hlabel'
    exact hrec d hk f hnow hnc hmd hactive hactive'
  · by_cases hcd : c = d
    · subst hcd
      exact hrec c hc _ (hall c hc) hnc hmd (hactive.child hids hall hc hnc)
        (hactive'.child hids hall hc hmd)
    · -- different children of a parallel node: the compiler's check
      have hsymm : Std.Symm fun a b : CompiledNode =>
          Disjoint (a.resourceSet bindings) (b.resourceSet bindings) := ⟨fun _ _ h => h.symm⟩
      have hdisjoint := (hexclusive t (mem_nodes_self t) hparallel).forall hc hd hcd
      apply hdisjoint.mono
      · exact fun r hr => mem_resourceSet.mpr ⟨n, hnc, hr⟩
      · exact fun r hr => mem_resourceSet.mpr ⟨m, hmd, hr⟩

end Tree

section Process

variable [Hashing] {source : ProcessSource} {bindings : SortedMap Name ActionBinding}
  {p : ResolvedProcess} {view : ProgressView} {f : Frontier}

/-- Two operations of a compiled process that can be active at the same time share no
resource. -/
theorem active_operations_share_nothing (hcompile : compile source bindings = .ok p)
    (hplan : plan p view = .ok f) {n m : CompiledNode} (hn : n ∈ p.root.nodes)
    (hm : m ∈ p.root.nodes) (hne : n.id ≠ m.id) (hactive : Active view f n)
    (hactive' : Active view f m) :
    Disjoint (n.ownResources p.bindings) (m.ownResources p.bindings) := by
  have hwell := compile_wellFormed hcompile
  apply disjoint_of_active (planned_of_plan hplan).evaluated hwell.fits.distinct _ hn hm hne
    hactive hactive'
  intro q hq hparallel
  have hbody := (hwell.fine q hq).body
  cases q with
  | parallelAll id source cs => exact hbody.2
  | _ => cases hparallel

omit [Hashing]

/-- A flow that loads and inspects at the same time. -/
def loadAndInspect : ProcessSource where
  schema := "rx.process-source.v1"
  process := "example"
  entry := "main"
  flows := [⟨"main", "both", [⟨"both", .parallelAll ["load", "inspect"]⟩,
    ⟨"load", .operation "load"⟩, ⟨"inspect", .operation "inspect"⟩]⟩]
  conditions := .empty

/-- A second binding, for the camera. -/
def inspectBindings : SortedMap Name ActionBinding :=
  loadBindings.insert "inspect"
    { host := "host"
      intent :=
        { kind := .modeTransition, target := "camera", profileDigest := "profile",
          siteConfigDigest := "site", calibrationDigests := [], resourceSet := ["camera"],
          executionTimeoutMs := 1, prepareValidityMs := 1, completionRule := "done",
          cancelRule := "stop", body := .mode "idle" "transition" } }

/-- An operation. -/
def loadNode : CompiledNode := .operation "node/example/load" ⟨"main", "load", []⟩ "load"

/-- Another operation. -/
def inspectNode : CompiledNode :=
  .operation "node/example/inspect" ⟨"main", "inspect", []⟩ "inspect"

/-- The two operations side by side. -/
def loadedAndInspected : ResolvedProcess where
  schema := "rx.resolved-process.v1"
  packageDigest := none
  sourceDigest := "source"
  process := "example"
  root := .parallelAll "node/example/both" ⟨"main", "both", []⟩ [loadNode, inspectNode]
  bindings := inspectBindings
  conditions := .empty

/-- An operation that runs. -/
def loading : Operation where
  operationId := "load-1"
  revision := 1
  intentDigest := "robot"
  phase := .active
  executionKnowledge := .running
  outcome := .none
  integrity := .valid
  disposition := .held
  evidenceIds := []
  sound := by constructor <;> simp

/-- The load runs, and nothing is known about the inspection. -/
def loadingView : ProgressView where
  run := "run"
  resolvedDigest := "process"
  complete := true
  operations := SortedMap.empty.insert "node/example/load" ⟨loading, "robot"⟩
  branches := .empty
  waits := .empty
  clearedInterventions := .empty

/-- The planner suggests the inspection. -/
def loadingFrontier : Frontier where
  state := .ready
  operations := ["node/example/inspect"]
  pendingOperations := ["load-1"]

theorem active_operations_share_nothing_loading :
    Disjoint (loadNode.ownResources inspectBindings) (inspectNode.ownResources inspectBindings) :=
  @active_operations_share_nothing plainHashing loadAndInspect inspectBindings loadedAndInspected
    loadingView loadingFrontier rfl rfl loadNode inspectNode
    (mem_nodes_of_child List.mem_cons_self (mem_nodes_self loadNode))
    (mem_nodes_of_child (List.mem_cons_of_mem _ List.mem_cons_self) (mem_nodes_self inspectNode))
    (by decide) (Or.inr ⟨_, rfl, by decide⟩) (Or.inl List.mem_cons_self)

end Process

end RxSolutions.Process
