import RxSolutions.Process.Agreement

/-!
# Compilation and the order of listings

Flows are listed in a source, and nodes in a flow, in an order that means nothing: both are
looked up by their identifier. Validation and expansion read a source only through these
lookups, and the source digest is taken of the sorted source, so reordering the listings
changes nothing of what the compiler returns.
-/

namespace RxSolutions.Process

open Domain Durable

/-- The same flow with its nodes listed in another order. -/
structure Flow.Reordered (f f' : Flow) : Prop where
  id : f.id = f'.id
  root : f.root = f'.root
  nodes : f.nodes.Perm f'.nodes

/-- The same source with its flows, and the nodes of each, listed in another order. -/
structure ProcessSource.Reordered (s s' : ProcessSource) : Prop where
  schema : s.schema = s'.schema
  process : s.process = s'.process
  entry : s.entry = s'.entry
  conditions : s.conditions = s'.conditions
  flows : ∃ flows, List.Forall₂ Flow.Reordered s.flows flows ∧ flows.Perm s'.flows

/-- The two flows are found alike: the same names, and the same node under every name. -/
structure Alike (f f' : Flow) : Prop where
  id : f.id = f'.id
  root : f.root = f'.root
  find : ∀ name, f.find name = f'.find name

theorem Flow.Reordered.symm {f f' : Flow} (h : f.Reordered f') : f'.Reordered f :=
  ⟨h.id.symm, h.root.symm, h.nodes.symm⟩

theorem ProcessSource.Reordered.symm {s s' : ProcessSource} (h : s.Reordered s') :
    s'.Reordered s := by
  obtain ⟨flows, hnodes, hflows⟩ := h.flows
  have hback : List.Forall₂ Flow.Reordered flows s.flows :=
    hnodes.flip.imp fun _ _ => Flow.Reordered.symm
  obtain ⟨flows', hnodes', hflows'⟩ := List.perm_comp_forall₂ hflows.symm hback
  exact ⟨h.schema.symm, h.process.symm, h.entry.symm, h.conditions.symm, flows', hnodes', hflows'⟩

/-! ## Lookups -/

/-- Under distinct identifiers, what is found is what is listed. -/
theorem Flow.find_eq_some {f : Flow} (hids : (f.nodes.map (·.id)).Nodup) {name : Name}
    {node : Node} : f.find name = some node ↔ node ∈ f.nodes ∧ node.id = name := by
  constructor
  · intro h
    exact ⟨List.mem_of_find?_eq_some h, by simpa using List.find?_some h⟩
  · rintro ⟨hmem, rfl⟩
    cases hfound : f.find node.id with
    | none => simpa using List.find?_eq_none.mp hfound node hmem
    | some node' =>
      have hid : node'.id = node.id := by simpa using List.find?_some hfound
      rw [List.inj_on_of_nodup_map hids (List.mem_of_find?_eq_some hfound) hmem hid]

theorem Flow.Reordered.alike {f f' : Flow} (h : f.Reordered f')
    (hids : (f.nodes.map (·.id)).Nodup) : Alike f f' := by
  refine ⟨h.id, h.root, fun name => Option.ext fun node => ?_⟩
  have hids' : (f'.nodes.map (·.id)).Nodup := (h.nodes.map _).nodup_iff.mp hids
  rw [find_eq_some hids, find_eq_some hids', h.nodes.mem_iff]

namespace ProcessSource

variable {s s' : ProcessSource}

theorem distinct_iff : s.flowMap.entries.length = s.flows.length ↔ (s.flows.map (·.id)).Nodup := by
  have h := SortedMap.length_overlay_eq_iff (s.flows.map fun flow => (flow.id, flow))
  rw [List.length_map, List.map_map] at h
  exact h

variable {flow : Flow}

/-- Under distinct identifiers, the flow of a name is the one that is listed. -/
theorem get?_flowMap (hids : (s.flows.map (·.id)).Nodup) {name : Name} :
    s.flowMap.get? name = some flow ↔ flow ∈ s.flows ∧ flow.id = name := by
  have hkeys : ((s.flows.map fun flow => (flow.id, flow)).map (·.1)).Nodup := by
    rw [List.map_map]
    exact hids
  rw [flowMap, SortedMap.get?_overlay_of_nodup hkeys, List.mem_map]
  constructor
  · rintro ⟨flow', hmem, heq⟩
    cases heq
    exact ⟨hmem, rfl⟩
  · rintro ⟨hmem, rfl⟩
    exact ⟨flow, hmem, rfl⟩

/-- Every flow is listed on the other side, with its nodes in some order. -/
theorem Reordered.mem (h : s.Reordered s') (hflow : flow ∈ s.flows) :
    ∃ flow' ∈ s'.flows, flow.Reordered flow' := by
  obtain ⟨flows, hnodes, hflows⟩ := h.flows
  obtain ⟨flow', hmem, hre⟩ : ∃ flow' ∈ flows, flow.Reordered flow' := by
    generalize s.flows = listed at hnodes hflow
    clear hflows
    induction hnodes with
    | nil => cases hflow
    | cons hfirst _ ih =>
      obtain rfl | hflow := List.mem_cons.mp hflow
      · exact ⟨_, List.mem_cons_self, hfirst⟩
      · obtain ⟨flow', hmem, hre⟩ := ih hflow
        exact ⟨flow', List.mem_cons_of_mem _ hmem, hre⟩
  exact ⟨flow', hflows.mem_iff.mp hmem, hre⟩

theorem Reordered.perm_map {β : Type*} (h : s.Reordered s') {g : Flow → β}
    (hg : ∀ f ∈ s.flows, ∀ f', f.Reordered f' → g f = g f') :
    (s.flows.map g).Perm (s'.flows.map g) := by
  obtain ⟨flows, hnodes, hflows⟩ := h.flows
  have heq : s.flows.map g = flows.map g := by
    generalize s.flows = listed at hnodes hg
    clear hflows
    induction hnodes with
    | nil => rfl
    | cons hfirst _ ih =>
      rw [List.map_cons, List.map_cons, hg _ List.mem_cons_self _ hfirst,
        ih fun f hf => hg f (List.mem_cons_of_mem _ hf)]
  rw [heq]
  exact hflows.map g

theorem Reordered.perm_ids (h : s.Reordered s') :
    (s.flows.map (·.id)).Perm (s'.flows.map (·.id)) :=
  h.perm_map fun _ _ _ hre => hre.id

theorem Reordered.length_eq (h : s.Reordered s') : s.flows.length = s'.flows.length := by
  simpa using h.perm_ids.length_eq

/-- The flow of a name is found on the other side, with its nodes in some order. -/
theorem Reordered.get? (h : s.Reordered s') (hids : (s.flows.map (·.id)).Nodup) {name : Name}
    (hfound : s.flowMap.get? name = some flow) :
    ∃ flow', s'.flowMap.get? name = some flow' ∧ flow.Reordered flow' := by
  have hids' := h.perm_ids.nodup_iff.mp hids
  obtain ⟨hmem, rfl⟩ := (get?_flowMap hids).mp hfound
  obtain ⟨flow', hmem', hre⟩ := h.mem hmem
  exact ⟨flow', (get?_flowMap hids').mpr ⟨hmem', hre.id.symm⟩, hre⟩

end ProcessSource

/-- Two maps of flows in which every name is found alike. -/
def AlikeFlows (flows flows' : SortedMap Name Flow) : Prop :=
  ∀ name, (flows.get? name = none ∧ flows'.get? name = none) ∨
    ∃ f f', flows.get? name = some f ∧ flows'.get? name = some f' ∧ Alike f f'

theorem ProcessSource.Reordered.alikeFlows {s s' : ProcessSource} (h : s.Reordered s')
    (hids : (s.flows.map (·.id)).Nodup)
    (hnodes : ∀ flow ∈ s.flows, (flow.nodes.map (·.id)).Nodup) :
    AlikeFlows s.flowMap s'.flowMap := by
  intro name
  cases hfound : s.flowMap.get? name with
  | none =>
    left
    refine ⟨rfl, ?_⟩
    by_contra hsome
    obtain ⟨f', hf'⟩ := Option.ne_none_iff_exists'.mp hsome
    obtain ⟨f, hf, -⟩ := h.symm.get? (h.perm_ids.nodup_iff.mp hids) hf'
    rw [hfound] at hf
    cases hf
  | some f =>
    right
    obtain ⟨f', hf', hre⟩ := h.get? hids hfound
    exact ⟨f, f', rfl, hf', hre.alike (hnodes f (mem_flows_of_get? hfound))⟩

/-! ## Validation -/

namespace SourceValidation

variable {flows flows' : SortedMap Name Flow} {f f' : Flow}

theorem visit_alike (h : Alike f f') (levels : ℕ) : visit f levels = visit f' levels := by
  induction levels with
  | zero => rfl
  | succ levels ih =>
    funext id seen
    simp only [visit, h.find, ih]

theorem expand_alike (hflows : AlikeFlows flows flows') (levels : ℕ) (h : Alike f f') :
    expand flows levels f = expand flows' levels f' := by
  induction levels generalizing f f' with
  | zero => rfl
  | succ levels ih =>
    funext id calls state
    obtain ⟨visited, remaining⟩ := state
    simp only [expand, h.id, h.find, ih h]
    cases f'.find id with
    | none => rfl
    | some node =>
      dsimp only
      cases node.body with
      | call target =>
        dsimp only
        obtain ⟨hnone, hnone'⟩ | ⟨g, g', hg, hg', hlike⟩ := hflows target
        · rw [hnone, hnone']
        · rw [hg, hg']
          dsimp only
          rw [ih hlike, hlike.root]
      | _ => rfl

variable {s s' : ProcessSource}

theorem BodyOk.reordered (hflows : ∀ name, s.flowMap.get? name ≠ none → s'.flowMap.get? name ≠ none)
    (hconditions : s.conditions = s'.conditions) {body : NodeBody} (h : BodyOk s body) :
    BodyOk s' body := by
  cases body with
  | call flow => exact hflows flow h
  | branch condition whenTrue whenFalse =>
    rw [BodyOk, ← hconditions]
    exact h
  | wait condition timeoutNs =>
    rw [BodyOk, ← hconditions]
    exact h
  | _ => exact h

/-- A flow passes its checks in every order of its nodes. -/
theorem FlowOk.reordered {f f' : Flow} (hre : f.Reordered f') (hok : FlowOk s f)
    (hbody : ∀ body, BodyOk s body → BodyOk s' body) : FlowOk s' f' := by
  have hmem : ∀ {node}, node ∈ f'.nodes → node ∈ f.nodes := hre.nodes.mem_iff.mpr
  have hlisted : ∀ {name}, (∃ n ∈ f.nodes, n.id = name) → ∃ n ∈ f'.nodes, n.id = name := by
    rintro name ⟨n, hn, hid⟩
    exact ⟨n, hre.nodes.mem_iff.mp hn, hid⟩
  have hchildren : (f.nodes.flatMap (·.body.children)).Perm
      (f'.nodes.flatMap (·.body.children)) := hre.nodes.flatMap_right _
  have hlength := hre.nodes.length_eq
  constructor
  · rw [← hlength, ← List.length_pos_iff_ne_nil, ← hlength, List.length_pos_iff_ne_nil]
    exact hok.size
  · exact (hre.nodes.map _).nodup_iff.mp hok.ids
  · rw [← hre.root]
    exact hlisted hok.root
  · intro node hnode child hchild
    exact hlisted (hok.children node (hmem hnode) child hchild)
  · intro node hnode
    exact hbody _ (hok.bodies node (hmem hnode))
  · rw [← hre.root, ← hchildren.mem_iff]
    exact hok.rootless
  · intro c hc
    rw [← hchildren.count_eq]
    exact hok.unshared c (hchildren.mem_iff.mpr hc)
  · rw [← visit_alike (hre.alike hok.ids), ← hre.root, ← hlength]
    exact hok.tree

/-- Validation does not see the order of the listings. -/
theorem accepted_reordered (h : s.Reordered s') (hok : Accepted s) : Accepted s' := by
  have hids : (s.flows.map (·.id)).Nodup := ProcessSource.distinct_iff.mp hok.distinct
  have hids' : (s'.flows.map (·.id)).Nodup := h.perm_ids.nodup_iff.mp hids
  have hflows : ∀ name, s.flowMap.get? name ≠ none → s'.flowMap.get? name ≠ none := by
    intro name hsome
    obtain ⟨f, hf⟩ := Option.ne_none_iff_exists'.mp hsome
    obtain ⟨f', hf', -⟩ := h.get? hids hf
    simp [hf']
  have halike := h.alikeFlows hids fun flow hflow => (hok.flows flow hflow).ids
  have hdistinct' : s'.flowMap.entries.length = s'.flows.length :=
    ProcessSource.distinct_iff.mpr hids'
  constructor
  · exact h.schema ▸ hok.schema
  · rw [← List.length_pos_iff_ne_nil, ← h.length_eq, List.length_pos_iff_ne_nil]
    exact hok.count
  · exact hdistinct'
  · intro flow' hflow'
    obtain ⟨flow, hflow, hre⟩ := h.symm.mem hflow'
    exact (hok.flows flow hflow).reordered hre.symm
      fun _ hbody => hbody.reordered hflows h.conditions
  · rw [← h.conditions]
    exact hok.conditions
  · obtain ⟨entry, visited, remaining, hfound, hexpand, hcard⟩ := hok.expansion
    obtain ⟨entry', hfound', hre⟩ := h.get? hids hfound
    have hlike := hre.alike (hok.flows entry (mem_flows_of_get? hfound)).ids
    refine ⟨entry', visited, remaining, h.entry ▸ hfound', ?_, ?_⟩
    · rw [← h.entry, ← expand_alike halike 65 hlike, ← hlike.root]
      exact hexpand
    · rw [hcard, hok.distinct, h.length_eq, hdistinct']

end SourceValidation

/-! ## Expansion -/

section Compiling

variable [Hashing] {s s' : ProcessSource} {bindings : SortedMap Name ActionBinding}
  {p : ResolvedProcess}

theorem enter_alike (process : Name) {f f' : Flow} (h : Alike f f') :
    enter process f = enter process f' := by
  obtain ⟨id, root, nodes⟩ := f
  obtain ⟨id', root', nodes'⟩ := f'
  obtain ⟨rfl, rfl, hfind⟩ := h
  funext name path
  simp only [enter, hfind]

/-- Expansion does not see the order of the listings. -/
theorem expand_alike (process : Name) {flows flows' : SortedMap Name Flow} {f f' : Flow}
    (hflows : AlikeFlows flows flows') (levels : ℕ) (h : Alike f f') :
    expand process flows levels f = expand process flows' levels f' := by
  induction levels generalizing f f' with
  | zero => rfl
  | succ levels ih =>
    have hid := h.id
    obtain ⟨fid, root, nodes⟩ := f
    obtain ⟨fid', root', nodes'⟩ := f'
    obtain rfl : fid = fid' := hid
    funext id path calls
    simp only [expand, enter_alike process h, ih h]
    congr 1
    funext node
    cases node.body with
    | call callee =>
      dsimp only
      congr 1
      funext _
      obtain ⟨hnone, hnone'⟩ | ⟨g, g', hg, hg', hlike⟩ := hflows callee
      · rw [hnone, hnone']
        rfl
      · rw [hg, hg']
        simp only [orThrow, pure_bind, ih hlike, hlike.root]
    | _ => rfl

omit [Hashing] in
theorem canonical_reordered (h : s.Reordered s') (hids : (s.flows.map (·.id)).Nodup)
    (hnodes : ∀ flow ∈ s.flows, (flow.nodes.map (·.id)).Nodup) : s.canonical = s'.canonical := by
  -- sorting the nodes first changes no identifier
  have hswap : ∀ l : List Flow, (l.insertionSort fun a b => a.id ≤ b.id).map Flow.canonical =
      (l.map Flow.canonical).insertionSort fun a b => a.id ≤ b.id := fun l =>
    List.map_insertionSort _ _ Flow.canonical l fun _ _ _ _ => Iff.rfl
  have hcanonical : ∀ f ∈ s.flows, ∀ f', f.Reordered f' → f.canonical = f'.canonical := by
    intro f hf f' hre
    simp only [Flow.canonical, hre.id, hre.root,
      insertionSort_eq_of_perm Node.id hre.nodes (hnodes f hf)]
  have hperm := h.perm_map hcanonical
  have hkeys : ((s.flows.map Flow.canonical).map (·.id)).Nodup := by
    rw [List.map_map]
    exact hids
  have hflows : s.canonical.flows = s'.canonical.flows := by
    change (s.flows.insertionSort fun a b => a.id ≤ b.id).map Flow.canonical =
      (s'.flows.insertionSort fun a b => a.id ≤ b.id).map Flow.canonical
    rw [hswap, hswap]
    exact insertionSort_eq_of_perm Flow.id hperm hkeys
  cases s
  cases s'
  obtain ⟨rfl, rfl, rfl, rfl, -⟩ := h
  simp only [ProcessSource.canonical, ProcessSource.mk.injEq] at hflows ⊢
  exact ⟨trivial, trivial, trivial, hflows, trivial⟩

omit [Hashing] in
theorem unresolved_reordered (h : s.Reordered s') (hnone : unresolved s bindings = none) :
    unresolved s' bindings = none := by
  unfold unresolved at hnone ⊢
  rw [List.find?_eq_none] at hnone ⊢
  intro node hnode
  obtain ⟨flow', hflow', hnode⟩ := List.mem_flatMap.mp hnode
  obtain ⟨flow, hflow, hre⟩ := h.symm.mem hflow'
  exact hnone node (List.mem_flatMap.mpr ⟨flow, hflow, hre.nodes.mem_iff.mp hnode⟩)

theorem compile_of_reordered (h : s.Reordered s') (hcompile : compile s bindings = .ok p) :
    compile s' bindings = .ok p := by
  obtain ⟨hvalid, hresolved, normal, entry, root, st, hnormal, hentry, hexpand, hfinish⟩ :=
    compile_eq_ok.mp hcompile
  have hok := SourceValidation.validate_eq_nil.mp hvalid
  have hids : (s.flows.map (·.id)).Nodup := ProcessSource.distinct_iff.mp hok.distinct
  have hnodes : ∀ flow ∈ s.flows, (flow.nodes.map (·.id)).Nodup :=
    fun flow hflow => (hok.flows flow hflow).ids
  obtain ⟨entry', hentry', hre⟩ := h.get? hids hentry
  have hlike := hre.alike (hnodes entry (mem_flows_of_get? hentry))
  have hok' := SourceValidation.accepted_reordered h hok
  refine compile_eq_ok.mpr
    ⟨SourceValidation.validate_eq_nil.mpr hok', unresolved_reordered h hresolved,
    normal, entry', root, st, hnormal, h.entry ▸ hentry', ?_, ?_⟩
  · rw [← h.process, ← expand_alike _ (h.alikeFlows hids hnodes) 65 hlike, ← hlike.root]
    exact hexpand
  · simp only [finish, ← h.length_eq, ← canonical_reordered h hids hnodes, ← h.process,
      ← h.conditions]
    exact hfinish

/-- Reordering the flows of a source and the nodes of its flows leaves the outcome of a
compilation as it is: it succeeds for both or for neither, with the same process. -/
theorem compile_reordered (s s' : ProcessSource) (h : s.Reordered s')
    (bindings : SortedMap Name ActionBinding) (p : ResolvedProcess) :
    compile s bindings = .ok p ↔ compile s' bindings = .ok p :=
  ⟨compile_of_reordered h, compile_of_reordered h.symm⟩

end Compiling

/-- The flow that loads twice, with the load listed first. -/
def loadFirst : ProcessSource :=
  { loadTwice with
    flows := [⟨"main", "twice", [⟨"load", .operation "load"⟩, ⟨"twice", .repeat 2 "load"⟩]⟩] }

theorem loadTwice_reordered : loadTwice.Reordered loadFirst :=
  ⟨rfl, rfl, rfl, rfl, loadFirst.flows,
    .cons ⟨rfl, rfl, List.Perm.swap _ _ _⟩ .nil, List.Perm.refl _⟩

/-- It is compiled to the same process. -/
theorem compile_reordered_loadFirst :
    @compile plainHashing loadFirst loadBindings = .ok loadedTwice :=
  (@compile_reordered plainHashing loadTwice loadFirst loadTwice_reordered loadBindings
    loadedTwice).mp rfl

end RxSolutions.Process
