import Mathlib.Data.Countable.Basic
import Mathlib.Logic.Equiv.List
import RxSolutions.Process.Placement

/-!
# Structural validation is enough to compile

The validator follows every call and repetition on its own before the compiler does. What it
accepts the compiler can expand: the counts, the depth and the calls agree step by step, and
the identities of the expanded nodes are distinct because their locations are. So a compilation
of a validated source whose bindings are in order fails only where parallel branches share a
resource.
-/

namespace RxSolutions.Process

open Domain Durable CompiledNode

/-! ## What the validator counts -/

/-- The validator counted these nodes and marked their flows. -/
structure Counted (before : Finset Name × ℕ) (ns : List CompiledNode) (after : Finset Name × ℕ) :
    Prop where
  visited : after.1 = before.1 ∪ flowsOf ns
  remaining : after.2 + ns.length = before.2

theorem counted_nil (state : Finset Name × ℕ) : Counted state [] state :=
  ⟨by simp [flowsOf], rfl⟩

theorem Counted.append {s s' s'' : Finset Name × ℕ} {a b : List CompiledNode} (ha : Counted s a s')
    (hb : Counted s' b s'') : Counted s (a ++ b) s'' := by
  constructor
  · rw [hb.visited, ha.visited]
    simp [flowsOf, Finset.union_assoc]
  · have hfirst := ha.remaining
    have hsecond := hb.remaining
    rw [List.length_append]
    omega

/-- Counting a node and then what is below it. -/
theorem Counted.node {visited : Finset Name} {remaining : ℕ} {flow : Name} {t : CompiledNode}
    {after : Finset Name × ℕ} (hremaining : remaining ≠ 0) (hflow : t.source.flow = flow)
    (h : Counted (insert flow visited, remaining - 1) (t.children.flatMap nodes) after) :
    Counted (visited, remaining) t.nodes after := by
  constructor
  · rw [h.visited, nodes_eq]
    ext f
    simp [flowsOf, hflow]
  · have hbelow := h.remaining
    rw [nodes_eq, List.length_cons]
    dsimp only at hbelow ⊢
    omega

/-- A loop of the validator counts the trees of its steps. -/
theorem counted_foldlM {γ : Type} {P : γ → CompiledNode → Prop} {ε : Type}
    {check : Finset Name × ℕ → γ → Except ε (Finset Name × ℕ)} {l : List γ}
    {before after : Finset Name × ℕ}
    (hstep : ∀ c ∈ l, ∀ s s', check s c = .ok s' → ∃ t, P c t ∧ Counted s t.nodes s')
    (h : l.foldlM check before = .ok after) :
    ∃ ts, List.Forall₂ P l ts ∧ Counted before (ts.flatMap nodes) after := by
  induction l generalizing before with
  | nil =>
    cases h
    exact ⟨[], .nil, counted_nil _⟩
  | cons c l ih =>
    rw [List.foldlM_cons] at h
    cases hc : check before c with
    | error e =>
      rw [hc] at h
      cases h
    | ok middle =>
      rw [hc] at h
      obtain ⟨t, ht, hcounted⟩ := hstep c List.mem_cons_self before middle hc
      obtain ⟨ts, hts, hrest⟩ := ih (fun d hd => hstep d (List.mem_cons_of_mem _ hd)) h
      refine ⟨t :: ts, .cons ht hts, ?_⟩
      rw [List.flatMap_cons]
      exact hcounted.append hrest

/-! ## What the compiler returns -/

/-- There is room for the nodes: they are new, distinct and within the bound that is left. -/
structure Room (st : Expander) (ns : List CompiledNode) : Prop where
  fits : Fits st.ids ns
  balanced : st.ids.card + st.remaining = 4096

theorem Room.left {st : Expander} {a b : List CompiledNode} (h : Room st (a ++ b)) : Room st a :=
  ⟨(fits_append.mp h.fits).1, h.balanced⟩

theorem Room.right {st st' : Expander} {a b : List CompiledNode} (h : Room st (a ++ b))
    (hgrown : Grown st a st') : Room st' b := by
  constructor
  · rw [hgrown.ids]
    exact (fits_append.mp h.fits).2
  · have hcard := card_union_idsOf hgrown.distinct hgrown.fresh
    have hremaining := hgrown.remaining
    have hbalanced := h.balanced
    rw [hgrown.ids, hcard]
    omega

/-- Room for a node leaves room for what is below it. -/
theorem Room.entered {st : Expander} {t : CompiledNode} {ns : List CompiledNode}
    (h : Room st (t :: ns)) (flow : Name) :
    st.remaining ≠ 0 ∧ t.id ∉ st.ids ∧ Room (st.entered flow t.id) ns := by
  have hfresh := h.fits.fresh t List.mem_cons_self
  have hroom := h.fits.room
  have hbalanced := h.balanced
  rw [List.length_cons] at hroom
  have hids : st.ids ∪ idsOf [t] = insert t.id st.ids := by
    ext i
    simp [idsOf]
  refine ⟨by omega, hfresh, ?_, ?_⟩
  · have hrest := (fits_append.mp (show Fits st.ids ([t] ++ ns) from h.fits)).2
    rw [hids] at hrest
    exact hrest
  · simp only [Expander.entered, Finset.card_insert_of_notMem hfresh]
    omega

variable [Hashing] {process : Name} {flows : SortedMap Name Flow} {levels : ℕ} {pos : Position}
  {node : Node} {calls : List Name}

theorem enter_completes {st : Expander} (hfind : pos.flow.find pos.id = some node)
    (hremaining : st.remaining ≠ 0)
    (hfresh : nodeId process ⟨pos.flow.id, node.id, pos.path⟩ ∉ st.ids) :
    Program.Completes (enter process pos.flow pos.id pos.path)
      (fun n st' => n = node ∧ st' = st.entered pos.flow.id
        (nodeId process ⟨pos.flow.id, node.id, pos.path⟩)) st := by
  unfold enter
  rw [Program.completes_bind, Program.completes_get, Program.completes_bind,
    Program.completes_ensure]
  refine ⟨hremaining, ?_⟩
  rw [Program.completes_bind]
  refine (Program.completes_set _).mpr ?_
  rw [hfind, Program.completes_bind, Program.completes_orThrow, Program.completes_bind,
    Program.completes_ensure]
  refine ⟨hfresh, ?_⟩
  rw [Program.completes_bind]
  exact (Program.completes_set _).mpr ⟨rfl, rfl⟩

/-- The expansion of the place returns the tree whenever there is room for it. -/
structure Foreseen (process : Name) (flows : SortedMap Name Flow) (levels : ℕ) (calls : List Name)
    (pos : Position) (t : CompiledNode) : Prop where
  expands : Expands process flows levels pos t
  completes : ∀ st, Room st t.nodes →
    Program.Completes (expand process flows levels pos.flow pos.id pos.path calls)
      (fun t' _ => t' = t) st

/-- What is foreseen grows the state as every expansion does. -/
theorem Foreseen.grown {t : CompiledNode} (h : Foreseen process flows levels calls pos t)
    {st : Expander} (hroom : Room st t.nodes) :
    Program.Completes (expand process flows levels pos.flow pos.id pos.path calls)
      (fun t' st' => t' = t ∧ Grown st t.nodes st') st := by
  refine ((h.completes st hroom).and_commits (expand_commits levels pos calls st)).mono ?_
  rintro _ st' ⟨rfl, hgrown, -⟩
  exact ⟨rfl, hgrown⟩

omit [Hashing] in
/-- The bindings that are used take no room. -/
theorem use_completes {st : Expander} {ns : List CompiledNode} (body : NodeBody)
    (h : Room st ns) : Program.Completes body.use (fun _ st' => Room st' ns) st := by
  cases body with
  | operation binding => exact ⟨h.fits, h.balanced⟩
  | _ => exact h

/-- A loop over places that are foreseen returns their trees. -/
theorem Foreseen.mapM {l : List Position} {ts : List CompiledNode}
    (h : List.Forall₂ (Foreseen process flows levels calls) l ts)
    {st : Expander} (hroom : Room st (ts.flatMap nodes)) :
    Program.Completes (l.mapM fun place =>
      expand process flows levels place.flow place.id place.path calls)
      (fun ts' _ => ts' = ts) st := by
  have hleft : ∀ st a b, Room st (a ++ b) → Room st a := fun _ _ _ => Room.left
  have hright : ∀ st st' a b, Room st (a ++ b) → Grown st a st' → Room st' b :=
    fun _ _ _ _ => Room.right
  exact Program.completes_mapM_log hleft hright (h.imp fun _ _ hc _ => hc.grown) st hroom

omit [Hashing] in
/-- What the validator follows: the places below the node, in the order of the compiler. -/
theorem follow_eq_ok (hkeys : ∀ name f, flows.get? name = some f → f.id = name)
    {visited : Finset Name} {remaining : ℕ} {after : Finset Name × ℕ}
    (h : SourceValidation.expand flows (levels + 1) pos.flow pos.id (calls ++ [pos.flow.id])
      (visited, remaining) = .ok after) :
    remaining ≠ 0 ∧ ∃ node below, pos.flow.find pos.id = some node ∧
      spawn flows pos.flow pos.path node = some below ∧
      (∀ callee ∈ node.body.callee?, callee ∉ calls ∧ callee ≠ pos.flow.id) ∧
      below.foldlM (fun state place => SourceValidation.expand flows levels place.flow place.id
        (node.body.calls pos.flow.id calls ++ [place.flow.id]) state)
        (insert pos.flow.id visited, remaining - 1) = .ok after := by
  rw [SourceValidation.expand] at h
  split at h
  · cases h
  rename_i hremaining
  refine ⟨hremaining, ?_⟩
  cases hfind : pos.flow.find pos.id with
  | none =>
    rw [hfind] at h
    cases h
  | some node =>
  rw [hfind] at h
  dsimp only at h
  unfold spawn NodeBody.callee? NodeBody.calls
  cases hbody : node.body with
  | call callee =>
    rw [hbody] at h
    dsimp only at h
    split at h
    · cases h
    rename_i huncalled
    cases hcalled : flows.get? callee with
    | none =>
      rw [hcalled] at h
      cases h
    | some called =>
    rw [hcalled, ← hkeys callee called hcalled] at h
    refine ⟨node, [⟨called, called.root, callPath pos.flow.id node.id pos.path⟩], rfl,
      by simp [hbody, hcalled], ?_, ?_⟩
    · simpa [hbody, not_or] using huncalled
    · simpa [hbody] using h
  | «repeat» count child =>
    rw [hbody] at h
    -- the validator repeats the child, the compiler counts the rounds
    have hrounds : List.replicate count child = (List.range count).map fun _ => child := by
      rw [List.map_const', List.length_range]
    dsimp only at h
    rw [hrounds, List.foldlM_map] at h
    exact ⟨node, _, rfl, by rw [hbody], by simp [hbody],
      by simpa [hbody, List.foldlM_map] using h⟩
  | _ =>
    rw [hbody] at h
    exact ⟨node, _, rfl, by rw [hbody], by simp [hbody],
      by simpa [hbody, NodeBody.children, List.foldlM_map] using h⟩

/-- Whatever the validator follows to its end, the compiler expands when there is room. -/
theorem expand_foreseen (hkeys : ∀ name f, flows.get? name = some f → f.id = name) (levels : ℕ)
    (pos : Position) (calls : List Name) (before after : Finset Name × ℕ)
    (h : SourceValidation.expand flows levels pos.flow pos.id (calls ++ [pos.flow.id]) before =
      .ok after) :
    ∃ t, Foreseen process flows levels calls pos t ∧ Counted before t.nodes after := by
  induction levels generalizing pos calls before after with
  | zero => cases h
  | succ levels ih =>
    obtain ⟨hcount, node, below, hfind, hspawn, huncalled, hfollowed⟩ := follow_eq_ok hkeys h
    obtain ⟨ts, hts, hcounted⟩ := counted_foldlM
      (fun place _ s s' => ih place (node.body.calls pos.flow.id calls) s s') hfollowed
    obtain ⟨hid, hsource, hlabel, hchildren⟩ := NodeBody.over_spec
      (nodeId process ⟨pos.flow.id, node.id, pos.path⟩) ⟨pos.flow.id, node.id, pos.path⟩ hspawn
      hts.length_eq
    refine ⟨node.body.over (nodeId process ⟨pos.flow.id, node.id, pos.path⟩)
      ⟨pos.flow.id, node.id, pos.path⟩ ts, ⟨?_, ?_⟩, ?_⟩
    · refine expands_node hfind hspawn (by rw [hid, hsource]) hsource hlabel ?_
      rw [hchildren]
      exact hts.imp fun _ _ hc => hc.expands
    · intro st hroom
      rw [nodes_eq] at hroom
      obtain ⟨hremaining, hfresh, hbelow⟩ := hroom.entered pos.flow.id
      rw [hid] at hfresh hbelow
      rw [expand_succ, Program.completes_bind]
      refine (enter_completes hfind hremaining hfresh).mono ?_
      rintro _ _ ⟨rfl, rfl⟩
      rw [Program.completes_bind, Program.completes_ensure]
      refine ⟨huncalled, ?_⟩
      rw [hspawn, Program.completes_bind, Program.completes_orThrow, Program.completes_bind]
      refine (use_completes _ hbelow).mono fun _ st' hroom' => ?_
      rw [hchildren] at hroom'
      rw [Program.completes_bind]
      refine (Foreseen.mapM hts hroom').mono ?_
      rintro _ _ rfl
      rfl
    · refine Counted.node hcount (by rw [hsource]) ?_
      rw [hchildren]
      exact hcounted

/-! ## Resources -/

omit [Hashing] in
theorem resourcesAll_error {bindings : SortedMap Name ActionBinding} {parallel : Bool} {at_ : Name}
    {ts : List CompiledNode} {acc : Finset Name} {e : Compile.Error}
    (h : resourcesAll bindings parallel at_ ts acc = .error e) :
    (∃ t ∈ ts, resources bindings t = .error e) ∨
      parallel = true ∧ e = ⟨at_, sharedResource⟩ ∧ ¬ Apart bindings acc ts := by
  induction ts generalizing acc with
  | nil => cases h
  | cons t ts ih =>
    rw [resourcesAll] at h
    rw [apart_cons]
    split at h
    · rename_i e' he'
      cases h
      exact Or.inl ⟨t, List.mem_cons_self, he'⟩
    rename_i subset hsubset
    obtain ⟨rfl, -⟩ := resources_eq_ok t subset hsubset
    split at h
    · rename_i hshared
      cases h
      exact Or.inr ⟨hshared.1, rfl, fun hapart => hshared.2 hapart.1⟩
    · obtain ⟨t', ht', he⟩ | ⟨hparallel, he, hnot⟩ := ih h
      · exact Or.inl ⟨t', List.mem_cons_of_mem _ ht', he⟩
      · exact Or.inr ⟨hparallel, he, fun hapart => hnot hapart.2⟩

omit [Hashing] in
/-- When every operation has a binding, the check of resources fails at a parallel node whose
children share one. -/
theorem resources_error {bindings : SortedMap Name ActionBinding} (t : CompiledNode)
    (e : Compile.Error) (hbound : ∀ n ∈ t.nodes, ∀ b, n.binding? = some b → bindings.get? b ≠ none)
    (h : resources bindings t = .error e) :
    ∃ n ∈ t.nodes, n.label = .parallelAll ∧
      (¬ n.children.Pairwise fun a b =>
        Disjoint (a.resourceSet bindings) (b.resourceSet bindings)) ∧
      e = ⟨n.source.node, sharedResource⟩ := by
  induction t with
  | h t ih =>
  have hchild : (∃ c ∈ t.children, resources bindings c = .error e) →
      ∃ n ∈ t.nodes, n.label = .parallelAll ∧
        (¬ n.children.Pairwise fun a b =>
          Disjoint (a.resourceSet bindings) (b.resourceSet bindings)) ∧
        e = ⟨n.source.node, sharedResource⟩ := by
    rintro ⟨c, hc, he⟩
    obtain ⟨n, hn, hfound⟩ := ih c hc (fun n hn => hbound n (mem_nodes_of_child hc hn)) he
    exact ⟨n, mem_nodes_of_child hc hn, hfound⟩
  rw [resources_eq t (hbound t (mem_nodes_self t))] at h
  obtain hbelow | ⟨hparallel, he, hnot⟩ := resourcesAll_error h
  · exact hchild hbelow
  · have hlabel := of_decide_eq_true hparallel
    have hown : t.ownResources bindings = ∅ := by
      simp [ownResources, binding?, hlabel]
    rw [hown, apart_empty] at hnot
    exact ⟨t, mem_nodes_self t, hlabel, hnot, he⟩

/-! ## Compiling -/

/-- The bindings that the operations of a tree use. -/
def retained (bindings : SortedMap Name ActionBinding) (t : CompiledNode) :
    SortedMap Name ActionBinding :=
  bindings.restrict (· ∈ usedBy t.nodes)

/-- The expansion of a source that the validator accepts: the compiler returns this tree and
goes on to the check of resources. -/
structure Expanded (source : ProcessSource) (entry : Flow) (t : CompiledNode) : Prop where
  found : source.flowMap.get? source.entry = some entry
  expansion : Matches source.flowMap ⟨entry, entry.root, []⟩ t
  ids : (t.nodes.map CompiledNode.id).Nodup
  size : t.size = SourceValidation.expandedNodes source
  returns : ∃ st, expand source.process source.flowMap 65 entry entry.root [] [] ⟨4096, ∅, ∅, ∅⟩ =
    (.ok t, st) ∧ st.usedBindings = usedBy t.nodes ∧ st.visitedFlows.card = source.flows.length

variable {source : ProcessSource} {bindings : SortedMap Name ActionBinding}

theorem exists_expanded (hinj : Function.Injective (Hashing.node source.process))
    (hvalid : SourceValidation.validate source = []) : ∃ entry t, Expanded source entry t := by
  have hok := SourceValidation.validate_eq_nil.mp hvalid
  have hids := ProcessSource.distinct_iff.mp hok.distinct
  obtain ⟨entry, visited, remaining, hfound, hexpand, hcard⟩ := hok.expansion
  have hkeys : ∀ name f, source.flowMap.get? name = some f → f.id = name :=
    fun name f hf => ((ProcessSource.get?_flowMap hids).mp hf).2
  have hflows : ∀ name f, source.flowMap.get? name = some f → SourceValidation.FlowOk source f :=
    fun name f hf => hok.flows f (mem_flows_of_get? hf)
  have hfollowed : SourceValidation.expand source.flowMap 65 entry entry.root
      ([] ++ [entry.id]) (∅, 4096) = .ok (visited, remaining) := by
    rw [List.nil_append, hkeys _ _ hfound]
    exact hexpand
  obtain ⟨t, hforeseen, hcounted⟩ := @expand_foreseen _ source.process _ hkeys 65
    ⟨entry, entry.root, []⟩ [] _ _ hfollowed
  have hremaining := hcounted.remaining
  have hmatches := hforeseen.expands.expansion
  have hdistinct : (t.nodes.map CompiledNode.id).Nodup := by
    -- identities are digests of the locations
    have hsame : t.nodes.map CompiledNode.id =
        (t.nodes.map CompiledNode.source).map (nodeId source.process) := by
      rw [List.map_map]
      exact List.map_congr_left fun n hn => hforeseen.expands.ids n hn
    rw [hsame]
    refine (hmatches.distinct hflows (hflows _ _ hfound)).map fun a b hab => ?_
    exact hinj ((String.append_right_inj _).mp hab)
  have hroom : Room ⟨4096, ∅, ∅, ∅⟩ t.nodes := by
    refine ⟨⟨hdistinct, by simp, ?_⟩, rfl⟩
    rw [Finset.card_empty]
    dsimp only at hremaining
    omega
  obtain ⟨_, st, hrun, rfl, hgrown⟩ := (hforeseen.grown hroom).run
  refine ⟨entry, _, hfound, hmatches, hdistinct, ?_, st, hrun, ?_, ?_⟩
  · simp only [SourceValidation.expandedNodes, hfound, hexpand, size]
    dsimp only at hremaining
    omega
  · rw [hgrown.used, Finset.empty_union]
  · have hvisited := hcounted.visited
    dsimp only at hvisited
    rw [hgrown.visited, ← hvisited, hcard, hok.distinct]

omit [Hashing] in
/-- Every operation of an expansion is bound when every operation of the source is. -/
theorem bound_of_matches {entry : Flow} {t : CompiledNode} {path : List String}
    (hfound : source.flowMap.get? source.entry = some entry)
    (hmatches : Matches source.flowMap ⟨entry, entry.root, path⟩ t)
    (hbound : ∀ flow ∈ source.flows, ∀ node ∈ flow.nodes, ∀ b, node.body = .operation b →
      bindings.get? b ≠ none)
    {n : CompiledNode} (hn : n ∈ t.nodes) {b : Name} (hb : n.binding? = some b) :
    bindings.get? b ≠ none := by
  obtain ⟨node, ⟨flow, hflow, hnode⟩, hlabel, -⟩ :=
    hmatches.origin (mem_flows_of_get? hfound) n hn
  refine hbound flow hflow node hnode b ?_
  rw [binding?, hlabel] at hb
  cases hbody : node.body with
  | operation binding =>
    rw [hbody] at hb
    cases hb
    rfl
  | _ =>
    rw [hbody] at hb
    cases hb

/-- A compilation that can fail only where parallel branches share a resource, and otherwise
returns the expansion that was validated. -/
structure Compilable (source : ProcessSource) (bindings : SortedMap Name ActionBinding) : Prop where
  fails : ∀ e, compile source bindings = .error e → ∃ entry t normal,
    source.flowMap.get? source.entry = some entry ∧
    Matches source.flowMap ⟨entry, entry.root, []⟩ t ∧
    bindings.traverse normalizedBinding = .ok normal ∧
    ∃ n ∈ t.nodes, n.label = .parallelAll ∧
      (¬ n.children.Pairwise fun a b => Disjoint (a.resourceSet (retained normal t))
        (b.resourceSet (retained normal t))) ∧
      e = ⟨n.source.node, sharedResource⟩
  size : ∀ p, compile source bindings = .ok p →
    p.root.size = SourceValidation.expandedNodes source
  ids : ∀ p, compile source bindings = .ok p → (p.root.nodes.map CompiledNode.id).Nodup
  bindings : ∀ p, compile source bindings = .ok p → ∀ b,
    p.bindings.get? b ≠ none ↔ ∃ n ∈ p.root.nodes, n.label = .operation b

/-- A source without issues compiles, for every binding map that covers its operations and whose
bindings all normalise, unless parallel branches share a resource. The compiled tree has the
number of nodes that the report gives, under distinct identities, and keeps the bindings that
its operations use. -/
theorem compile_of_validated (source : ProcessSource) (bindings : SortedMap Name ActionBinding)
    (hinj : Function.Injective (Hashing.node source.process))
    (hvalid : SourceValidation.validate source = [])
    (hbound : ∀ flow ∈ source.flows, ∀ node ∈ flow.nodes, ∀ b, node.body = .operation b →
      bindings.get? b ≠ none)
    (hnormal : ∀ b action, bindings.get? b = some action →
      ∃ i, action.intent.normalized = .ok i) :
    Compilable source bindings := by
  obtain ⟨entry, t, hexpanded⟩ := exists_expanded hinj hvalid
  obtain ⟨st, hrun, hused, hvisited⟩ := hexpanded.returns
  obtain ⟨normal, htraverse⟩ : ∃ normal, bindings.traverse normalizedBinding = .ok normal := by
    refine SortedMap.exists_traverse fun b action hb => ?_
    obtain ⟨i, hi⟩ := hnormal b action hb
    exact ⟨_, by rw [normalizedBinding, hi]⟩
  have hresolved : unresolved source bindings = none := by
    rw [unresolved, List.find?_eq_none]
    intro node hnode
    obtain ⟨flow, hflow, hnode⟩ := List.mem_flatMap.mp hnode
    split
    · rename_i b hbody
      simpa [Option.isNone_iff_eq_none] using hbound flow hflow node hnode b hbody
    · simp
  have hretained : normal.restrict (· ∈ st.usedBindings) = retained normal t := by
    rw [retained, hused]
  -- what is used is bound, so the check of resources can only find a shared one
  have hbinding : ∀ n ∈ t.nodes, ∀ b, n.binding? = some b → (retained normal t).get? b ≠ none := by
    intro n hn b hb
    obtain ⟨action, haction⟩ := Option.ne_none_iff_exists'.mp
      (bound_of_matches hexpanded.found hexpanded.expansion hbound hn hb)
    obtain ⟨action', -, haction'⟩ := (SortedMap.get?_traverse htraverse b).2 action haction
    have hmem : b ∈ usedBy t.nodes := List.mem_toFinset.mpr (List.mem_filterMap.mpr ⟨n, hn, hb⟩)
    simp [retained, SortedMap.get?_restrict, hmem, haction']
  have hcompile : compile source bindings = finish source normal t st := by
    simp only [compile, hresolved, htraverse, hexpanded.found, hrun]
    rw [hvalid]
  have hok :
      ∀ p, compile source bindings = .ok p → p.root = t ∧ p.bindings = retained normal t := by
    intro p hp
    obtain ⟨_, _, _, h⟩ := compiled_of_compile hp
    obtain rfl := Except.ok.inj (htraverse.symm.trans h.normalized)
    obtain rfl := Option.some.inj (hexpanded.found.symm.trans h.found)
    obtain ⟨hroot, rfl⟩ := Prod.mk.inj (hrun.symm.trans h.expanded)
    exact ⟨(Except.ok.inj hroot).symm, h.bindings.trans hretained⟩
  constructor
  · intro e he
    rw [hcompile, finish, if_neg (not_not.mpr hvisited), hretained] at he
    dsimp only at he
    refine ⟨entry, t, normal, hexpanded.found, hexpanded.expansion, htraverse,
      resources_error t e hbinding ?_⟩
    split at he
    · rename_i e' he'
      cases he
      exact he'
    · cases he
  · intro p hp
    rw [(hok p hp).1]
    exact hexpanded.size
  · intro p hp
    rw [(hok p hp).1]
    exact hexpanded.ids
  · intro p hp b
    rw [(hok p hp).1, (hok p hp).2]
    constructor
    · intro hb
      rw [retained, SortedMap.get?_restrict] at hb
      split at hb
      · rename_i hmem
        obtain ⟨n, hn, hbind⟩ := List.mem_filterMap.mp
          (List.mem_toFinset.mp (of_decide_eq_true hmem))
        exact ⟨n, hn, binding?_eq_some.mp hbind⟩
      · exact absurd rfl hb
    · rintro ⟨n, hn, hlabel⟩
      exact hbinding n hn b (binding?_eq_some.mpr hlabel)

/-! ## Two loads -/

omit [Hashing] in
/-- There are digests without collisions. -/
theorem exists_injective_hashing :
    ∃ hashing : Hashing, ∀ process, Function.Injective (hashing.node process) := by
  have hchar : Countable Char :=
    Function.Injective.countable fun (a b : Char) (h : a.toNat = b.toNat) => Char.toNat_inj.mp h
  have hstring : Countable String :=
    Function.Injective.countable fun (a b : String) (h : a.toList = b.toList) =>
      String.toList_inj.mp h
  have hplace : Countable SourceLocation := by
    have hinj : Function.Injective fun l : SourceLocation => (l.flow, l.node, l.instantiation) := by
      rintro ⟨_, _, _⟩ ⟨_, _, _⟩ h
      simpa using h
    exact hinj.countable
  obtain ⟨f, hf⟩ := exists_injective_nat SourceLocation
  exact ⟨{ plainHashing with node := fun _ l => toString (f l) },
    fun _ _ _ h => hf (toString_injective h)⟩

/-- The bindings of the loads, and one that no operation refers to and that has no resources. -/
def brokenBindings : SortedMap Name ActionBinding :=
  loadBindings.insert "unused"
    { host := "host"
      intent :=
        { kind := .modeTransition, target := "robot", profileDigest := "profile",
          siteConfigDigest := "site", calibrationDigests := [], resourceSet := [],
          executionTimeoutMs := 1, prepareValidityMs := 1, completionRule := "done",
          cancelRule := "stop", body := .mode "idle" "transition" } }

omit [Hashing] in
/-- The only operation of the two loads. -/
theorem binding_of_loadTwice {flow : Flow} (hflow : flow ∈ loadTwice.flows) {node : Node}
    (hnode : node ∈ flow.nodes) {b : Name} (hbody : node.body = .operation b) : b = "load" := by
  obtain rfl := List.mem_singleton.mp hflow
  simp only [List.mem_cons, List.not_mem_nil, or_false] at hnode
  obtain rfl | rfl := hnode
  · cases hbody
  · cases hbody
    rfl

omit [Hashing] in
/-- The two loads are compiled. -/
theorem compile_of_validated_loadTwice : ∃ hashing : Hashing,
    (∀ process, Function.Injective (hashing.node process)) ∧
      @Compilable hashing loadTwice loadBindings := by
  obtain ⟨hashing, hinj⟩ := exists_injective_hashing
  refine ⟨hashing, hinj, @compile_of_validated hashing loadTwice loadBindings (hinj _)
    (by decide +kernel) ?_ ?_⟩
  · intro flow hflow node hnode b hbody
    obtain rfl := binding_of_loadTwice hflow hnode hbody
    decide
  · intro b action hb
    have hentries : ∀ e ∈ loadBindings.entries, (e.2.intent.normalized).toOption ≠ none := by decide
    have haction := hentries (b, action) (SortedMap.mem_entries.mpr hb)
    cases hn : action.intent.normalized with
    | error e => simp [hn, Except.toOption] at haction
    | ok i => exact ⟨i, rfl⟩

omit [Hashing] in
/-- A binding that no operation refers to makes the compilation fail when it does not normalise,
although the source has no issues and every binding it refers to normalises. -/
theorem compile_fails_on_unused_binding : ∃ hashing : Hashing,
    (∀ process, Function.Injective (hashing.node process)) ∧
    SourceValidation.validate loadTwice = [] ∧
    (∀ flow ∈ loadTwice.flows, ∀ node ∈ flow.nodes, ∀ b, node.body = .operation b →
      ∃ action i, brokenBindings.get? b = some action ∧ action.intent.normalized = .ok i) ∧
    @compile hashing loadTwice brokenBindings =
      .error ⟨"unused", "invalid input: empty resource set"⟩ := by
  obtain ⟨hashing, hinj⟩ := exists_injective_hashing
  have hvalid : SourceValidation.validate loadTwice = [] := by decide +kernel
  have hresolved : unresolved loadTwice brokenBindings = none := by decide +kernel
  have htraverse : brokenBindings.traverse normalizedBinding =
      .error ⟨"unused", "invalid input: empty resource set"⟩ := rfl
  refine ⟨hashing, hinj, hvalid, ?_, ?_⟩
  · intro flow hflow node hnode b hbody
    obtain rfl := binding_of_loadTwice hflow hnode hbody
    exact ⟨_, _, rfl, rfl⟩
  · simp only [compile, hresolved, htraverse]
    rw [hvalid]

end RxSolutions.Process
