import RxSolutions.Process.Frontier

/-!
# What an evaluation says about its tree

The planner walks a tree once and stops at the first child of a sequence that is not
complete. `Evaluated` lists the ways in which a node gets its frontier, in terms of the
frontiers of its children; everything else about the planner is derived from that list.
-/

namespace RxSolutions.Process

open Domain Durable CompiledNode

variable {view : ProgressView} {t : CompiledNode} {f : Frontier}

/-- Nothing has happened at any node of the tree. -/
def Untouched (view : ProgressView) (t : CompiledNode) : Prop :=
  ∀ n ∈ t.nodes, view.touches n.id = false

/-- Everything below the tree has been completed. -/
def Completes (view : ProgressView) (t : CompiledNode) : Prop :=
  ∃ f, evaluate view t = .ok f ∧ f.state = .completed

/-- The frontier of a tree that can be evaluated. -/
def frontierOf (view : ProgressView) (t : CompiledNode) : Frontier :=
  match evaluate view t with
  | .ok f => f
  | .error _ => { state := .blocked }

theorem frontierOf_eq (h : evaluate view t = .ok f) : frontierOf view t = f := by
  rw [frontierOf, h]

theorem Untouched.operations (h : Untouched view t) {n : CompiledNode} (hn : n ∈ t.nodes) :
    view.operations.get? n.id = none := by
  have := h n hn
  simp only [ProgressView.touches, Bool.or_eq_false_iff] at this
  simpa using this.1.1.1

theorem hasProgressAny_eq_false {ts : List CompiledNode} :
    hasProgressAny view ts = false ↔ ∀ t ∈ ts, hasProgress view t = false := by
  induction ts with
  | nil => simp [hasProgressAny]
  | cons t ts ih => simp [hasProgressAny, ih]

theorem hasProgress_eq_false : hasProgress view t = false ↔ Untouched view t := by
  induction t with
  | h t ih =>
  have hchildren : (∀ c ∈ t.children, hasProgress view c = false) ↔
      ∀ n ∈ t.children.flatMap nodes, view.touches n.id = false := by
    simp only [List.mem_flatMap, forall_exists_index, and_imp]
    constructor
    · intro h n c hc hn
      exact (ih c hc).mp (h c hc) n hn
    · intro h c hc
      exact (ih c hc).mpr fun n hn => h n c hc hn
  rw [Untouched, nodes_eq, List.forall_mem_cons, ← hchildren]
  cases t <;>
    simp [hasProgress, hasProgressAny_eq_false, CompiledNode.children, CompiledNode.id]

/-! ## One node -/

/-- How a leaf gets its frontier. -/
inductive Leaf (view : ProgressView) : CompiledNode → Frontier → Prop
  | operation {id source binding} : Leaf view (.operation id source binding)
      (evaluateOperation id (view.operations.get? id))
  | satisfied {id source condition timeoutNs decision evidenceIds}
      (committed : view.waits.get? id = some (.satisfied decision evidenceIds)) :
      Leaf view (.wait id source condition timeoutNs) { state := .completed }
  | timedOut {id source condition timeoutNs decision}
      (committed : view.waits.get? id = some (.timedOut decision)) :
      Leaf view (.wait id source condition timeoutNs) { state := .failed }
  | waiting {id source condition timeoutNs} (free : view.waits.get? id = none) :
      Leaf view (.wait id source condition timeoutNs) { state := .running, waits := [id] }
  | cleared {id source procedure clearance}
      (committed : view.clearedInterventions.get? id = some clearance) :
      Leaf view (.intervention id source procedure) { state := .completed }
  | called {id source procedure} (free : view.clearedInterventions.get? id = none) :
      Leaf view (.intervention id source procedure) { state := .blocked, interventions := [id] }

/-- The child whose frontier a node has: the current child of a sequence, or the chosen child of
a branch. -/
inductive Passes (view : ProgressView) : CompiledNode → CompiledNode → Prop
  | current {id source before c after} (earlier : ∀ c ∈ before, Completes view c)
      (incomplete : ¬ Completes view c) (later : ∀ c ∈ after, Untouched view c) :
      Passes view (.sequence id source (before ++ c :: after)) c
  | chosen {id source condition whenTrue whenFalse choice}
      (committed : view.branches.get? id = some choice)
      (other : Untouched view (if choice.chosen then whenFalse else whenTrue)) :
      Passes view (.branch id source condition whenTrue whenFalse)
        (if choice.chosen then whenTrue else whenFalse)

/-- How a node gets its frontier from those of its children. -/
inductive Evaluated (view : ProgressView) : CompiledNode → Frontier → Prop
  | leaf {n g} (leaf : Leaf view n g) : Evaluated view n g
  | completed {id source cs} (all : ∀ c ∈ cs, Completes view c) :
      Evaluated view (.sequence id source cs) { state := .completed }
  | passes {n c g} (passes : Passes view n c) (now : evaluate view c = .ok g) : Evaluated view n g
  | parallel {id source cs} (all : ∀ c ∈ cs, evaluate view c = .ok (frontierOf view c)) :
      Evaluated view (.parallelAll id source cs) (Frontier.parallel (cs.map (frontierOf view)))
  | undecided {id source condition whenTrue whenFalse}
      (free : view.branches.get? id = none)
      (first : Untouched view whenTrue) (second : Untouched view whenFalse) :
      Evaluated view (.branch id source condition whenTrue whenFalse)
        { state := .running, decisions := [id] }

/-- The other children are done or have not begun. -/
theorem Passes.others {c : CompiledNode} (h : Passes view t c) :
    c ∈ t.children ∧ ∀ d ∈ t.children, d = c ∨ Untouched view d ∨ Completes view d := by
  cases h with
  | @current _ _ before _ after hbefore _ hafter =>
    refine ⟨by simp [CompiledNode.children], fun d hd => ?_⟩
    obtain hd | hd := List.mem_append.mp hd
    · exact Or.inr (Or.inr (hbefore d hd))
    · exact (List.mem_cons.mp hd).imp_right fun hd => Or.inl (hafter d hd)
  | @chosen _ _ _ _ _ choice _ hother =>
    cases hc : choice.chosen <;>
      simp only [hc, if_true, Bool.false_eq_true, if_false] at hother ⊢ <;>
      simp [CompiledNode.children, hother]

theorem Passes.mem {c : CompiledNode} (h : Passes view t c) : c ∈ t.children := h.others.1

theorem evaluateAll_eq_ok {cs : List CompiledNode} {results : List Frontier}
    (h : evaluateAll view cs = .ok results) :
    results = cs.map (frontierOf view) ∧ ∀ c ∈ cs, evaluate view c = .ok (frontierOf view c) := by
  induction cs generalizing results with
  | nil => cases h; exact ⟨rfl, by simp⟩
  | cons c cs ih =>
    rw [evaluateAll] at h
    split at h
    · cases h
    rename_i result hc
    split at h
    · cases h
    rename_i results hcs
    cases h
    obtain ⟨rfl, hall⟩ := ih hcs
    rw [List.map_cons, frontierOf_eq hc]
    exact ⟨rfl, List.forall_mem_cons.mpr ⟨by rw [frontierOf_eq hc, hc], hall⟩⟩

/-- A sequence is complete, or it has one current child. -/
theorem evaluateSequence_cases {cs : List CompiledNode} (h : evaluateSequence view cs = .ok f) :
    (f = { state := .completed } ∧ ∀ c ∈ cs, Completes view c) ∨
    ∃ before c after, cs = before ++ c :: after ∧ (∀ c ∈ before, Completes view c) ∧
      evaluate view c = .ok f ∧ ¬ Completes view c ∧ ∀ c ∈ after, Untouched view c := by
  induction cs with
  | nil => cases h; exact Or.inl ⟨rfl, by simp⟩
  | cons c cs ih =>
    rw [evaluateSequence] at h
    split at h
    · cases h
    rename_i result hc
    split at h
    · rename_i hopen
      split at h
      · cases h
      rename_i hfree
      cases h
      right
      have hlater : ∀ c ∈ cs, Untouched view c := by
        intro c hc
        rw [Bool.not_eq_true] at hfree
        exact hasProgress_eq_false.mp (hasProgressAny_eq_false.mp hfree c hc)
      refine ⟨[], c, cs, rfl, by simp, hc, ?_, hlater⟩
      rintro ⟨g, hg, hdone⟩
      cases hc.symm.trans hg
      exact hopen hdone
    · rename_i hdone
      have hfirst : Completes view c := ⟨result, hc, not_not.mp hdone⟩
      obtain ⟨hf, hall⟩ | ⟨before, c', after, rfl, hbefore, hrest⟩ := ih h
      · exact Or.inl ⟨hf, List.forall_mem_cons.mpr ⟨hfirst, hall⟩⟩
      · exact Or.inr ⟨c :: before, c', after, rfl,
          List.forall_mem_cons.mpr ⟨hfirst, hbefore⟩, hrest⟩

/-- What `evaluate` returns, by the kind of the node. -/
theorem evaluated_of_evaluate (h : evaluate view t = .ok f) : Evaluated view t f := by
  cases t with
  | operation id source binding =>
    cases h
    exact .leaf .operation
  | sequence id source cs =>
    rw [evaluate] at h
    obtain ⟨rfl, hall⟩ | ⟨before, c, after, rfl, hbefore, hc, hopen, hafter⟩ :=
      evaluateSequence_cases h
    · exact .completed hall
    · exact .passes (.current hbefore hopen hafter) hc
  | parallelAll id source cs =>
    rw [evaluate] at h
    split at h
    · cases h
    rename_i results hall
    cases h
    obtain ⟨rfl, hchildren⟩ := evaluateAll_eq_ok hall
    exact .parallel hchildren
  | branch id source condition whenTrue whenFalse =>
    rw [evaluate] at h
    split at h
    · rename_i choice hchoice
      by_cases hother : hasProgress view (if choice.chosen then whenFalse else whenTrue) = true
      · rw [if_pos hother] at h
        cases h
      rw [if_neg hother] at h
      rw [Bool.not_eq_true] at hother
      apply Evaluated.passes (.chosen hchoice (hasProgress_eq_false.mp hother))
      rw [← h]
      split <;> rfl
    · rename_i hfree
      split at h
      · cases h
      rename_i hnone
      cases h
      simp only [Bool.or_eq_true, not_or, Bool.not_eq_true] at hnone
      exact .undecided hfree (hasProgress_eq_false.mp hnone.1) (hasProgress_eq_false.mp hnone.2)
  | wait id source condition timeoutNs =>
    rw [evaluate] at h
    split at h
    · rename_i hwait
      cases h
      exact .leaf (.satisfied hwait)
    · rename_i hwait
      cases h
      exact .leaf (.timedOut hwait)
    · rename_i hwait
      cases h
      exact .leaf (.waiting hwait)
  | intervention id source procedure =>
    rw [evaluate] at h
    split at h
    · rename_i hclear
      cases h
      obtain ⟨clearance, hclear⟩ := Option.isSome_iff_exists.mp hclear
      exact .leaf (.cleared hclear)
    · rename_i hclear
      cases h
      exact .leaf (.called (by simpa using hclear))

/-! ## Completed trees -/

theorem evaluateOperation_completed {id : Name} {progress : Option OperationProgress}
    (h : (evaluateOperation id progress).state = .completed) :
    evaluateOperation id progress = { state := .completed } ∧
      ∃ q, progress = some q ∧ q.operation.Done ∧ ¬ q.operation.Unclear := by
  unfold evaluateOperation at h ⊢
  cases progress with
  | none => cases h
  | some q =>
    dsimp only at h ⊢
    by_cases hclear : q.operation.Unclear
    · simp [hclear] at h
    rw [if_neg hclear] at h ⊢
    cases hout : q.operation.outcome <;> simp only [hout] at h ⊢ <;> try cases h
    split at h
    · rename_i hreleased
      rw [if_pos hreleased]
      exact ⟨rfl, q, rfl, ⟨hout, hreleased⟩, hclear⟩
    · cases h

theorem evaluateOperation_failed {id : Name} {progress : Option OperationProgress}
    (h : (evaluateOperation id progress).state = .failed) :
    (evaluateOperation id progress).pendingOperations = [] := by
  unfold evaluateOperation at h ⊢
  cases progress with
  | none => cases h
  | some q =>
    dsimp only at h ⊢
    by_cases hclear : q.operation.Unclear
    · simp [hclear] at h
    rw [if_neg hclear] at h ⊢
    cases hout : q.operation.outcome with
    | failed | canceled | notExecuted => rfl
    | none | unresolved =>
      simp only [hout] at h
      cases h
    | succeeded =>
      simp only [hout] at h
      split at h <;> cases h

/-- The suggestions of several frontiers one after the other. -/
theorem foldl_merge (results : List Frontier) (f : Frontier) :
    results.foldl Frontier.merge f =
      { state := f.state
        operations := f.operations ++ results.flatMap (·.operations)
        decisions := f.decisions ++ results.flatMap (·.decisions)
        waits := f.waits ++ results.flatMap (·.waits)
        handovers := f.handovers ++ results.flatMap (·.handovers)
        interventions := f.interventions ++ results.flatMap (·.interventions)
        pendingOperations := f.pendingOperations ++ results.flatMap (·.pendingOperations)
        reasons := f.reasons ++ results.flatMap (·.reasons) } := by
  induction results generalizing f with
  | nil => simp
  | cons r results ih => simp [ih, Frontier.merge]

theorem parallel_state (results : List Frontier) : (Frontier.parallel results).state =
    if (∃ r ∈ results, r.state = .blocked) ∨
      (∃ r ∈ results, r.state = .failed) ∧ results.flatMap (·.pendingOperations) ≠ [] then .blocked
    else if ∃ r ∈ results, r.state = .failed then .failed
    else if ∀ r ∈ results, r.state = .completed then .completed
    else if results.flatMap (·.operations) ≠ [] then .ready
    else .running := by
  simp only [Frontier.parallel, foldl_merge, List.nil_append]
  split <;> rfl

theorem parallel_completed {results : List Frontier} :
    (Frontier.parallel results).state = .completed ↔ ∀ r ∈ results, r.state = .completed := by
  rw [parallel_state]
  constructor
  · intro h
    split_ifs at h with _ _ hall
    exact hall
  · intro h
    have hnone : ∀ s ≠ .completed, ¬ ∃ r ∈ results, r.state = s := by
      rintro _ hs ⟨r, hr, rfl⟩
      exact hs (h r hr)
    rw [if_neg (by simp [hnone .blocked, hnone .failed]), if_neg (hnone .failed (by simp)),
      if_pos h]

/-- A completed tree suggests nothing. -/
theorem eq_completed (h : evaluate view t = .ok f) (hdone : f.state = .completed) :
    f = { state := .completed } := by
  induction t generalizing f with
  | h t ih =>
  cases evaluated_of_evaluate h with
  | leaf hleaf => cases hleaf with
    | operation => exact (evaluateOperation_completed hdone).1
    | satisfied | cleared => rfl
    | waiting | timedOut | called => cases hdone
  | completed => rfl
  | undecided => cases hdone
  | passes hto hnow => exact ih _ hto.mem hnow hdone
  | @parallel id source cs hall =>
    have hresults := parallel_completed.mp hdone
    have hempty : ∀ c ∈ cs, frontierOf view c = { state := .completed } := by
      intro c hc
      exact ih c hc (hall c hc) (hresults _ (List.mem_map_of_mem hc))
    rw [List.map_congr_left hempty]
    simp [Frontier.parallel, foldl_merge]

/-- What the frontier of a control node rests on: nothing but children that are done or not
begun, one current child, or all children together. -/
theorem Evaluated.shape (h : Evaluated view t f) (hcontrol : ∀ b, t.label ≠ .operation b) :
    (f.operations = [] ∧ ∀ c ∈ t.children, Untouched view c ∨ Completes view c) ∨
    (∃ k ∈ t.children, evaluate view k = .ok f ∧
      ∀ c ∈ t.children, c = k ∨ Untouched view c ∨ Completes view c) ∨
    (t.label = .parallelAll ∧ (∀ c ∈ t.children, evaluate view c = .ok (frontierOf view c)) ∧
      f = Frontier.parallel (t.children.map (frontierOf view))) := by
  cases h with
  | leaf hleaf => cases hleaf with
    | operation => exact absurd rfl (hcontrol _)
    | _ => exact Or.inl ⟨rfl, fun c hc => absurd hc List.not_mem_nil⟩
  | completed hall => exact Or.inl ⟨rfl, fun c hc => Or.inr (hall c hc)⟩
  | passes hto hnow => exact Or.inr (Or.inl ⟨_, hto.mem, hnow, hto.others.2⟩)
  | parallel hall => exact Or.inr (Or.inr ⟨rfl, hall, rfl⟩)
  | undecided _ hfirst hsecond =>
    refine Or.inl ⟨rfl, ?_⟩
    simp [CompiledNode.children, hfirst, hsecond]

/-- The operations of a completed tree are done. -/
theorem Completes.done (h : Completes view t) {n : CompiledNode} (hn : n ∈ t.nodes) {b : Name}
    (hop : n.label = .operation b) {q : OperationProgress}
    (hq : view.operations.get? n.id = some q) : q.operation.Done := by
  induction t with
  | h t ih =>
  obtain ⟨f, hf, hdone⟩ := h
  rw [nodes_eq, List.mem_cons] at hn
  obtain rfl | hn := hn
  · cases n with
    | operation id source binding =>
      cases hf
      obtain ⟨-, q', hq', hdone, -⟩ := evaluateOperation_completed hdone
      change view.operations.get? id = some q at hq
      rw [hq] at hq'
      cases hq'
      exact hdone
    | _ => cases hop
  obtain ⟨c, hc, hn⟩ := List.mem_flatMap.mp hn
  have hcontrol : ∀ b, t.label ≠ .operation b := by
    intro b hb
    cases t with
    | operation => cases hc
    | _ => cases hb
  have huntouched : Untouched view c → q.operation.Done := by
    intro hfree
    rw [hfree.operations hn] at hq
    cases hq
  obtain ⟨-, hall⟩ | ⟨k, hk, hnow, hall⟩ | ⟨-, hall, rfl⟩ :=
    (evaluated_of_evaluate hf).shape hcontrol
  · obtain hfree | hcomplete := hall c hc
    · exact huntouched hfree
    · exact ih c hc hcomplete hn
  · obtain rfl | hfree | hcomplete := hall c hc
    · exact ih c hc ⟨f, hnow, hdone⟩ hn
    · exact huntouched hfree
    · exact ih c hc hcomplete hn
  · have hstate := parallel_completed.mp hdone _ (List.mem_map_of_mem hc)
    exact ih c hc ⟨_, hall c hc, hstate⟩ hn

/-! ## Suggestions -/

/-- A parallel node suggests nothing of its own. -/
theorem suggestions_parallel (results : List Frontier) :
    (Frontier.parallel results).operations ⊆ results.flatMap (·.operations) ∧
      (Frontier.parallel results).decisions ⊆ results.flatMap (·.decisions) ∧
      (Frontier.parallel results).waits ⊆ results.flatMap (·.waits) := by
  simp only [Frontier.parallel, foldl_merge]
  split
  · simp [Frontier.suppressNew]
  · simp

/-- What a tree suggests, one of its nodes suggests by itself: a leaf or an undecided branch. -/
theorem exists_suggesting (select : Frontier → List Name)
    (hcompleted : select { state := .completed } = [])
    (hparallel : ∀ results, select (Frontier.parallel results) ⊆ results.flatMap select)
    (h : evaluate view t = .ok f) {id : Name} (hid : id ∈ select f) :
    ∃ n ∈ t.nodes, ∃ g, id ∈ select g ∧ (Leaf view n g ∨
      (∃ c, n.label = .branch c) ∧ g = { state := .running, decisions := [n.id] }) := by
  induction t generalizing f with
  | h t ih =>
  have hchild : ∀ c ∈ t.children, ∀ g, evaluate view c = .ok g → id ∈ select g →
      ∃ n ∈ t.nodes, ∃ g, id ∈ select g ∧ (Leaf view n g ∨
        (∃ c, n.label = .branch c) ∧ g = { state := .running, decisions := [n.id] }) := by
    intro c hc g hg hid
    obtain ⟨n, hn, hrest⟩ := ih c hc hg hid
    exact ⟨n, mem_nodes_of_child hc hn, hrest⟩
  cases evaluated_of_evaluate h with
  | leaf hleaf => exact ⟨t, mem_nodes_self _, f, hid, Or.inl hleaf⟩
  | undecided => exact ⟨_, mem_nodes_self _, _, hid, Or.inr ⟨⟨_, rfl⟩, rfl⟩⟩
  | completed =>
    rw [hcompleted] at hid
    exact absurd hid List.not_mem_nil
  | passes hto hnow => exact hchild _ hto.mem _ hnow hid
  | parallel hall =>
    obtain ⟨r, hr, hid⟩ := List.mem_flatMap.mp (hparallel _ hid)
    obtain ⟨c, hc, rfl⟩ := List.mem_map.mp hr
    exact hchild c hc _ (hall c hc) hid

theorem evaluateOperation_suggests (id : Name) (progress : Option OperationProgress) :
    (∀ i ∈ (evaluateOperation id progress).operations, i = id ∧ progress = none) ∧
      (evaluateOperation id progress).decisions = [] ∧
      (evaluateOperation id progress).waits = [] := by
  unfold evaluateOperation
  cases progress with
  | none => simp
  | some q =>
    dsimp only
    by_cases hclear : q.operation.Unclear
    · simp [hclear]
    rw [if_neg hclear]
    cases q.operation.outcome with
    | succeeded => by_cases hreleased : q.operation.disposition = .released <;> simp [hreleased]
    | failed | canceled | notExecuted | none | unresolved => simp

/-- A suggested operation is one of the tree that nothing is known about. -/
theorem mem_operations (h : evaluate view t = .ok f) {id : Name} (hid : id ∈ f.operations) :
    ∃ n ∈ t.nodes, n.id = id ∧ (∃ b, n.label = .operation b) ∧ view.operations.get? id = none := by
  obtain ⟨n, hn, g, hid, hleaf | ⟨-, rfl⟩⟩ := exists_suggesting Frontier.operations rfl
    (fun results => (suggestions_parallel results).1) h hid
  · cases hleaf with
    | @operation _ _ binding =>
      obtain ⟨rfl, hfree⟩ := (evaluateOperation_suggests _ _).1 _ hid
      exact ⟨_, hn, rfl, ⟨binding, rfl⟩, hfree⟩
    | _ => cases hid
  · cases hid

/-- A suggested decision is at a branch of the tree. -/
theorem mem_decisions (h : evaluate view t = .ok f) {id : Name} (hid : id ∈ f.decisions) :
    ∃ n ∈ t.nodes, n.id = id ∧ ∃ c, n.label = .branch c := by
  obtain ⟨n, hn, g, hid, hleaf | ⟨hbranch, rfl⟩⟩ := exists_suggesting Frontier.decisions rfl
    (fun results => (suggestions_parallel results).2.1) h hid
  · cases hleaf with
    | operation =>
      rw [(evaluateOperation_suggests _ _).2.1] at hid
      cases hid
    | _ => cases hid
  · exact ⟨n, hn, (List.mem_singleton.mp hid).symm, hbranch⟩

/-- A suggested wait is one of the tree. -/
theorem mem_waits (h : evaluate view t = .ok f) {id : Name} (hid : id ∈ f.waits) :
    ∃ n ∈ t.nodes, n.id = id ∧ ∃ c timeoutNs, n.label = .wait c timeoutNs := by
  obtain ⟨n, hn, g, hid, hleaf | ⟨-, rfl⟩⟩ := exists_suggesting Frontier.waits rfl
    (fun results => (suggestions_parallel results).2.2) h hid
  · cases hleaf with
    | operation =>
      rw [(evaluateOperation_suggests _ _).2.2] at hid
      cases hid
    | waiting => exact ⟨_, hn, (List.mem_singleton.mp hid).symm, _, _, rfl⟩
    | _ => cases hid
  · cases hid

end RxSolutions.Process
