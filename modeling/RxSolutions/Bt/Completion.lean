import RxSolutions.Bt.Walk
import RxSolutions.Process.Evaluation

/-!
# Done trees and completed plans

A completed tree shows no problem anywhere the engine still looks. So a parallel node of the
engine returns success exactly when all its children do, as in the plan, and success is
completion at every node.
-/

namespace RxSolutions.Bt

open Domain Durable Executor Process

variable {view : ProgressView} {t : CompiledNode} {f : Frontier}

/-! ## What is seen of a node -/

/-- What is seen of an operation that began is unclear when the operation is. -/
theorem unclear_iff (q : OperationProgress) :
    (observationOf (.ofOperation q)).unknown = true ∨
      ¬ (observationOf (.ofOperation q)).integrityValid = true ↔ q.operation.Unclear := by
  simp only [observationOf, Node.ofOperation, decide_eq_true_eq, Operation.Unclear]
  cases q.operation.integrity <;> simp [or_comm]

/-! ## Leaves -/

/-- The requests that a frontier suggests. -/
def suggested (f : Frontier) : List (Name × RequestKind) :=
  f.operations.map (·, .submitOperation) ++ f.decisions.map (·, .resolveBranch) ++
    f.waits.map (·, .beginWait) ++ f.handovers.map (·, .requestHandover) ++
    f.interventions.map (·, .requestIntervention)

/-- The engine and the planner see a leaf alike. -/
structure LeafAgrees (view : ProgressView) (t : CompiledNode) (f : Frontier) : Prop where
  success : status view t = .success ↔ f.state = .completed
  failure : status view t = .failure ↔ f.state = .failed
  requests : ∀ suppress,
    asks view t suppress = askOne suppress t.id (answer (kindOf t) (sight view t)).2
  asks : suggested f = (answer (kindOf t) (sight view t)).2.toList.map (t.id, ·)
  problem : problem (definitionOf t) (sight view t) = true ↔ f.state = .blocked ∨ f.state = .failed
  blocker : blocker (definitionOf t) (sight view t) = true ↔ f.state = .blocked
  live : liveWork (definitionOf t) (sight view t) = true → f.pendingOperations ≠ []
  pending : f.pendingOperations ≠ [] →
    liveWork (definitionOf t) (sight view t) = true ∨ f.state = .blocked

/-- An unclear observation is a blocker, and a problem. -/
theorem blocker_of_unclear {d : Definition} {value : Observation}
    (h : value.unknown = true ∨ ¬ value.integrityValid = true) : blocker d value = true := by
  unfold blocker
  obtain h | h := h <;> simp [h]

theorem problem_of_blocker {d : Definition} {value : Observation} (h : blocker d value = true) :
    problem d value = true := by
  simp only [blocker, problem, Bool.or_eq_true, Bool.and_eq_true] at h ⊢
  tauto

theorem leafAgrees_operation (id : Name) (source : SourceLocation) (binding : Name) :
    LeafAgrees view (.operation id source binding)
      (evaluateOperation id (view.operations.get? id)) := by
  have hsight : sight view (.operation id source binding) =
      ((view.operations.get? id).map fun q => observationOf (.ofOperation q)).getD {} := by
    cases h : view.operations.get? id <;> simp [sight, CompiledNode.label, CompiledNode.id, h]
  cases hq : view.operations.get? id with
  | none =>
    rw [hq] at hsight
    constructor <;>
      simp [status, asks, hsight, kindOf, answer, evaluateOperation, suggested, problem, blocker,
        liveWork, definitionOf, CompiledNode.id]
  | some q =>
    rw [hq, Option.map_some, Option.getD_some] at hsight
    have hunclear := unclear_iff q
    by_cases hclear : q.operation.Unclear
    · have hanswer : answer .operation (observationOf (.ofOperation q)) = (.running, none) := by
        rw [answer, if_pos (hunclear.mpr hclear)]
      have hblocker : ∀ d, blocker d (observationOf (.ofOperation q)) = true :=
        fun d => blocker_of_unclear (hunclear.mpr hclear)
      have hproblem : ∀ d, problem d (observationOf (.ofOperation q)) = true :=
        fun d => problem_of_blocker (hblocker d)
      constructor <;>
        simp [status, asks, hsight, kindOf, hanswer, hblocker, hproblem, evaluateOperation, hclear,
          suggested, CompiledNode.id]
    · -- what is seen of a clear operation is its identity, its outcome and its release
      obtain ⟨hvalid, hresolved, hknown⟩ : q.operation.integrity = .valid ∧
          q.operation.outcome ≠ .unresolved ∧ q.operation.executionKnowledge ≠ .unknown := by
        simp only [Operation.Unclear, not_or] at hclear
        refine ⟨?_, hclear.2.1, hclear.2.2⟩
        cases h : q.operation.integrity
        · rfl
        · exact absurd h hclear.1
      have hvalue : observationOf (.ofOperation q) =
          { operationId := some q.operation.operationId
            outcome := outcomeOf q.operation.outcome
            released := q.operation.disposition = .released } := by
        simp [observationOf, Node.ofOperation, hvalid, hresolved, hknown, waitOf]
      rw [hvalue] at hsight
      cases hout : q.operation.outcome with
      | unresolved => exact absurd hout hresolved
      | _ =>
        by_cases hreleased : q.operation.disposition = .released <;> constructor <;>
          simp [status, asks, hsight, kindOf, answer, evaluateOperation, hclear, suggested, problem,
            blocker, liveWork, definitionOf, CompiledNode.id, hout, hreleased, outcomeOf]

/-- The engine and the planner see every leaf alike. -/
theorem leafAgrees (h : Leaf view t f) : LeafAgrees view t f := by
  cases h with
  | operation => exact leafAgrees_operation _ _ _
  | satisfied hwait | timedOut hwait | waiting hwait =>
    constructor <;>
      simp [status, asks, sight, CompiledNode.label, CompiledNode.id, hwait, kindOf, answer,
        suggested, problem, blocker, liveWork, definitionOf, observationOf, Node.ofWait, waitOf,
        outcomeOf]
  | cleared hclear | called hclear =>
    constructor <;>
      simp [status, asks, sight, CompiledNode.label, CompiledNode.id, hclear, kindOf, answer,
        suggested, problem, blocker, liveWork, definitionOf, observationOf, Node.ofClearance,
        waitOf, outcomeOf]

/-! ## Completed trees -/

/-- Nothing about a node is in the way, and nothing is under way. -/
def Quiet (view : ProgressView) (n : CompiledNode) : Prop :=
  problem (definitionOf n) (sight view n) = false ∧ liveWork (definitionOf n) (sight view n) = false

/-- Only leaves are in the way or under way. -/
theorem quiet_control
    (h : t.label = .sequence ∨ t.label = .parallelAll ∨ ∃ c, t.label = .branch c) :
    Quiet view t := by
  cases t with
  | sequence | parallelAll => exact ⟨rfl, rfl⟩
  | branch id source condition whenTrue whenFalse =>
    cases hchoice : view.branches.get? id <;>
      simp [Quiet, sight, CompiledNode.label, CompiledNode.id, hchoice, problem, liveWork,
        definitionOf, kindOf, observationOf, Node.ofBranch, outcomeOf, waitOf]
  | _ => simp [CompiledNode.label] at h

variable {c : CompiledNode}

theorem quiet_of_passes (h : Passes view t c) : Quiet view t := by
  cases h with
  | current => exact quiet_control (Or.inl rfl)
  | chosen => exact quiet_control (Or.inr (Or.inr ⟨_, rfl⟩))

/-- The child that a branch has chosen is the active one. -/
theorem activeBelow_chosen {id : Name} {source : SourceLocation} {condition : Name}
    {whenTrue whenFalse : CompiledNode} {choice : BranchChoice}
    (h : view.branches.get? id = some choice) :
    activeBelow view (.branch id source condition whenTrue whenFalse) =
      [if choice.chosen then whenTrue else whenFalse] := by
  rw [activeBelow, h]
  cases hc : choice.chosen <;> simp [hc]

theorem active_of_passes (h : Passes view t c) : c ∈ activeBelow view t := by
  cases h with
  | current => simp [activeBelow, CompiledNode.children]
  | chosen hchoice => simp [activeBelow_chosen hchoice]

/-- The active nodes of a completed tree are quiet. -/
theorem Completes.calm (h : Completes view t) : ∀ n ∈ active view t, Quiet view n := by
  induction t with
  | h t ih =>
  obtain ⟨f, hf, hdone⟩ := h
  -- the node itself, and the children that completed
  have hall : Quiet view t → (∀ c ∈ activeBelow view t, Completes view c) →
      ∀ n ∈ active view t, Quiet view n := by
    intro hself hbelow n hn
    rw [active_eq, List.mem_cons] at hn
    obtain rfl | hn := hn
    · exact hself
    · obtain ⟨c, hc, hn⟩ := List.mem_flatMap.mp hn
      exact ih c (mem_children_of_activeBelow hc) (hbelow c hc) n hn
  cases evaluated_of_evaluate hf with
  | leaf hleaf =>
    have hagrees := leafAgrees hleaf
    apply hall
    · constructor
      · rw [← Bool.not_eq_true, hagrees.problem, hdone]
        simp
      · rw [← Bool.not_eq_true]
        intro hlive
        rw [eq_completed hf hdone] at hagrees
        exact hagrees.live hlive rfl
    · intro c hc
      cases hleaf <;> cases hc
  | undecided => cases hdone
  | completed hcs => exact hall (quiet_control (Or.inl rfl)) hcs
  | parallel hcs =>
    apply hall (quiet_control (Or.inr (Or.inl rfl)))
    intro c hc
    exact ⟨_, hcs c hc, parallel_completed.mp hdone _ (List.mem_map_of_mem hc)⟩
  | passes hto hnow =>
    apply hall (quiet_of_passes hto)
    cases hto with
    | current _ hopen => exact absurd ⟨f, hnow, hdone⟩ hopen
    | chosen hchoice => simpa [activeBelow_chosen hchoice] using ⟨f, hnow, hdone⟩

@[simp] theorem statusAll_eq (ts : List CompiledNode) :
    statusAll view ts = ts.map (status view) := by
  induction ts with
  | nil => rfl
  | cons t ts ih => rw [statusAll, ih, List.map_cons]

theorem statusSequence_completed {ts : List CompiledNode}
    (h : ∀ t ∈ ts, status view t = .success) : statusSequence view ts = .success := by
  induction ts with
  | nil => rfl
  | cons t ts ih =>
    rw [statusSequence, if_pos (h t List.mem_cons_self)]
    exact ih fun u hu => h u (List.mem_cons_of_mem _ hu)

theorem statusSequence_current {before after : List CompiledNode} {t : CompiledNode}
    (hbefore : ∀ t ∈ before, status view t = .success) (ht : status view t ≠ .success) :
    statusSequence view (before ++ t :: after) = status view t := by
  induction before with
  | nil => rw [List.nil_append, statusSequence, if_neg ht]
  | cons u before ih =>
    rw [List.cons_append, statusSequence, if_pos (hbefore u List.mem_cons_self)]
    exact ih fun v hv => hbefore v (List.mem_cons_of_mem _ hv)

/-- A node has the status of the child whose frontier it has. -/
theorem status_of_passes (h : Passes view t c) (hnow : evaluate view c = .ok f)
    (hiff : ∀ d ∈ t.children, ∀ g, evaluate view d = .ok g →
      (status view d = .success ↔ g.state = .completed)) : status view t = status view c := by
  have hchild := hiff c h.mem f hnow
  cases h with
  | current hbefore hopen _ =>
    rw [status, statusSequence_current]
    · intro u hu
      obtain ⟨g, hg, hdone⟩ := hbefore u hu
      exact (hiff u (List.mem_append_left _ hu) g hg).mpr hdone
    · exact fun hs => hopen ⟨f, hnow, hchild.mp hs⟩
  | chosen hchoice =>
    rw [status, hchoice]
    exact (apply_ite (status view) _ _ _).symm

theorem parallelStatus_eq_success {blocked live : Bool} {statuses : List Status} :
    parallelStatus blocked live statuses = .success ↔
      blocked = false ∧ ∀ s ∈ statuses, s = .success := by
  have hall : (∀ s ∈ statuses, s = .success) ↔ .failure ∉ statuses ∧ .running ∉ statuses := by
    constructor
    · intro h
      constructor <;> intro hin <;> cases h _ hin
    · rintro ⟨hf, hr⟩ s hs
      cases s
      · exact absurd hs hr
      · rfl
      · exact absurd hs hf
  rw [hall]
  unfold parallelStatus
  cases blocked <;> cases live <;> by_cases hf : Status.failure ∈ statuses <;>
    by_cases hr : Status.running ∈ statuses <;> simp [hf, hr]

/-- The engine is done with a tree exactly when the plan is. -/
theorem status_eq_success (h : evaluate view t = .ok f) :
    status view t = .success ↔ f.state = .completed := by
  induction t generalizing f with
  | h t ih =>
  cases evaluated_of_evaluate h with
  | leaf hleaf => exact (leafAgrees hleaf).success
  | completed hall =>
    rw [status]
    refine iff_of_true (statusSequence_completed fun c hc => ?_) rfl
    obtain ⟨g, hg, hdone⟩ := hall c hc
    exact (ih c hc hg).mpr hdone
  | passes hto hnow =>
    rw [status_of_passes hto hnow fun d hd _ => ih d hd]
    exact ih _ hto.mem hnow
  | @undecided id source condition whenTrue whenFalse hfree =>
    rw [status, hfree]
    simp
  | @parallel id source cs hall =>
    rw [status, parallelStatus_eq_success]
    constructor
    · rintro ⟨-, hsuccess⟩
      apply parallel_completed.mpr
      intro r hr
      obtain ⟨c, hc, rfl⟩ := List.mem_map.mp hr
      refine (ih c hc (hall c hc)).mp (hsuccess _ ?_)
      rw [statusAll_eq]
      exact List.mem_map_of_mem hc
    · intro hdone
      have hresults := parallel_completed.mp hdone
      constructor
      · have hcalm := Completes.calm ⟨_, h, hdone⟩
        rw [anyBelow, List.any_eq_false]
        intro n hn hblocker
        have hquiet := (hcalm n hn).1
        rw [problem_of_blocker hblocker] at hquiet
        cases hquiet
      · intro s hs
        rw [statusAll_eq] at hs
        obtain ⟨c, hc, rfl⟩ := List.mem_map.mp hs
        exact (ih c hc (hall c hc)).mpr (hresults _ (List.mem_map_of_mem hc))

end RxSolutions.Bt
