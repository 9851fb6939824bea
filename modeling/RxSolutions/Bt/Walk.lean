import RxSolutions.Bt.Engine
import RxSolutions.Bt.Projection

/-!
# What one tick computes

While its frame stays usable a tick is a function of the progress view: a status for each
node, and the requests that are made on the way. This module states that function and what
the requests do to the context.
-/

namespace RxSolutions.Bt

open Domain Durable Executor Process

/-! ## The function -/

/-- The children of a node that can still matter. -/
def activeBelow (view : ProgressView) : CompiledNode → List CompiledNode
  | .branch id _ _ whenTrue whenFalse =>
    match view.branches.get? id with
    | none => []
    | some choice => if choice.chosen then [whenTrue] else [whenFalse]
  | t => t.children

mutual

/-- A node and the nodes below it that can still matter. -/
def active (view : ProgressView) : CompiledNode → List CompiledNode
  | .sequence id source children => .sequence id source children :: activeAll view children
  | .parallelAll id source children => .parallelAll id source children :: activeAll view children
  | .branch id source condition whenTrue whenFalse =>
    .branch id source condition whenTrue whenFalse ::
      match view.branches.get? id with
      | none => []
      | some choice => if choice.chosen then active view whenTrue else active view whenFalse
  | .operation id source binding => [.operation id source binding]
  | .wait id source condition timeoutNs => [.wait id source condition timeoutNs]
  | .intervention id source procedure => [.intervention id source procedure]

/-- All that is active below a list of nodes. -/
def activeAll (view : ProgressView) : List CompiledNode → List CompiledNode
  | [] => []
  | t :: ts => active view t ++ activeAll view ts

end

@[simp] theorem activeAll_eq (view : ProgressView) (ts : List CompiledNode) :
    activeAll view ts = ts.flatMap (active view) := by
  induction ts with
  | nil => rfl
  | cons t ts ih => rw [activeAll, ih, List.flatMap_cons]

theorem active_eq (view : ProgressView) (t : CompiledNode) :
    active view t = t :: (activeBelow view t).flatMap (active view) := by
  cases t with
  | branch id source condition whenTrue whenFalse =>
    rw [active, activeBelow]
    congr 1
    cases view.branches.get? id with
    | none => rfl
    | some choice => cases hc : choice.chosen <;> simp [hc]
  | _ => simp [active, activeBelow, CompiledNode.children]

theorem mem_children_of_activeBelow {view : ProgressView} {t c : CompiledNode}
    (h : c ∈ activeBelow view t) : c ∈ t.children := by
  cases t with
  | branch id source condition whenTrue whenFalse =>
    rw [activeBelow] at h
    cases hchoice : view.branches.get? id with
    | none => simp [hchoice] at h
    | some choice =>
      rw [hchoice] at h
      cases hc : choice.chosen <;> simp only [hc, if_true, Bool.false_eq_true, if_false] at h <;>
        rw [List.mem_singleton.mp h] <;> simp [CompiledNode.children]
  | _ => exact h

/-- Some active node has a property. -/
def anyBelow (view : ProgressView) (found : Definition → Observation → Bool) (t : CompiledNode) :
    Bool :=
  (active view t).any fun n => found (definitionOf n) (sight view n)

/-- What a leaf returns, and what it asks for. -/
def answer (kind : Kind) (value : Observation) : Status × Option RequestKind :=
  if value.unknown ∨ ¬ value.integrityValid then (.running, none)
  else match kind with
    | .operation =>
      if value.operationId = none then (.running, some .submitOperation)
      else match value.outcome with
        | .succeeded =>
          if value.released then (.success, none) else (.running, some .requestHandover)
        | .failed | .canceled | .notExecuted => (.failure, none)
        | .unresolved | .none => (.running, none)
    | .wait =>
      match value.wait with
      | .satisfied => (.success, none)
      | .timedOut => (.failure, none)
      | .pending => (.running, some .beginWait)
    | .intervention =>
      if value.clearance ≠ none then (.success, none) else (.running, some .requestIntervention)
    | _ => (.running, none)

/-- What a parallel node returns. -/
def parallelStatus (blocked live : Bool) (statuses : List Status) : Status :=
  if blocked then .running
  else if .failure ∈ statuses ∧ ¬ live then .failure
  else if .running ∈ statuses then .running
  else if .failure ∈ statuses then .failure
  else .success

mutual

/-- The status of a node. -/
def status (view : ProgressView) : CompiledNode → Status
  | .sequence _ _ children => statusSequence view children
  | .parallelAll id source children =>
    parallelStatus (anyBelow view blocker (.parallelAll id source children))
      (anyBelow view liveWork (.parallelAll id source children)) (statusAll view children)
  | .branch id _ _ whenTrue whenFalse =>
    match view.branches.get? id with
    | none => .running
    | some choice => if choice.chosen then status view whenTrue else status view whenFalse
  | .operation id source binding =>
    (answer .operation (sight view (.operation id source binding))).1
  | .wait id source condition timeoutNs =>
    (answer .wait (sight view (.wait id source condition timeoutNs))).1
  | .intervention id source procedure =>
    (answer .intervention (sight view (.intervention id source procedure))).1

/-- The first status that is not success. -/
def statusSequence (view : ProgressView) : List CompiledNode → Status
  | [] => .success
  | t :: ts => if status view t = .success then statusSequence view ts else status view t

/-- The statuses of a list of nodes. -/
def statusAll (view : ProgressView) : List CompiledNode → List Status
  | [] => []
  | t :: ts => status view t :: statusAll view ts

end

/-- What asks for new work. -/
def IsNew (kind : RequestKind) : Prop :=
  kind = .submitOperation ∨ kind = .resolveBranch ∨ kind = .beginWait

instance (kind : RequestKind) : Decidable (IsNew kind) := inferInstanceAs (Decidable (_ ∨ _ ∨ _))

/-- A request of one node, unless it asks for new work while that is suppressed. -/
def askOne (suppress : Bool) (id : Name) (kind : Option RequestKind) :
    List (Name × RequestKind) × Bool :=
  match kind with
  | none => ([], suppress)
  | some kind => (if suppress = true ∧ IsNew kind then [] else [(id, kind)], suppress)

mutual

/-- What is asked for below a node, and whether new work is suppressed afterwards. -/
def asks (view : ProgressView) : CompiledNode → Bool → List (Name × RequestKind) × Bool
  | .sequence _ _ children, suppress => asksSequence view children suppress
  | .parallelAll id source children, suppress =>
    asksAll view children (suppress || anyBelow view problem (.parallelAll id source children))
  | .branch id _ _ whenTrue whenFalse, suppress =>
    match view.branches.get? id with
    | none => askOne suppress id (some .resolveBranch)
    | some choice =>
      if choice.chosen then asks view whenTrue suppress else asks view whenFalse suppress
  | .operation id source binding, suppress =>
    askOne suppress id (answer .operation (sight view (.operation id source binding))).2
  | .wait id source condition timeoutNs, suppress =>
    askOne suppress id (answer .wait (sight view (.wait id source condition timeoutNs))).2
  | .intervention id source procedure, suppress =>
    askOne suppress id (answer .intervention (sight view (.intervention id source procedure))).2

/-- What a sequence asks for, up to the child it stops at. -/
def asksSequence (view : ProgressView) : List CompiledNode → Bool →
    List (Name × RequestKind) × Bool
  | [], suppress => ([], suppress)
  | t :: ts, suppress =>
    let first := asks view t suppress
    if status view t = .success then
      let rest := asksSequence view ts first.2
      (first.1 ++ rest.1, rest.2)
    else first

/-- What a list of nodes asks for. -/
def asksAll (view : ProgressView) : List CompiledNode → Bool → List (Name × RequestKind) × Bool
  | [], suppress => ([], suppress)
  | t :: ts, suppress =>
    let first := asks view t suppress
    let rest := asksAll view ts first.2
    (first.1 ++ rest.1, rest.2)

end

/-! ## Requests -/

/-- Whether a request is taken while the frame is usable. -/
def Context.Accepts (c : Context) (key : Name × RequestKind) : Prop :=
  (∃ p ∈ c.tick, p.frame.submissionAuthorized = true ∧ key.1 ∈ p.frame.eligible) ∧
    c.halted = false ∧ c.Current ∧ key ∉ c.requested ∧ c.queue.length < 32

instance (c : Context) (key : Name × RequestKind) : Decidable (c.Accepts key) :=
  inferInstanceAs (Decidable ((∃ p ∈ c.tick, _) ∧ _))

/-- A request while the frame is usable and new work is not suppressed. -/
def Context.asked (c : Context) (key : Name × RequestKind) : Context :=
  match c.definitions.get? key.1 with
  | some d =>
    if c.Accepts key then
      { c with
        queue := c.queue ++ [⟨c.identity, key.1, key.2, d.argument, d.timeoutNs⟩]
        requested := insert key c.requested }
    else c
  | none => c

/-- The context after some requests. -/
def Context.after (c : Context) (r : List (Name × RequestKind) × Bool) : Context :=
  r.1.foldl Context.asked { c with suppressNew := r.2 }

section Asked

variable {c : Context} {key : Name × RequestKind}

/-- A request changes the queue and the requested set only. -/
theorem Context.asked_cases (c : Context) (key : Name × RequestKind) :
    ∃ queue requested, c.asked key = { c with queue, requested } := by
  unfold Context.asked
  split
  · split
    · exact ⟨_, _, rfl⟩
    · exact ⟨c.queue, c.requested, rfl⟩
  · exact ⟨c.queue, c.requested, rfl⟩

theorem Context.asked_suppress (c : Context) (key : Name × RequestKind) (b : Bool) :
    ({ c with suppressNew := b } : Context).asked key = { c.asked key with suppressNew := b } := by
  unfold Context.asked
  dsimp only
  cases c.definitions.get? key.1 with
  | none => rfl
  | some d =>
    by_cases h : c.Accepts key
    · have h' : ({ c with suppressNew := b } : Context).Accepts key := h
      simp only [if_pos h, if_pos h']
    · have h' : ¬ ({ c with suppressNew := b } : Context).Accepts key := h
      simp only [if_neg h, if_neg h']

theorem Context.foldl_asked_suppress (c : Context) (keys : List (Name × RequestKind)) (b : Bool) :
    keys.foldl Context.asked { c with suppressNew := b } =
      { keys.foldl Context.asked c with suppressNew := b } := by
  induction keys generalizing c with
  | nil => rfl
  | cons key keys ih => rw [List.foldl_cons, Context.asked_suppress, ih, List.foldl_cons]

@[simp] theorem Context.suppressNew_after (c : Context) (r : List (Name × RequestKind) × Bool) :
    (c.after r).suppressNew = r.2 := by
  rw [Context.after, Context.foldl_asked_suppress]

theorem Context.after_after (c : Context) (r r' : List (Name × RequestKind) × Bool) :
    (c.after r).after r' = c.after (r.1 ++ r'.1, r'.2) := by
  simp only [Context.after, Context.foldl_asked_suppress, List.foldl_append]

theorem Context.after_fields (c : Context) (r : List (Name × RequestKind) × Bool) :
    ∃ queue requested, c.after r = { c with suppressNew := r.2, queue, requested } := by
  obtain ⟨keys, b⟩ := r
  induction keys using List.reverseRecOn with
  | nil => exact ⟨c.queue, c.requested, rfl⟩
  | append_singleton keys key ih =>
    obtain ⟨queue, requested, ih⟩ := ih
    rw [Context.after, List.foldl_append]
    change ∃ queue requested, Context.asked (c.after (keys, b)) key = _
    rw [ih]
    obtain ⟨queue', requested', h⟩ := Context.asked_cases
      { c with suppressNew := b, queue, requested } key
    exact ⟨queue', requested', h⟩

end Asked

end RxSolutions.Bt
