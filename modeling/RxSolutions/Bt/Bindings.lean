import RxSolutions.Bt.Delivery

/-!
# Operation identities of the execution context

A context remembers which operation each node was bound to and compares every incoming frame
with that memory, node by node. The memory is written only after the whole frame has passed,
so two nodes of one frame are never compared with each other.
-/

namespace RxSolutions.Bt

open Domain Durable Executor

/-- No operation belongs to two nodes. -/
def Distinct (binding : Name → Option Id) : Prop :=
  ∀ node other operation, binding node = some operation → binding other = some operation →
    node = other

/-- The operation a frame binds to a node. -/
def Frame.binding (f : Frame) (node : Name) : Option Id :=
  (f.nodes.get? node).bind (·.operationId)

namespace Context

variable {c : Context} {frame : Frame} {now : Reading}

theorem get?_operations_record (c : Context) (frame : Frame) (node : Name) :
    (c.record frame).operations.get? node = (frame.binding node).or (c.operations.get? node) :=
  SortedMap.get?_overlay ..

/-- The operation of a node that passes is the one it had, and no other node has it. -/
theorem binding_of_checkNode {node : Name} {value : Observation} {operation : Id}
    (h : c.checkNode node value = .ok ()) (hvalue : value.operationId = some operation) :
    (∀ known, c.operations.get? node = some known → known = operation) ∧
      ∀ other, c.operations.get? other = some operation → other = node := by
  simp only [checkNode, Checks.bind_eq_ok, Unique.exists_iff, PUnit.default_eq_unit, refuse_eq_ok,
    hvalue, Option.mem_some_iff, exists_eq_left', not_exists, not_and, not_not] at h
  obtain ⟨-, -, -, -, -, -, -, -, -, -, -, -, -, -, hsame, hother, -⟩ := h
  constructor
  · intro known hknown
    exact hsame known hknown
  · intro other hother'
    by_contra hne
    exact hother (other, operation) (SortedMap.mem_entries.mpr hother') hne rfl

theorem checkNode_of_validate (h : c.validate frame now = .ok ()) :
    ∀ e ∈ frame.nodes.entries, c.checkNode e.1 e.2 = .ok () := by
  simp only [validate, Checks.bind_eq_ok, Unique.exists_iff, PUnit.default_eq_unit] at h
  obtain ⟨-, -, -, hnodes, -⟩ := h
  exact Durable.Checks.forM_eq_ok.mp hnodes

/-- An accepted frame agrees with the memory about every operation it names. -/
theorem binding_of_validate {node : Name} {operation : Id} (h : c.validate frame now = .ok ())
    (hbinding : frame.binding node = some operation) :
    (∀ known, c.operations.get? node = some known → known = operation) ∧
      ∀ other, c.operations.get? other = some operation → other = node := by
  obtain ⟨value, hvalue, hoperation⟩ := Option.bind_eq_some_iff.mp hbinding
  have hmem := SortedMap.mem_entries.mpr hvalue
  exact binding_of_checkNode (checkNode_of_validate h (node, value) hmem) hoperation

/-- The memory after an accepted frame is injective when the memory before it and the frame
are. -/
theorem record_distinct_iff (h : c.validate frame now = .ok ()) :
    Distinct (c.record frame).operations.get? ↔
      Distinct c.operations.get? ∧ Distinct frame.binding := by
  -- what was known and what the frame names both stand in the new memory
  have hnew : ∀ {node operation}, frame.binding node = some operation →
      (c.record frame).operations.get? node = some operation := by
    intro node operation hnode
    rw [get?_operations_record, hnode, Option.some_or]
  have hold : ∀ {node operation}, c.operations.get? node = some operation →
      (c.record frame).operations.get? node = some operation := by
    intro node operation hnode
    rw [get?_operations_record]
    cases hframe : frame.binding node with
    | none => exact hnode
    | some named => rw [(binding_of_validate h hframe).1 operation hnode, Option.some_or]
  constructor
  · intro hdistinct
    constructor
    · intro node other operation hnode hother
      exact hdistinct node other operation (hold hnode) (hold hother)
    · intro node other operation hnode hother
      exact hdistinct node other operation (hnew hnode) (hnew hother)
  · rintro ⟨hmemory, hframe⟩ node other operation hnode hother
    rw [get?_operations_record, Option.or_eq_some_iff] at hnode hother
    obtain hnode | ⟨-, hnode⟩ := hnode
    · obtain hother | ⟨-, hother⟩ := hother
      · exact hframe node other operation hnode hother
      · exact ((binding_of_validate h hnode).2 other hother).symm
    · obtain hother | ⟨-, hother⟩ := hother
      · exact (binding_of_validate h hother).2 node hnode
      · exact hmemory node other operation hnode hother

theorem validate_of_publish (h : (c.publish frame now).1 = .ok ()) :
    c.validate frame now = .ok () := by
  unfold publish at h
  split at h
  · assumption
  · cases h

theorem operations_reject (c : Context) : c.reject.operations = c.operations := by
  unfold reject halt
  split <;> rfl

end Context

namespace Service

variable {s : Service} {call : ContextCall}

/-- Only an accepted frame changes the operations a context remembers. -/
theorem operations_step (s : Service) (call : ContextCall) :
    (s.step call).context.operations = s.context.operations ∨
      ∃ frame now, call = .publish frame now ∧ (s.context.publish frame now).1 = .ok () ∧
        (s.step call).context = s.context.record frame := by
  cases call with
  | publish frame now =>
    by_cases hok : (s.context.publish frame now).1 = .ok ()
    · exact Or.inr ⟨frame, now, rfl, hok, Context.publish_ok hok⟩
    · left
      simp only [step, Context.publish_error hok]
      exact Context.operations_reject _
  | beginTick | suppressNewForTick => exact Or.inl rfl
  | enqueue node kind now =>
    left
    cases h : s.context.enqueue node kind now with
    | error e => simp only [step, h]
    | ok answer =>
      simp only [step, h]
      obtain heq | ⟨d, -, -, -, heq⟩ := Context.enqueue_cases h <;> rw [heq]
  | pause node =>
    left
    cases h : s.context.pause node with
    | error e => simp only [step, h]
    | ok context =>
      simp only [step, h, Context.pause_cases h, Context.halt]
      split <;> rfl
  | takeRequests limit clock =>
    left
    cases h : s.context.takeRequests limit clock with
    | error e => simp only [step, h]
    | ok answer =>
      simp only [step, h]
      obtain ⟨queue, heq, -⟩ := Context.takeRequests_cases h
      rw [heq]

theorem distinct_step (hs : Distinct s.context.operations.get?)
    (hcall : ∀ frame now, call = .publish frame now → Distinct frame.binding) :
    Distinct (s.step call).context.operations.get? := by
  obtain hsame | ⟨frame, now, hpublish, hok, heq⟩ := operations_step s call
  · rw [hsame]
    exact hs
  · rw [heq, Context.record_distinct_iff (Context.validate_of_publish hok)]
    exact ⟨hs, hcall frame now hpublish⟩

theorem distinct_run (hs : Distinct s.context.operations.get?) {calls : List ContextCall}
    (hcalls : ∀ frame now, .publish frame now ∈ calls → Distinct frame.binding) :
    Distinct (s.run calls).context.operations.get? := by
  induction calls using List.reverseRecOn with
  | nil => exact hs
  | append_singleton calls call ih =>
    rw [run, Runs.after_concat]
    apply distinct_step
    · exact ih fun frame now hmem => hcalls frame now (List.mem_append_left _ hmem)
    · intro frame now heq
      exact hcalls frame now (by simp [heq])

theorem distinct_new (identity : Identity) (root : Name)
    (definitions : SortedMap Name Definition) :
    Distinct (new identity root definitions).context.operations.get? := by
  intro node other operation hnode
  cases hnode

end Service

/-- However frames are offered between the other calls: as long as no frame binds two nodes to
one operation, the operations that the context remembers are injective. And an accepted frame
that does bind two nodes to one operation always breaks this. -/
theorem operations_distinct (identity : Identity) (root : Name)
    (definitions : SortedMap Name Definition) (calls : List ContextCall) :
    ((∀ frame now, .publish frame now ∈ calls → Distinct frame.binding) →
      Distinct ((Service.new identity root definitions).run calls).context.operations.get?) ∧
    ∀ frame now,
      (((Service.new identity root definitions).run calls).context.publish frame now).1 = .ok () →
      ¬ Distinct frame.binding →
      ¬ Distinct
        ((Service.new identity root definitions).run
          (calls ++ [.publish frame now])).context.operations.get? := by
  constructor
  · exact Service.distinct_run (Service.distinct_new identity root definitions)
  · intro frame now hok hframe
    rw [Service.run, Runs.after_concat]
    have hrecord := Context.record_distinct_iff (Context.validate_of_publish hok)
    simp only [Service.run] at hok hrecord
    simp only [Service.step, Context.publish_ok hok, hrecord]
    exact fun h => hframe h.2

/-! ## Two nodes of one frame -/

/-- Two operations in a row. -/
def pairDefinitions : SortedMap Name Definition :=
  SortedMap.empty
    |>.insert "both" ⟨.sequence, ["first", "second"], "", 0⟩
    |>.insert "first" ⟨.operation, [], "load", 0⟩
    |>.insert "second" ⟨.operation, [], "inspect", 0⟩

/-- An execution context. -/
def pairIdentity : Identity :=
  ⟨"run", "session", "0123456789abcdef0123456789abcdef0123456789abcdef0123456789abcdef", 1, 1⟩

/-- A complete frame that shows one operation at two nodes. -/
def sharedFrame : Frame :=
  { identity := pairIdentity, revision := 1, complete := true, current := true
    submissionAuthorized := true, validUntil := 10, sourceDeadline := none
    nodes := SortedMap.empty
      |>.insert "first" { operationId := some "operation" }
      |>.insert "second" { operationId := some "operation" }
    eligible := [] }

/-- A new context accepts a frame that binds two nodes to one operation and remembers both; it
then refuses the very same frame, whose bindings a complete view may not lose. -/
theorem publish_binds_operation_twice :
    ∃ c, Context.new pairIdentity "both" pairDefinitions = .ok c ∧
      (c.publish sharedFrame ⟨0, none⟩).1 = .ok () ∧
      (c.publish sharedFrame ⟨0, none⟩).2.operations.get? "first" = some "operation" ∧
      (c.publish sharedFrame ⟨0, none⟩).2.operations.get? "second" = some "operation" ∧
      ((c.publish sharedFrame ⟨0, none⟩).2.publish sharedFrame ⟨0, none⟩).1 =
        .error "operation shared across activations" :=
  ⟨.initial pairIdentity "both" pairDefinitions, if_neg (by decide +kernel), by decide +kernel,
    by decide +kernel, by decide +kernel, by decide +kernel⟩

end RxSolutions.Bt
