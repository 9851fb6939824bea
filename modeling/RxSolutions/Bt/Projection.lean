import RxSolutions.Bt.Frame
import RxSolutions.Executor.Snapshot

/-!
# From packets to frames

The engine takes a packet as a frame that is valid from the moment it arrives. What a frame
shows of a node of the process is what the progress view says about it, whatever the order in
which the kinds of progress were written into the packet.
-/

namespace RxSolutions.Bt

open Domain Durable Executor Process

/-- The engine's name of an outcome. -/
def outcomeOf : Domain.Outcome → Outcome
  | .none => .none
  | .succeeded => .succeeded
  | .failed => .failed
  | .canceled => .canceled
  | .notExecuted => .notExecuted
  | .unresolved => .unresolved

/-- The engine's name of a wait's state. -/
def waitOf : Executor.WaitState → WaitState
  | .pending => .pending
  | .satisfied => .satisfied
  | .timedOut => .timedOut

/-- The observation that a node of a packet becomes. -/
def observationOf (node : Executor.Node) : Observation where
  operationId := node.operationId
  outcome := outcomeOf node.outcome
  unknown := node.unknown
  integrityValid := node.integrityValid
  released := node.released
  branch := node.branch
  decisionId := node.decisionId
  wait := waitOf node.wait
  clearance := node.clearance

/-- The frame of a packet that arrives when the steady clock shows `steady`. -/
def frameOf (packet : Packet) (steady : ℕ) : Frame where
  identity := packet.identity
  revision := packet.revision
  complete := packet.complete
  current := packet.current
  submissionAuthorized := packet.submissionAuthorized
  validUntil := steady + packet.remainingValidityNs
  sourceDeadline := some
    ⟨packet.source.clockId, packet.source.checkedAtNs, packet.source.validUntilNs⟩
  nodes := packet.nodes.map observationOf
  eligible := packet.eligible

/-- What is known about a node. -/
def Frame.look (f : Frame) (id : Name) : Observation := (f.nodes.get? id).getD {}

/-- What a progress view says about a node. -/
def sight (view : ProgressView) (n : CompiledNode) : Observation :=
  match n.label with
  | .sequence | .parallelAll => {}
  | .operation _ =>
    match view.operations.get? n.id with
    | some progress => observationOf (.ofOperation progress)
    | none => {}
  | .branch _ =>
    match view.branches.get? n.id with
    | some choice => observationOf (.ofBranch choice)
    | none => {}
  | .wait .. =>
    match view.waits.get? n.id with
    | some wait => observationOf (.ofWait wait)
    | none => {}
  | .intervention _ =>
    match view.clearedInterventions.get? n.id with
    | some clearance => observationOf (.ofClearance clearance)
    | none => {}

theorem get?_nodesOf (view : ProgressView) (id : Name) :
    (nodesOf view).get? id =
      (((view.clearedInterventions.get? id).map Node.ofClearance).or
        (((view.waits.get? id).map Node.ofWait).or
          (((view.branches.get? id).map Node.ofBranch).or
            ((view.operations.get? id).map Node.ofOperation)))) := by
  simp [nodesOf, SortedMap.get?_overlay, Option.map_eq_bind]

/-- One node has one identity. -/
theorem eq_of_id {t n m : CompiledNode} (hids : (t.nodes.map CompiledNode.id).Nodup)
    (hn : n ∈ t.nodes) (hm : m ∈ t.nodes) (h : n.id = m.id) : n = m :=
  List.inj_on_of_nodup_map hids hn hm h

/-- Progress of a kind that is not the node's own is not recorded under its identity. -/
theorem get?_eq_none {α : Type} {t n : CompiledNode} {m : SortedMap Name α}
    (own : CompiledNode.Label → Prop) (hids : (t.nodes.map CompiledNode.id).Nodup)
    (h : ∀ id q, m.get? id = some q → ∃ k ∈ t.nodes, k.id = id ∧ own k.label)
    (hn : n ∈ t.nodes) (hother : ¬ own n.label) : m.get? n.id = none := by
  by_contra hsome
  obtain ⟨q, hq⟩ := Option.ne_none_iff_exists'.mp hsome
  obtain ⟨k, hk, hid, hown⟩ := h _ q hq
  rw [eq_of_id hids hk hn hid] at hown
  exact hother hown

theorem look_frameOf {p : ResolvedProcess} {view : ProgressView} {f : Frontier}
    (hplanned : Planned p view f) (hids : (p.root.nodes.map CompiledNode.id).Nodup)
    {packet : Packet} (hnodes : packet.nodes = nodesOf view) {n : CompiledNode}
    (hn : n ∈ p.root.nodes) (steady : ℕ) : (frameOf packet steady).look n.id = sight view n := by
  have hops : (¬ ∃ b, n.label = .operation b) → view.operations.get? n.id = none :=
    get?_eq_none (fun l => ∃ b, l = .operation b) hids hplanned.operations hn
  have hbranches : (¬ ∃ c, n.label = .branch c) → view.branches.get? n.id = none :=
    get?_eq_none (fun l => ∃ c, l = .branch c) hids hplanned.branches hn
  have hwaits : (¬ ∃ c t, n.label = .wait c t) → view.waits.get? n.id = none :=
    get?_eq_none (fun l => ∃ c t, l = .wait c t) hids hplanned.waits hn
  have hcleared : (¬ ∃ c, n.label = .intervention c) →
      view.clearedInterventions.get? n.id = none :=
    get?_eq_none (fun l => ∃ c, l = .intervention c) hids hplanned.cleared hn
  rw [Frame.look, frameOf, hnodes, SortedMap.get?_map, get?_nodesOf]
  unfold sight
  cases hlabel : n.label with
  | sequence | parallelAll =>
    simp [hops (by simp [hlabel]), hbranches (by simp [hlabel]), hwaits (by simp [hlabel]),
      hcleared (by simp [hlabel])]
  | operation b =>
    rw [hbranches (by simp [hlabel]), hwaits (by simp [hlabel]), hcleared (by simp [hlabel])]
    cases view.operations.get? n.id <;> rfl
  | branch c =>
    rw [hops (by simp [hlabel]), hwaits (by simp [hlabel]), hcleared (by simp [hlabel])]
    cases view.branches.get? n.id <;> rfl
  | wait c t =>
    rw [hops (by simp [hlabel]), hbranches (by simp [hlabel]), hcleared (by simp [hlabel])]
    cases view.waits.get? n.id <;> rfl
  | intervention c =>
    rw [hops (by simp [hlabel]), hbranches (by simp [hlabel]), hwaits (by simp [hlabel])]
    cases view.clearedInterventions.get? n.id <;> rfl

end RxSolutions.Bt
