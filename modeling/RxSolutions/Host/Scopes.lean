import RxSolutions.Host.Qualification

/-!
# Fencing and arming a cell

A fence raises the epoch and the scope counters of a cell, adds blocks to it and
disarms it. An arm clears exactly the blocks a cell has, under exactly its epoch and
scope counters. Both are recorded under the identifier of the request, so a repeated
request is answered from the record.
-/

namespace RxSolutions.Host

open Domain Durable Program

variable [Ideal]

/-- The answer to a request that was recorded before, if it is the same request. -/
def replayed (fingerprint : Digest) (old : Digest × GateReceipt) : Tx (GateReceipt × Bool) := do
  ensure (old.1 = fingerprint) .keyConflict
  return (old.2, true)

/-- The cell after a fence. -/
def CellState.fenced (s : CellState) (epoch : Counter) (scopes : Counters) (blocks : Finset Id) :
    CellState where
  epoch := epoch
  scopes := scopes ∪ s.scopes
  blocked := s.blocked ∪ blocks

/-- The transaction of `fence`; `true` if the request was recorded before. -/
def recordFence (boot request : Id) (body : GateBody) : Tx (GateReceipt × Bool) := do
  match ← Tx.get (.fenceRequest request) with
  | some old => replayed (Ideal.fenceDigest body) old.document
  | none =>
    let row ← Tx.fetch (.cell body.cell) (.invalid "unknown cell")
    ensure (row.document.epoch ≤ body.epoch ∧ body.scopes.NotBelow row.document.scopes)
      (.invalid "stale cell fence")
    let state := row.document.fenced body.epoch body.scopes body.blocks
    Tx.put (.cell body.cell) (some row.revision) state
    let (sequence, journal) ← nextSequence
    let receipt : GateReceipt := {
      id := request
      hostBoot := boot
      journal := journal
      sequence := sequence
      cell := body.cell
      state := state }
    Tx.put (.fenceRequest request) none (Ideal.fenceDigest body, receipt)
    return (receipt, false)

/-- `fence`. -/
def fence (caller : Caller) (request : Id) (cell : Name) (epoch : Counter) (scopes : Counters)
    (blocks : Finset Id) : Gate GateReceipt := do
  authorized caller
  let c ← core
  match c.binding cell with
  | none => refuse .forbidden
  | some b =>
    validateScopes b scopes
    let (receipt, replayed) ← transact (recordFence c.boot request
      { cell := cell, epoch := epoch, scopes := scopes, blocks := blocks })
    if ¬ replayed then setCore { c with armed := c.armed.erase cell }
    return receipt

/-- The cell after an arm. -/
def CellState.cleared (s : CellState) (clear : Finset Id) : CellState :=
  { s with blocked := s.blocked \ clear }

/-- The transaction of `arm`; `true` if the attempt was recorded before. -/
def recordArm (boot attempt : Id) (body : GateBody) : Tx (GateReceipt × Bool) := do
  match ← Tx.get (.armRequest attempt) with
  | some old => replayed (Ideal.armDigest body) old.document
  | none =>
    let row ← Tx.fetch (.cell body.cell) (.invalid "unknown cell")
    ensure (row.document.epoch = body.epoch ∧ row.document.scopes = body.scopes ∧
        body.blocks = row.document.blocked)
      (.invalid "arm target mismatch")
    let state := row.document.cleared body.blocks
    Tx.put (.cell body.cell) (some row.revision) state
    let (sequence, journal) ← nextSequence
    let receipt : GateReceipt := {
      id := attempt
      hostBoot := boot
      journal := journal
      sequence := sequence
      cell := body.cell
      state := state }
    Tx.put (.armRequest attempt) none (Ideal.armDigest body, receipt)
    return (receipt, false)

/-- `arm`. -/
def arm (caller : Caller) (attempt : Id) (cell : Name) (epoch : Counter) (scopes : Counters)
    (clear : Finset Id) : Gate GateReceipt := do
  authorized caller
  requireAdmission
  let _ ← currentTarget cell
  let c ← core
  let (receipt, replayed) ← transact (recordArm c.boot attempt
    { cell := cell, epoch := epoch, scopes := scopes, blocks := clear })
  if ¬ replayed ∧ receipt.state.blocked = ∅ then
    setCore { c with armed := insert cell c.armed }
  return receipt

/-! ## What these calls can do -/

/-- A new fence was committed, and the cell is disarmed. -/
inductive FenceStep (h : Machine) (request : Id) (body : GateBody) : GateReceipt → Machine → Prop
  | mk {b : Binding} {state : CellState} {m : HostMeta}
      (bound : h.core.binding body.cell = some b)
      (declared : body.scopes.keys = b.scopeIds.toFinset)
      (unrecorded : h.store.doc (.fenceRequest request) = none)
      (found : h.store.doc (.cell body.cell) = some state)
      (epoch : state.epoch ≤ body.epoch)
      (scopes : body.scopes.NotBelow state.scopes)
      (journals : h.store.doc .hostMeta = some m) :
      FenceStep h request body
        ⟨request, h.core.boot, m.deliveryJournal, m.deliverySeq + 1, body.cell,
          state.fenced body.epoch body.scopes body.blocks⟩
        { h with
          core := { h.core with armed := h.core.armed.erase body.cell }
          store := (Store.numbered (h.store.write (.cell body.cell)
              (state.fenced body.epoch body.scopes body.blocks)) m).write
            (.fenceRequest request) (Ideal.fenceDigest body,
              ⟨request, h.core.boot, m.deliveryJournal, m.deliverySeq + 1, body.cell,
                state.fenced body.epoch body.scopes body.blocks⟩) }

/-- `fence` answers from the record of the request, or makes one step. -/
theorem fence_runs {h : Machine} {caller : Caller} {request : Id} {cell : Name} {epoch : Counter}
    {scopes : Counters} {blocks : Finset Id} :
    Gate.Runs (fence caller request cell epoch scopes blocks)
      (fun r h' => h' = h ∧ h.store.doc (.fenceRequest request) =
          some (Ideal.fenceDigest ⟨cell, epoch, scopes, blocks⟩, r) ∨
        FenceStep h request ⟨cell, epoch, scopes, blocks⟩ r h')
      (fun _ h' => h' = h) h := by
  refine Gate.Reads.authorized.bind (fun _ => rfl) fun _ _ => ?_
  refine Gate.Reads.core.bind (fun _ => rfl) ?_
  rintro _ rfl
  cases hb : h.core.binding cell with
  | none => exact Gate.Runs.refuse rfl
  | some b =>
    refine Gate.Reads.validateScopes.bind (fun _ => rfl) fun _ hscoped => ?_
    refine Always.bind (Gate.Runs.transact ?_ fun _ => rfl)
    simp only [recordFence, commits_bind, Tx.commits_get]
    cases hold : h.store.get (.fenceRequest request) with
    | some old =>
      simp only [replayed, commits_bind, commits_ensure, commits_pure]
      intro hdigest
      have hdoc := Repository.doc_of_get hold
      refine Always.ite (fun hn => absurd trivial hn) fun _ => ?_
      exact Always.pure (.inl ⟨rfl, by rw [hdoc, ← hdigest]⟩)
    | none =>
      simp only [commits_bind, Tx.commits_fetch, commits_ensure, Tx.commits_put,
        Tx.commits_nextSequence, commits_pure]
      intro row hrow hstale _ m hm _ _
      rw [Repository.doc_write_of_ne (by simp)] at hm
      refine Always.ite (fun _ => ?_) fun hn => absurd Bool.false_ne_true hn
      refine Always.bind (Gate.Runs.setCore (Always.pure (.inr ?_)))
      exact .mk hb hscoped.1 (Repository.doc_eq_none.mpr hold) (Repository.doc_of_get hrow)
        hstale.1 hstale.2 hm

/-- A new arm was committed, and the cell is armed without blocks. -/
inductive ArmStep (h : Machine) (caller : Caller) (attempt : Id) (body : GateBody) :
    GateReceipt → Machine → Prop
  | mk {state : CellState} {m : HostMeta}
      (bound : h.core.caller = some caller)
      (target : ∃ t, Targets h body.cell t)
      (unrecorded : h.store.doc (.armRequest attempt) = none)
      (found : h.store.doc (.cell body.cell) = some state)
      (epoch : state.epoch = body.epoch)
      (scopes : state.scopes = body.scopes)
      (blocks : body.blocks = state.blocked)
      (journals : h.store.doc .hostMeta = some m) :
      ArmStep h caller attempt body
        ⟨attempt, h.core.boot, m.deliveryJournal, m.deliverySeq + 1, body.cell,
          state.cleared body.blocks⟩
        { h with
          core := { h.core with armed := insert body.cell h.core.armed }
          store := (Store.numbered (h.store.write (.cell body.cell)
              (state.cleared body.blocks)) m).write
            (.armRequest attempt) (Ideal.armDigest body,
              ⟨attempt, h.core.boot, m.deliveryJournal, m.deliverySeq + 1, body.cell,
                state.cleared body.blocks⟩) }

/-- `arm` answers from the record of the attempt, or makes one step. -/
theorem arm_runs {h : Machine} {caller : Caller} {attempt : Id} {cell : Name} {epoch : Counter}
    {scopes : Counters} {clear : Finset Id} :
    Gate.Runs (arm caller attempt cell epoch scopes clear)
      (fun r h' => h' = h ∧ h.store.doc (.armRequest attempt) =
          some (Ideal.armDigest ⟨cell, epoch, scopes, clear⟩, r) ∨
        ArmStep h caller attempt ⟨cell, epoch, scopes, clear⟩ r h')
      (fun _ h' => h' = h) h := by
  refine Gate.Reads.authorized.bind (fun _ => rfl) fun _ hcaller => ?_
  refine Gate.Reads.requireAdmission.bind (fun _ => rfl) fun _ _ => ?_
  refine currentTarget_reads.bind (fun _ => rfl) fun t ht => ?_
  refine Gate.Reads.core.bind (fun _ => rfl) ?_
  rintro _ rfl
  refine Always.bind (Gate.Runs.transact ?_ fun _ => rfl)
  simp only [recordArm, commits_bind, Tx.commits_get]
  cases hold : h.store.get (.armRequest attempt) with
  | some old =>
    simp only [replayed, commits_bind, commits_ensure, commits_pure]
    intro hdigest
    have hdoc := Repository.doc_of_get hold
    refine Always.ite (fun hn => absurd trivial hn.1) fun _ => ?_
    exact Always.pure (.inl ⟨rfl, by rw [hdoc, ← hdigest]⟩)
  | none =>
    simp only [commits_bind, Tx.commits_fetch, commits_ensure, Tx.commits_put,
      Tx.commits_nextSequence, commits_pure]
    intro row hrow hmatch _ m hm _ _
    rw [Repository.doc_write_of_ne (by simp)] at hm
    have hclear : (row.document.cleared clear).blocked = ∅ := by
      rw [CellState.cleared, hmatch.2.2, Finset.sdiff_self]
    refine Always.ite (fun _ => ?_) fun hn => absurd ⟨Bool.false_ne_true, hclear⟩ hn
    refine Always.bind (Gate.Runs.setCore (Always.pure (.inr ?_)))
    exact .mk hcaller ⟨t, ht⟩ (Repository.doc_eq_none.mpr hold) (Repository.doc_of_get hrow)
      hmatch.1 hmatch.2.1 hmatch.2.2 hm

end RxSolutions.Host
