import RxSolutions.Host.Validation

/-!
# Receipts of operations

Reading the delivery record of an operation, cancelling an operation before it is
sent, and asking the native adapter what became of one that was.
-/

namespace RxSolutions.Host

open Domain Durable Program

/-- `receipt`. -/
def receipt (caller : Caller) (operation : Id) : Gate DeliveryRecord := do
  authorized caller
  match ← transact (Tx.get (.delivery operation)) with
  | none => refuse .notFound
  | some row => return row.document

/-- The record of an operation that was voided. -/
@[simps operation digest state intent evidenceIds]
def DeliveryRecord.voided (r : DeliveryRecord) : DeliveryRecord :=
  { r with state := .voidedBeforeSend }

/-- Void the delivery of an operation that was prepared and not sent; `false` if it was
sent or is settled otherwise. -/
def voidDelivery (operation : Id) (digest : Digest) : Tx Bool := do
  match ← Tx.get (.delivery operation) with
  | none => return true
  | some row =>
    ensure (row.document.digest = digest) .keyConflict
    if row.document.state = .prepared then
      let _ ← recordDelivery (row.document.voided) (some row.revision)
      return true
    else return false

/-- The transaction of `void_before_send`. -/
def recordVoid (operation : Id) (digest : Digest) : Tx (Option VoidRecord) := do
  match ← Tx.get (.void operation) with
  | some old =>
    ensure (old.document.digest = digest) .keyConflict
    return some old.document
  | none =>
    if ← voidDelivery operation digest then
      let (sequence, _) ← nextSequence
      let v : VoidRecord := { operation := operation, digest := digest, sequence := sequence }
      Tx.put (.void operation) none v
      return some v
    else return none

/-- `void_before_send`. -/
def voidBeforeSend (caller : Caller) (operation : Id) (digest : Digest) : Gate VoidRecord := do
  authorized caller
  match ← transact (recordVoid operation digest) with
  | some v => return v
  | none => refuse .busy

/-- How far a receipt says that a delivery has come. -/
inductive ReceiptStage
  | notDispatched | hostPrepared | sendEntered | nativeAccepted
  deriving DecidableEq, Repr

/-- The receipt reported for an operation. -/
structure ReceiptView where
  operation : Id
  intentDigest : Digest
  stage : ReceiptStage
  invocation : Option Id
  journal : Id
  journalSeq : Counter
  hostState : ReceiptState
  deriving DecidableEq

/-- The stage a delivery state is reported as. Recording a result is the platform's part,
so a captured result still counts as sent. -/
def ReceiptState.stage : ReceiptState → ReceiptStage
  | .prepared => .hostPrepared
  | .sendEntered | .nativeRejected | .resultCaptured => .sendEntered
  | .nativeAccepted => .nativeAccepted
  | .voidedBeforeSend => .notDispatched

/-- The transaction of `receipt_view`. -/
def viewReceipt (operation : Id) : Tx ReceiptView := do
  let journals := (← Tx.fetch .hostMeta (.integrity "Host meta missing")).document
  match ← Tx.get (.void operation) with
  | some v =>
    return {
      operation := operation
      intentDigest := v.document.digest
      stage := .notDispatched
      invocation := none
      journal := journals.deliveryJournal
      journalSeq := v.document.sequence
      hostState := .voidedBeforeSend }
  | none =>
    let r := (← Tx.fetch (.delivery operation) (.invalid "receipt absent")).document
    return {
      operation := operation
      intentDigest := r.digest
      stage := r.state.stage
      invocation := r.invocation
      journal := journals.deliveryJournal
      journalSeq := r.journalSeq
      hostState := r.state }

/-- `receipt_view`. -/
def receiptView (caller : Caller) (operation : Id) : Gate ReceiptView := do
  authorized caller
  transact (viewReceipt operation)

/-- `evidence_after`. -/
def evidenceAfter (caller : Caller) (after : Counter) (limit : ℕ) :
    Gate (List (Counter × EvidenceRecord)) := do
  authorized caller
  return (← eventsAfter after limit).map fun e => (e.1, e.2.2)

/-! ## Recording a native result -/

/-- The record of an operation whose result was captured. -/
@[simps operation digest state intent evidenceIds]
def DeliveryRecord.captured (r : DeliveryRecord) (evidence : Id) : DeliveryRecord :=
  { r with state := .resultCaptured, evidenceIds := r.evidenceIds ++ [evidence] }

/-- The evidence of a captured result. -/
def DeliveryRecord.evidence (r : DeliveryRecord) (id invocation : Id) (capture : NativeCapture) :
    EvidenceRecord where
  evidenceId := id
  operation := r.operation
  invocation := invocation
  profileDigest := r.intent.profileDigest
  capture := capture

/-- The transaction of `persist_capture`. -/
def recordCapture (record : DeliveryRecord) (evidence : EvidenceRecord) : Tx DeliveryRecord := do
  let row ← Tx.fetch (.delivery record.operation) (.invalid "receipt absent")
  let _ ← Tx.append evidence
  recordDelivery (record.captured evidence.evidenceId) (some row.revision)

/-- `persist_capture`. -/
def persistCapture [Ideal] (record : DeliveryRecord) (capture : NativeCapture) :
    Gate DeliveryRecord := do
  require (capture.deviceSession = record.deviceSession)
    (.nativeUnknown "device generation changed")
  let evidenceId ← drawId
  match record.invocation with
  | none => refuse .conflict
  | some invocation =>
    transact (recordCapture record (record.evidence evidenceId invocation capture))

/-- `reconcile`. -/
def reconcile [Ideal] (caller : Caller) (operation : Id) : Gate DeliveryRecord := do
  authorized caller
  match ← transact (Tx.get (.delivery operation)) with
  | none => refuse .notFound
  | some row =>
    let record := row.document
    match record.invocation with
    | none => return record
    | some invocation =>
      if record.state.InFlight then
        match ← nativeLookup record.operation invocation with
        | none => return record
        | some capture => persistCapture record capture
      else return record

/-! ## What these calls can do -/

section Steps

variable [Ideal]

/-- Deliveries are filed under their operation, and the identifiers of all events were
generated. -/
structure Disk.Regular (d : Disk) : Prop where
  filed : Store.Filed d.store
  generated : ∀ e ∈ d.store.events, ∃ n < d.drawn, e.1 = Ideal.freshId n

/-- No event has the id that is drawn next. -/
theorem Disk.Regular.fresh {d : Disk} (h : d.Regular) :
    ∀ e ∈ d.store.events, e.1 ≠ Ideal.freshId d.drawn := by
  intro e he heq
  obtain ⟨n, hn, hid⟩ := h.generated e he
  exact hn.ne (Ideal.freshId.injective (hid.symm.trans heq))

/-- A native result of an operation under way was recorded: the event and the record
together. -/
inductive CaptureStep (h : Machine) (record : DeliveryRecord) : DeliveryRecord → Machine → Prop
  | mk {invocation : Id} {capture : NativeCapture} {m : HostMeta}
      (found : h.store.doc (.delivery record.operation) = some record)
      (flying : record.state.InFlight)
      (journals : h.store.doc .hostMeta = some m)
      (unused : h.store.doc (.deliveryHistory (m.deliverySeq + 1)) = none)
      (invoked : record.invocation = some invocation)
      (session : capture.deviceSession = record.deviceSession) :
      CaptureStep h record ((record.captured (Ideal.freshId h.drawn)).numbered m) { h with
        drawn := h.drawn + 1
        store := Store.delivered
          (h.store.push (Ideal.freshId h.drawn)
            (record.evidence (Ideal.freshId h.drawn) invocation capture))
          m (record.captured (Ideal.freshId h.drawn)) }

variable {h : Machine}

theorem persistCapture_runs {record : DeliveryRecord} {capture : NativeCapture} (hreg : h.Regular)
    (hfound : h.store.doc (.delivery record.operation) = some record)
    (hflying : record.state.InFlight) :
    Gate.Runs (persistCapture record capture) (CaptureStep h record)
      (fun _ h' => h' = h ∨ h' = { h with drawn := h.drawn + 1 }) h := by
  refine Gate.Reads.require.bind (fun _ => .inl rfl) fun _ hsession => ?_
  refine Always.bind (Gate.Runs.drawId ?_)
  cases hinvocation : record.invocation with
  | none => exact Gate.Runs.refuse (.inr rfl)
  | some invocation =>
    refine Gate.Runs.transact ?_ fun _ => .inr rfl
    simp only [recordCapture, commits_bind, Tx.commits_fetch, Tx.append]
    intro row hrow
    refine (Repository.commits_append_of_new hreg.fresh).mpr ?_
    rw [Tx.commits_recordDelivery]
    intro m hm _ _ hunused
    exact .mk hfound hflying hm hunused hinvocation hsession

theorem reconcile_runs {caller : Caller} {operation : Id} (hreg : h.Regular) :
    Gate.Runs (reconcile caller operation)
      (fun r h' => ∃ record, h.store.doc (.delivery operation) = some record ∧
        (h' = h ∧ r = record ∨ CaptureStep h record r h'))
      (fun _ h' => h' = h ∨ h' = { h with drawn := h.drawn + 1 }) h := by
  refine Gate.Reads.authorized.bind (fun _ => .inl rfl) fun _ _ => ?_
  refine (Gate.Reads.row _).bind (fun _ => .inl rfl) ?_
  rintro _ rfl
  cases hrow : h.store.get (.delivery operation) with
  | none => exact Gate.Runs.refuse (.inl rfl)
  | some row =>
    obtain ⟨revision, record⟩ := row
    have hdoc : h.store.doc (.delivery operation) = some record := Repository.doc_of_get hrow
    dsimp only
    cases DeliveryRecord.invocation record with
    | none => exact Always.pure ⟨record, hdoc, .inl ⟨rfl, rfl⟩⟩
    | some invocation =>
      refine Always.ite (fun hflying => ?_)
        fun _ => Always.pure ⟨record, hdoc, .inl ⟨rfl, rfl⟩⟩
      refine Gate.Reads.nativeLookup.bind (fun _ => .inl rfl) fun found _ => ?_
      cases found with
      | none => exact Always.pure ⟨record, hdoc, .inl ⟨rfl, rfl⟩⟩
      | some capture =>
        have hfound : h.store.doc (.delivery record.operation) = some record := by
          rw [hreg.filed _ _ hdoc]
          exact hdoc
        exact Always.mono (persistCapture_runs hreg hfound hflying)
          (fun r h' hstep => ⟨record, hdoc, .inr hstep⟩) fun _ _ h => h

/-- An operation was voided before it was sent. -/
inductive VoidStep (h : Machine) (operation : Id) (digest : Digest) : VoidRecord → Machine → Prop
  /-- It had no delivery record. -/
  | unknown {m : HostMeta}
      (unvoided : h.store.doc (.void operation) = none)
      (absent : h.store.doc (.delivery operation) = none)
      (journals : h.store.doc .hostMeta = some m) :
      VoidStep h operation digest ⟨operation, digest, m.deliverySeq + 1⟩ { h with
        store := (h.store.numbered m).write (.void operation)
          ⟨operation, digest, m.deliverySeq + 1⟩ }
  /-- It was prepared. -/
  | prepared {m : HostMeta} {record : DeliveryRecord}
      (unvoided : h.store.doc (.void operation) = none)
      (found : h.store.doc (.delivery operation) = some record)
      (same : record.digest = digest)
      (unsent : record.state = .prepared)
      (journals : h.store.doc .hostMeta = some m)
      (unused : h.store.doc (.deliveryHistory (m.deliverySeq + 1)) = none) :
      VoidStep h operation digest ⟨operation, digest, m.next.deliverySeq + 1⟩ { h with
        store := ((h.store.delivered m record.voided).numbered m.next).write (.void operation)
          ⟨operation, digest, m.next.deliverySeq + 1⟩ }

omit [Ideal] in
theorem voidBeforeSend_runs {caller : Caller} {operation : Id} {digest : Digest} :
    Gate.Runs (voidBeforeSend caller operation digest)
      (fun v h' => h' = h ∧ h.store.doc (.void operation) = some v ∧ v.digest = digest ∨
        VoidStep h operation digest v h')
      (fun _ h' => h' = h) h := by
  refine Gate.Reads.authorized.bind (fun _ => rfl) fun _ _ => ?_
  refine Always.bind (Gate.Runs.transact ?_ fun _ => rfl)
  simp only [recordVoid, commits_bind, Tx.commits_get]
  cases hvoid : h.store.get (.void operation) with
  | some old =>
    simp only [commits_bind, commits_ensure, commits_pure]
    intro hdigest
    exact Always.pure (.inl ⟨rfl, Repository.doc_of_get hvoid, hdigest⟩)
  | none =>
    have hunvoided := Repository.doc_eq_none.mpr hvoid
    simp only [voidDelivery, commits_bind, Tx.commits_get]
    cases hrow : h.store.get (.delivery operation) with
    | none =>
      simp only [commits_pure, if_true, commits_bind, Tx.commits_nextSequence, Tx.commits_put]
      intro m hm _ _
      exact Always.pure (.inr (.unknown hunvoided (Repository.doc_eq_none.mpr hrow) hm))
    | some row =>
      simp only [commits_bind, commits_ensure]
      intro hsame
      by_cases hunsent : row.document.state = .prepared
      · simp only [hunsent, if_true, commits_bind, commits_pure, Tx.commits_recordDelivery,
          Tx.commits_nextSequence, Tx.commits_put]
        intro m hm _ _ hunused m' hm' _ _
        obtain rfl : m.next = m' := Option.some.inj (Store.doc_delivered_hostMeta.symm.trans hm')
        exact Always.pure (.inr (.prepared hunvoided (Repository.doc_of_get hrow) hsame
          hunsent hm hunused))
      · simp only [hunsent, if_false, commits_pure, Bool.false_eq_true]
        exact Gate.Runs.refuse rfl

end Steps

end RxSolutions.Host
