import RxSolutions.Host.Receipts

/-!
# Preparing and sending an operation

`prepare` records an operation under a permit, or moves a prepared one to a newer
permit. `authorize` commits that sending has begun, checks everything once more, and
only then enters the native adapter.
-/

namespace RxSolutions.Host

open Domain Durable Program

variable [Ideal]

/-- How long a preparation of an intent is valid, in nanoseconds. -/
def prepareDuration (intent : Intent) (overflow : String) : Except HostError Counter :=
  match checkedMul intent.prepareValidityMs 1000000 with
  | some ns => .ok ns
  | none => .error (.invalid overflow)

/-- The end of the validity of a preparation made at `now`. -/
def prepareExpiry (now : TimePoint) (ns : Counter) (overflow : String) :
    Except HostError TimePoint :=
  match checkedAdd now.ticksNs ns with
  | some ticks => .ok { clockId := now.clockId, ticksNs := ticks }
  | none => .error (.invalid overflow)

/-- The record of an operation that is prepared for the first time. -/
@[simps operation digest state intent evidenceIds]
def Request.delivery (r : Request) (boot invocation : Id) (until_ : TimePoint) (session : Id) :
    DeliveryRecord where
  operation := r.operation
  digest := r.digest
  invocation := some invocation
  state := .prepared
  journalSeq := 0
  preparedBoot := boot
  prepareUntil := until_
  cell := r.permit.cell
  intent := r.intent
  permit := r.permit.id
  deviceSession := session
  evidenceIds := []
  permitDigest := Ideal.permitDigest r.permit

/-- The record of a prepared operation that moves to another permit. -/
@[simps operation digest state intent evidenceIds]
def DeliveryRecord.rebound (r : DeliveryRecord) (permit : Permit) (boot : Id)
    (until_ : TimePoint) (session : Id) : DeliveryRecord :=
  { r with
    permit := permit.id
    permitDigest := Ideal.permitDigest permit
    preparedBoot := boot
    deviceSession := session
    prepareUntil := until_ }

/-- Move a prepared delivery to another permit; the old permit is retired. -/
def recordRebind (rebound : DeliveryRecord) (retired : Id) (revision : Counter) :
    Tx DeliveryRecord := do
  Tx.put (.retiredPermit retired) none retired
  recordDelivery rebound (some revision)

/-- `prepare` for an operation that has a delivery record. -/
def prepareAgain (caller : Caller) (request : Request) (record : DeliveryRecord)
    (revision : Counter) : Gate DeliveryRecord := do
  require (SameOperation record request) .conflict
  if record.state ≠ .prepared ∨ record.permit = request.permit.id then return record
  else
    let now ← clockNow
    let guard ← validateCurrent caller request now
    let c ← core
    let duration ← replied (prepareDuration request.intent "prepare duration")
    let until_ ← replied (prepareExpiry now duration "prepare expiry")
    transact (recordRebind
      (record.rebound request.permit c.boot until_ guard.deviceSession) record.permit revision)

/-- `prepare` for an operation that has no record yet. -/
def prepareNew (caller : Caller) (request : Request) : Gate DeliveryRecord := do
  let now ← clockNow
  let guard ← validateCurrent caller request now
  let duration ← replied (prepareDuration request.intent "prepare duration overflow")
  let c ← core
  let invocation ← drawId
  let until_ ← replied (prepareExpiry now duration "prepare expiry overflow")
  transact (recordDelivery (request.delivery c.boot invocation until_ guard.deviceSession) none)

/-- `prepare`. -/
def prepare (caller : Caller) (request : Request) : Gate DeliveryRecord := do
  authorized caller
  requireAdmission
  validateIdentity request
  match ← transact (Tx.get (.void request.operation)) with
  | some v =>
    require (v.document.digest = request.digest) .conflict
    refuse .voided
  | none =>
    match ← transact (Tx.get (.delivery request.operation)) with
    | some row => prepareAgain caller request row.document row.revision
    | none => prepareNew caller request

/-- The record of an operation whose sending has begun. -/
@[simps operation digest state intent evidenceIds invocation]
def DeliveryRecord.sent (r : DeliveryRecord) : DeliveryRecord := { r with state := .sendEntered }

/-- The commit before native entry: the permit is consumed and the record says that
sending has begun. -/
def recordSend (request : Request) (record : DeliveryRecord) (revision : Counter) :
    Tx DeliveryRecord := do
  ensure (← Tx.get (.consumedPermit request.permit.id)).isNone (.invalid "permit already consumed")
  Tx.put (.consumedPermit request.permit.id) none (request.permit.id, request.operation)
  recordDelivery record.sent (some revision)

/-- What the adapter is told about the session and the deadline. -/
def dispatchContext (guard : Guard) (permit : Permit) : NativeDispatch where
  deviceSession := guard.deviceSession
  expiresAt :=
    if guard.validUntil.ticksNs < permit.expiresAt.ticksNs then guard.validUntil
    else permit.expiresAt

/-- The entry into native submission that `authorize` makes. -/
def nativeEntry (request : Request) (invocation : Id) (record : DeliveryRecord) (now : TimePoint)
    (guard : Guard) (core : Core) (store : Store) : NativeEntry where
  operation := record.operation
  invocation := invocation
  intent := record.intent
  context := dispatchContext guard request.permit
  request := request
  checkedAt := now
  guard := guard
  core := core
  store := store

/-- `authorize` for a record that is prepared: commit, check again, submit. -/
def send (caller : Caller) (request : Request) (invocation : Id) (record : DeliveryRecord)
    (revision : Counter) : Gate DeliveryRecord := do
  let now ← clockNow
  let c ← core
  require (record.preparedBoot = c.boot ∧ before now record.prepareUntil) .stale
  let guard ← validateCurrent caller request now
  require (guard.deviceSession = record.deviceSession) .stale
  let record ← transact (recordSend request record revision)
  -- still under the same lock: no fence or handover can come between this check and the call
  let now ← clockNow
  let guard ← validateCurrent caller request now
  require (guard.deviceSession = record.deviceSession) .stale
  let capture ← submitWithContext (nativeEntry request invocation record now guard)
  persistCapture record capture

/-- `authorize`. -/
def authorize (caller : Caller) (request : Request) (invocation : Id) : Gate DeliveryRecord := do
  authorized caller
  requireAdmission
  validateIdentity request
  match ← transact (Tx.get (.delivery request.operation)) with
  | none => refuse .notFound
  | some row =>
    require (SameOperation row.document request) .conflict
    require (row.document.invocation = some invocation ∧ row.document.permit = request.permit.id)
      .conflict
    if row.document.state = .prepared then
      send caller request invocation row.document row.revision
    else return row.document

/-! ## What these calls can do -/

/-- An operation was prepared, for the first time or under another permit. -/
inductive PrepareStep (h : Machine) (caller : Caller) (request : Request) :
    DeliveryRecord → Machine → Prop
  | fresh {now until_ : TimePoint} {guard : Guard} {m : HostMeta}
      (identified : Identified h request)
      (current : Current h caller request now guard)
      (unvoided : h.store.doc (.void request.operation) = none)
      (absent : h.store.doc (.delivery request.operation) = none)
      (journals : h.store.doc .hostMeta = some m)
      (unused : h.store.doc (.deliveryHistory (m.deliverySeq + 1)) = none) :
      PrepareStep h caller request
        ((request.delivery h.core.boot (Ideal.freshId h.drawn) until_
          guard.deviceSession).numbered m)
        { h with
          drawn := h.drawn + 1
          store := h.store.delivered m
            (request.delivery h.core.boot (Ideal.freshId h.drawn) until_ guard.deviceSession) }
  | rebind {now until_ : TimePoint} {guard : Guard} {m : HostMeta} {record : DeliveryRecord}
      (identified : Identified h request)
      (current : Current h caller request now guard)
      (unvoided : h.store.doc (.void request.operation) = none)
      (found : h.store.doc (.delivery request.operation) = some record)
      (same : SameOperation record request)
      (unsent : record.state = .prepared)
      (other : record.permit ≠ request.permit.id)
      (unretired : h.store.doc (.retiredPermit record.permit) = none)
      (journals : h.store.doc .hostMeta = some m)
      (unused : h.store.doc (.deliveryHistory (m.deliverySeq + 1)) = none) :
      PrepareStep h caller request
        ((record.rebound request.permit h.core.boot until_ guard.deviceSession).numbered m)
        { h with
          store := Store.delivered
            (h.store.write (.retiredPermit record.permit) record.permit) m
            (record.rebound request.permit h.core.boot until_ guard.deviceSession) }

variable {h : Machine} {caller : Caller} {request : Request}

theorem prepareAgain_runs {record : DeliveryRecord}
    {revision : Counter} (hid : Identified h request)
    (hvoid : h.store.doc (.void request.operation) = none)
    (hfound : h.store.doc (.delivery request.operation) = some record) :
    Gate.Runs (prepareAgain caller request record revision)
      (fun r h' => h' = h ∧ r = record ∨ PrepareStep h caller request r h')
      (fun _ h' => h' = h) h := by
  refine Gate.Reads.require.bind (fun _ => rfl) fun _ hsame => ?_
  refine Always.ite (fun _ => Always.pure (.inl ⟨rfl, rfl⟩)) fun hunsent => ?_
  obtain ⟨hstate, hother⟩ := not_or.mp hunsent
  refine Gate.Reads.clockNow.bind (fun _ => rfl) fun now _ => ?_
  refine validateCurrent_reads.bind (fun _ => rfl) fun guard hcurrent => ?_
  refine Gate.Reads.core.bind (fun _ => rfl) ?_
  rintro _ rfl
  refine Gate.Reads.replied.bind (fun _ => rfl) fun duration _ => ?_
  refine Gate.Reads.replied.bind (fun _ => rfl) fun until_ _ => ?_
  refine Gate.Runs.transact ?_ fun _ => rfl
  simp only [recordRebind, commits_bind, Tx.commits_put, Tx.commits_recordDelivery]
  intro hunretired m hm _ _ hunused
  rw [Repository.doc_write_of_ne (by simp)] at hm hunused
  exact .inr (.rebind hid hcurrent hvoid hfound hsame (not_not.mp hstate) hother
    (by simpa using hunretired) hm hunused)

theorem prepareNew_runs (hid : Identified h request)
    (hvoid : h.store.doc (.void request.operation) = none)
    (habsent : h.store.doc (.delivery request.operation) = none) :
    Gate.Runs (prepareNew caller request) (PrepareStep h caller request)
      (fun _ h' => h' = h ∨ h' = { h with drawn := h.drawn + 1 }) h := by
  refine Gate.Reads.clockNow.bind (fun _ => .inl rfl) fun now _ => ?_
  refine validateCurrent_reads.bind (fun _ => .inl rfl) fun guard hcurrent => ?_
  refine Gate.Reads.replied.bind (fun _ => .inl rfl) fun duration _ => ?_
  refine Gate.Reads.core.bind (fun _ => .inl rfl) ?_
  rintro _ rfl
  refine Always.bind (Gate.Runs.drawId ?_)
  refine Gate.Reads.replied.bind (fun _ => .inr rfl) fun until_ _ => ?_
  refine Gate.Runs.transact ?_ fun _ => .inr rfl
  rw [Tx.commits_recordDelivery]
  intro m hm _ _ hunused
  exact .fresh hid hcurrent hvoid habsent hm hunused

/-- `prepare` answers from the record or makes one step, and never for a voided operation. -/
theorem prepare_runs :
    Gate.Runs (prepare caller request)
      (fun r h' => h.store.doc (.void request.operation) = none ∧
        (h' = h ∧ h.store.doc (.delivery request.operation) = some r ∨
          PrepareStep h caller request r h'))
      (fun _ h' => h' = h ∨ h' = { h with drawn := h.drawn + 1 }) h := by
  refine Gate.Reads.authorized.bind (fun _ => .inl rfl) fun _ _ => ?_
  refine Gate.Reads.requireAdmission.bind (fun _ => .inl rfl) fun _ _ => ?_
  refine validateIdentity_reads.bind (fun _ => .inl rfl) fun _ hid => ?_
  refine (Gate.Reads.row _).bind (fun _ => .inl rfl) ?_
  rintro _ rfl
  cases hvoid : h.store.get (.void request.operation) with
  | some v =>
    exact Gate.Reads.require.bind (fun _ => .inl rfl) fun _ _ => Gate.Runs.refuse (.inl rfl)
  | none =>
    have hunvoided := Repository.doc_eq_none.mpr hvoid
    refine (Gate.Reads.row _).bind (fun _ => .inl rfl) ?_
    rintro _ rfl
    cases hrow : h.store.get (.delivery request.operation) with
    | some row =>
      have hfound := Repository.doc_of_get hrow
      refine Always.mono (prepareAgain_runs hid hunvoided hfound) ?_ fun _ _ => .inl
      rintro r h' (⟨rfl, rfl⟩ | hstep)
      · exact ⟨hunvoided, .inl ⟨rfl, hfound⟩⟩
      · exact ⟨hunvoided, .inr hstep⟩
    | none =>
      exact Always.mono
        (prepareNew_runs hid hunvoided (Repository.doc_eq_none.mpr hrow))
        (fun r h' hstep => ⟨hunvoided, .inr hstep⟩) fun _ _ h => h

/-- Everything `authorize` has checked when it commits that sending has begun. -/
structure Sendable (h : Machine) (caller : Caller) (request : Request) (invocation : Id)
    (record : DeliveryRecord) (m : HostMeta) : Prop where
  identified : Identified h request
  current : ∃ now guard, Current h caller request now guard ∧
    guard.deviceSession = record.deviceSession ∧ before now record.prepareUntil
  found : h.store.doc (.delivery request.operation) = some record
  operation : record.operation = request.operation
  same : SameOperation record request
  invoked : record.invocation = some invocation
  permit : record.permit = request.permit.id
  unsent : record.state = .prepared
  boot : record.preparedBoot = h.core.boot
  unconsumed : h.store.doc (.consumedPermit request.permit.id) = none
  journals : h.store.doc .hostMeta = some m
  unused : h.store.doc (.deliveryHistory (m.deliverySeq + 1)) = none

/-- The machine after the commit that sending has begun. -/
def Machine.sent (h : Machine) (request : Request) (record : DeliveryRecord) (m : HostMeta) :
    Machine :=
  { h with
    store := Store.delivered
      (h.store.write (.consumedPermit request.permit.id) (request.permit.id, request.operation)) m
      record.sent }

/-- The commit that sending has begun. -/
inductive SendStep (h : Machine) (caller : Caller) (request : Request) (invocation : Id) :
    Machine → Prop
  | mk {record : DeliveryRecord} {m : HostMeta}
      (ready : Sendable h caller request invocation record m) :
      SendStep h caller request invocation (h.sent request record m)

/-- The commit that sending has begun, and the entry into native submission after a second
check. `sent` is the record that was committed. -/
inductive EnterStep (h : Machine) (caller : Caller) (request : Request) (invocation : Id) :
    DeliveryRecord → Machine → Prop
  | mk {record : DeliveryRecord} {m : HostMeta} {now : TimePoint} {guard : Guard}
      (ready : Sendable h caller request invocation record m)
      (current : Current (h.sent request record m) caller request now guard)
      (session : guard.deviceSession = record.deviceSession) :
      EnterStep h caller request invocation (record.sent.numbered m)
        ((h.sent request record m).enter
          (nativeEntry request invocation (record.sent.numbered m) now guard))

/-- What `authorize` can have done when it ends without a result. -/
inductive AuthorizeFailure (h : Machine) (caller : Caller) (request : Request) (invocation : Id) :
    Machine → Prop
  | unchanged : AuthorizeFailure h caller request invocation h
  | committed {h' : Machine} (sent : SendStep h caller request invocation h') :
      AuthorizeFailure h caller request invocation h'
  | entered {h' : Machine} {record : DeliveryRecord}
      (entered : EnterStep h caller request invocation record h') :
      AuthorizeFailure h caller request invocation h'
  | drawn {h' : Machine} {record : DeliveryRecord}
      (entered : EnterStep h caller request invocation record h') :
      AuthorizeFailure h caller request invocation { h' with drawn := h'.drawn + 1 }

theorem send_runs {invocation : Id}
    {record : DeliveryRecord} {revision : Counter} (hreg : h.Regular) (hid : Identified h request)
    (hfound : h.store.doc (.delivery request.operation) = some record)
    (hsame : SameOperation record request) (hinvoked : record.invocation = some invocation)
    (hpermit : record.permit = request.permit.id) (hunsent : record.state = .prepared) :
    Gate.Runs (send caller request invocation record revision)
      (fun r h' => ∃ sent h₁, EnterStep h caller request invocation sent h₁ ∧
        CaptureStep h₁ sent r h')
      (fun _ => AuthorizeFailure h caller request invocation) h := by
  refine Gate.Reads.clockNow.bind (fun _ => .unchanged) fun now _ => ?_
  refine Gate.Reads.core.bind (fun _ => .unchanged) ?_
  rintro _ rfl
  refine Gate.Reads.require.bind (fun _ => .unchanged) fun _ hprepared => ?_
  refine validateCurrent_reads.bind (fun _ => .unchanged) fun guard hcurrent => ?_
  refine Gate.Reads.require.bind (fun _ => .unchanged) fun _ hsession => ?_
  refine Always.bind (Gate.Runs.transact ?_ fun _ => .unchanged)
  simp only [recordSend, commits_bind, Tx.commits_get, commits_ensure, Tx.commits_put,
    Tx.commits_recordDelivery]
  intro hunconsumed _ m hm _ _ hunused
  rw [Repository.doc_write_of_ne (by simp)] at hm hunused
  have hoperation : record.operation = request.operation := hreg.filed _ _ hfound
  have hready : Sendable h caller request invocation record m := {
    identified := hid
    current := ⟨now, guard, hcurrent, hsession, hprepared.2⟩
    found := hfound
    operation := hoperation
    same := hsame
    invoked := hinvoked
    permit := hpermit
    unsent := hunsent
    boot := hprepared.1
    unconsumed := by simpa using hunconsumed
    journals := hm
    unused := hunused }
  change Gate.Runs _ _ _ (h.sent request record m)
  refine Gate.Reads.clockNow.bind (fun _ => .committed ⟨hready⟩) fun now' _ => ?_
  refine validateCurrent_reads.bind (fun _ => .committed ⟨hready⟩) fun guard' hcurrent' => ?_
  refine Gate.Reads.require.bind (fun _ => .committed ⟨hready⟩) fun _ hsession' => ?_
  have henter := EnterStep.mk hready hcurrent' hsession'
  refine Always.bind (Gate.Runs.submitWithContext (fun capture => ?_)
    (fun _ => .entered henter) (.committed ⟨hready⟩))
  refine Always.mono (persistCapture_runs ?_ ?_ (.inl rfl))
    (fun r h' hcapture => ⟨_, _, henter, hcapture⟩) ?_
  · exact ⟨(hreg.filed.write_of_ne (by simp) _).delivered, hreg.generated⟩
  · exact Store.doc_delivered_delivery
  · rintro _ _ (rfl | rfl)
    · exact .entered henter
    · exact .drawn henter

/-- `authorize` answers from the record, or sends and records what was captured. -/
theorem authorize_runs {invocation : Id} (hreg : h.Regular) :
    Gate.Runs (authorize caller request invocation)
      (fun r h' => h' = h ∧ h.store.doc (.delivery request.operation) = some r ∨
        ∃ sent h₁, EnterStep h caller request invocation sent h₁ ∧ CaptureStep h₁ sent r h')
      (fun _ => AuthorizeFailure h caller request invocation) h := by
  refine Gate.Reads.authorized.bind (fun _ => .unchanged) fun _ _ => ?_
  refine Gate.Reads.requireAdmission.bind (fun _ => .unchanged) fun _ _ => ?_
  refine validateIdentity_reads.bind (fun _ => .unchanged) fun _ hid => ?_
  refine (Gate.Reads.row _).bind (fun _ => .unchanged) ?_
  rintro _ rfl
  cases hrow : h.store.get (.delivery request.operation) with
  | none => exact Gate.Runs.refuse .unchanged
  | some row =>
    have hfound := Repository.doc_of_get hrow
    refine Gate.Reads.require.bind (fun _ => .unchanged) fun _ hsame => ?_
    refine Gate.Reads.require.bind (fun _ => .unchanged) fun _ hrecord => ?_
    refine Always.ite (fun hunsent => ?_)
      fun _ => Always.pure (.inl ⟨rfl, hfound⟩)
    exact Always.mono
      (send_runs hreg hid hfound hsame hrecord.1 hrecord.2 hunsent)
      (fun _ _ => .inr) fun _ _ h => h

end RxSolutions.Host
