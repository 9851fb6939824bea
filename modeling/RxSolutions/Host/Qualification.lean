import RxSolutions.Host.Configuration

/-!
# Accepting a qualification

A qualification is accepted for all bound cells together, and holds for a cell only
as long as every cell of that cohort still shows the fence, the process context and
the acceptance that were accepted with it, in the same boot.
-/

namespace RxSolutions.Host

open Domain Durable Program
open Repository (doc_congr doc_eq_none doc_of_get doc_write_of_ne doc_write_self get_write_of_ne)

variable [Ideal]

variable {request : HostQualification.Request} {target : HostQualification.CellTarget}

/-- `project`. -/
def Accepted.project (a : Accepted) : HostQualification.AcceptedCell where
  cell := a.target.cell
  request := a.request
  qualification := a.target.qualification
  qualificationRevision := a.target.qualificationRevision
  acceptanceSequence := a.sequence
  hostBoot := a.hostBoot
  epoch := a.target.epoch
  scopes := a.target.scopes
  configuration := a.target.configuration
  contextRequest := a.target.contextRequest
  contextSequence := a.target.contextSequence
  bindingDigest := a.bindingDigest

/-- What the host reports of the qualification of one cell. -/
def observeAccepted (cell : Name) : Tx (Option HostQualification.AcceptedCell) := do
  match ← Tx.get (.acceptedQualification cell) with
  | none => return none
  | some row =>
    ensure (row.document.target.cell = cell) (.integrity "qualification cell differs")
    return some row.document.project

/-- `qualification::observation`. -/
def qualificationObservation (receipt : Option HostQualification.Receipt) :
    Gate HostQualification.Observation := do
  let snapshot := (← configurationObservation none).snapshot
  let accepted ← transact (snapshot.cells.mapM fun c => observeAccepted c.cell)
  let value : HostQualification.Observation := {
    schema := "rx.host-qualification-observation.v1"
    snapshot := snapshot
    receipt := receipt
    accepted := accepted.reduceOption
    receiptMatchesCurrentHost := false
    activationAuthorized := false }
  let value := { value with receiptMatchesCurrentHost := value.current }
  checked (value.validate Ideal.configurationDigest Ideal.qualificationDigest)
  return value

/-! ## The qualification a cell holds -/

/-- One cell of the cohort still shows what was accepted with `a`. -/
def checkCohortCell (boot : Id) (a : Accepted) (target : HostQualification.CellTarget) :
    Tx Unit := do
  let state :=
    (← Tx.fetch (.cell target.cell) (.invalid "qualification cohort missing")).document
  let accepted := (← Tx.fetch (.acceptedQualification target.cell)
    (.invalid "qualification cohort acceptance missing")).document
  let context := (← Tx.fetch (.processContext target.cell)
    (.invalid "qualification cohort context missing")).document
  ensure (state.epoch = target.epoch ∧ state.scopes = target.scopes ∧
      accepted.request = a.request ∧ accepted.sequence = a.sequence ∧ accepted.hostBoot = boot ∧
      accepted.target = target ∧ context.configuration = target.configuration ∧
      context.request = target.contextRequest ∧
      context.receiptSequence = target.contextSequence)
    (.invalid "qualification cohort changed")

/-- The acceptance `a` agrees with the context, the fence and the boot of its cell. -/
def checkAcceptedCell (boot : Id) (binding : Digest) (cell : Name) (a : Accepted)
    (context : HostConfiguration.AppliedContext) : Tx HostMeta := do
  let state := (← Tx.fetch (.cell cell) (.invalid "cell missing")).document
  let journals := (← Tx.fetch .hostMeta (.integrity "meta missing")).document
  ensure (a.target.cell = cell ∧ a.hostBoot = boot ∧ a.journal = journals.deliveryJournal ∧
      a.bindingDigest = binding ∧ context.bindingDigest = binding ∧ context.cell = cell ∧
      context.configuration = a.target.configuration ∧ context.request = a.target.contextRequest ∧
      context.receiptSequence = a.target.contextSequence ∧ state.epoch = a.target.epoch ∧
      state.scopes = a.target.scopes)
    (.invalid "qualification context changed")
  return journals

/-- The transaction of `current_target`. -/
def currentAcceptance (platform : Name) (boot : Id) (binding : Digest) (physical : Bool)
    (cell : Name) : Tx (Option HostQualification.CellTarget) := do
  requireConfigured cell
  let context ← Tx.get (.processContext cell)
  let accepted ← Tx.get (.acceptedQualification cell)
  match context with
  | none =>
    ensure accepted.isNone (.integrity "qualification without process context")
    ensure (physical = false)
      (.invalid "physical binding requires current process qualification acceptance")
    return none
  | some context =>
    let a := (← orThrow accepted (.invalid "process context is unqualified")).document
    let journals ← checkAcceptedCell boot binding cell a context.document
    let receipt := (← Tx.fetch (.qualificationRequest platform a.request)
      (.integrity "qualification receipt missing")).document
    Tx.checked (receipt.validate Ideal.qualificationDigest) .integrity
    ensure (receipt.sequence = a.sequence ∧ receipt.hostBoot = boot ∧
        receipt.journal = journals.deliveryJournal)
      (.integrity "qualification receipt identity differs")
    forM receipt.request.cells (checkCohortCell boot a)
    return some a.target

/-- How `current_target` reports a failed transaction. -/
def qualificationError : StoreError → HostError
  | .invalid _ => .guard
  | e => .store e

/-- `current_target`: the qualification a cell holds now, if its process context asks for
one. A process context never falls back to the startup qualification. -/
def currentTarget (cell : Name) : Gate (Option HostQualification.CellTarget) := do
  let c ← core
  let binding ← replied (bindingDigest c.bindings)
  match c.binding cell with
  | none => refuse .forbidden
  | some b =>
    transactWith qualificationError
      (currentAcceptance c.platform c.boot binding (decide (b.environment = .physical)) cell)

/-- `qualification::device_session`. -/
def qualifiedSession (cell : Name) : Gate (Option Id) :=
  transact do
    return (← Tx.get (.acceptedQualification cell)).map fun row => row.document.deviceSession

/-! ## What a current target says -/

/-- One cell of the cohort shows what was accepted with `a`. -/
structure CohortCell (s : Store) (boot : Id) (a : Accepted)
    (target : HostQualification.CellTarget) : Prop where
  fence : ∃ c, s.doc (.cell target.cell) = some c ∧ c.epoch = target.epoch ∧
    c.scopes = target.scopes
  accepted : ∃ b, s.doc (.acceptedQualification target.cell) = some b ∧ b.request = a.request ∧
    b.sequence = a.sequence ∧ b.hostBoot = boot ∧ b.target = target
  context : ∃ x, s.doc (.processContext target.cell) = some x ∧
    x.configuration = target.configuration ∧ x.request = target.contextRequest ∧
    x.receiptSequence = target.contextSequence

omit [Ideal] in
theorem checkCohortCell_commits {s : Store} {boot : Id} {a : Accepted} :
    (checkCohortCell boot a target).Commits
    (fun _ s' => s' = s ∧ CohortCell s boot a target) s := by
  simp only [checkCohortCell, commits_bind, Tx.commits_fetch, commits_ensure]
  intro state hstate accepted haccepted context hcontext
  rintro ⟨hepoch, hscopes, hrequest, hsequence, hboot, htarget, hconf, hreq, hseq⟩
  exact ⟨trivial,
    ⟨_, doc_of_get hstate, hepoch, hscopes⟩,
    ⟨_, doc_of_get haccepted, hrequest, hsequence, hboot, htarget⟩,
    ⟨_, doc_of_get hcontext, hconf, hreq, hseq⟩⟩

/-- The cell holds the acceptance `a`, recorded by the receipt `r`, together with every
other cell of the cohort. -/
structure Holds (h : Machine) (cell : Name) (a : Accepted) (r : HostQualification.Receipt) :
    Prop where
  accepted : h.store.doc (.acceptedQualification cell) = some a
  target : a.target.cell = cell
  boot : a.hostBoot = h.core.boot
  binding : bindingDigest h.core.bindings = .ok a.bindingDigest
  fence : ∃ c, h.store.doc (.cell cell) = some c ∧ c.epoch = a.target.epoch ∧
    c.scopes = a.target.scopes
  context : ∃ x, h.store.doc (.processContext cell) = some x ∧
    x.configuration = a.target.configuration ∧ x.request = a.target.contextRequest ∧
    x.receiptSequence = a.target.contextSequence ∧ x.bindingDigest = a.bindingDigest
  receipt : h.store.doc (.qualificationRequest h.core.platform a.request) = some r
  valid : r.validate Ideal.qualificationDigest = .ok ()
  sequence : r.sequence = a.sequence
  receiptBoot : r.hostBoot = h.core.boot
  cohort : ∀ t ∈ r.request.cells, CohortCell h.store h.core.boot a t

/-- What `current_target` says of a machine when it returns: a cell without a target has no process
context, and its binding is not physical. -/
def Targets (h : Machine) (cell : Name) : Option HostQualification.CellTarget → Prop
  | none => h.store.doc (.processContext cell) = none ∧
      h.store.doc (.acceptedQualification cell) = none ∧
      ∃ b, h.core.binding cell = some b ∧ b.environment ≠ .physical
  | some t => ∃ a r, Holds h cell a r ∧ a.target = t

variable {cell : Name}

theorem currentAcceptance_commits {h : Machine} {binding : Digest} {physical : Bool}
    (hb : bindingDigest h.core.bindings = .ok binding)
    (hphysical : physical = false → ∃ b, h.core.binding cell = some b ∧ b.environment ≠ .physical) :
    (currentAcceptance h.core.platform h.core.boot binding physical cell).Commits
      (fun t s => s = h.store ∧ Targets h cell t) h.store := by
  rw [currentAcceptance, commits_bind]
  refine requireConfigured_commits.mono ?_
  rintro _ _ rfl
  simp only [commits_bind, Tx.commits_get]
  cases hcontext : h.store.get (.processContext cell) with
  | none =>
    simp only [commits_bind, commits_ensure, commits_pure]
    intro haccepted hsimulated
    exact ⟨trivial, by simpa using hcontext, by simpa using haccepted, hphysical hsimulated⟩
  | some context =>
    simp only [commits_bind, commits_orThrow, checkAcceptedCell, Tx.commits_fetch,
      commits_ensure, commits_pure, Tx.commits_checked]
    intro row haccepted state hstate journals _ hmatch receipt hreceipt _ hvalid hidentity
    obtain ⟨hcell, hboot, -, hbinding, hcontextBinding, -, hconf, hreq, hseq, hepoch, hscopes⟩ :=
      hmatch
    refine (commits_forM_check fun t _ => checkCohortCell_commits).mono ?_
    rintro _ _ ⟨rfl, hcohort⟩
    exact ⟨rfl, row.document, receipt.document, {
      accepted := doc_of_get haccepted
      target := hcell
      boot := hboot
      binding := hb.trans (congrArg Except.ok hbinding.symm)
      fence := ⟨_, doc_of_get hstate, hepoch, hscopes⟩
      context := ⟨_, doc_of_get hcontext, hconf, hreq, hseq,
        hcontextBinding.trans hbinding.symm⟩
      receipt := doc_of_get hreceipt
      valid := hvalid
      sequence := hidentity.1
      receiptBoot := hidentity.2.1
      cohort := hcohort }, rfl⟩

/-- `current_target` only reads, and what it returns is current. -/
theorem currentTarget_reads {h : Machine} :
    Gate.Reads (currentTarget cell) (Targets h cell) h := by
  refine Gate.Reads.core.seq ?_
  rintro _ rfl
  refine Gate.Reads.replied.seq fun binding hbinding => ?_
  cases hb : h.core.binding cell with
  | none => exact Gate.Reads.refuse
  | some b =>
    exact Gate.Reads.transactWith
      (currentAcceptance_commits hbinding fun h => ⟨b, hb, of_decide_eq_false h⟩)

/-- Only a bound cell has a current target. -/
theorem currentTarget_bound {h : Machine} :
    Gate.Reads (currentTarget cell) (fun _ => cell ∈ h.core.cells) h := by
  refine Gate.Reads.core.seq ?_
  rintro _ rfl
  refine Gate.Reads.replied.seq fun binding hbinding => ?_
  cases hb : h.core.binding cell with
  | none => exact Gate.Reads.refuse
  | some b =>
    have hmem : cell ∈ h.core.cells :=
      List.mem_map.mpr ⟨b, List.mem_of_find?_eq_some hb, by simpa using List.find?_some hb⟩
    exact (Gate.Reads.transactWith (currentAcceptance_commits hbinding fun h =>
      ⟨b, hb, of_decide_eq_false h⟩)).mono fun _ _ => hmem

omit [Ideal] in
theorem qualifiedSession_reads {h : Machine} :
    Gate.Reads (qualifiedSession cell)
      (fun s => s = (h.store.doc (.acceptedQualification cell)).map Accepted.deviceSession) h := by
  refine Gate.Reads.transact ?_
  simp only [commits_bind, Tx.commits_get, commits_pure]
  exact ⟨trivial, by simp [Repository.doc, Function.comp_def]⟩

/-! ## Acceptance -/

/-- Whether a qualification target asks for nothing its binding lacks. -/
def supportsQualification (b : Binding) (allowed : List Digest)
    (target : HostQualification.CellTarget) : Bool :=
  decide (target.definition = b.definition.sha256 ∧ target.envelope = b.envelope.sha256 ∧
    target.environment = b.environment.name ∧
    (∀ i ∈ target.allowedIntents, i ∈ allowed) ∧
    ∀ p ∈ target.purposes, ∃ q ∈ b.purposes, q.name = p)

/-- The check of one target against its binding. It carries the reason found so far. -/
def checkQualificationTarget (c : Core) (reason : Option Name)
    (target : HostQualification.CellTarget) : Gate (Option Name) := do
  match c.binding target.cell with
  | none => refuse .stale
  | some b =>
    validateScopes b target.scopes
    require (target.cell ∉ c.armed) .guard
    let allowed ← checked b.intentDigests
    if supportsQualification b allowed target then return reason
    else return some "UNSUPPORTED_QUALIFICATION_SCOPE"

/-- The check of one target against the stored fence and context. -/
def checkQualificationFence (boot : Id) (binding : Digest) (request : HostQualification.Request)
    (target : HostQualification.CellTarget) : Tx Unit := do
  let state := (← Tx.fetch (.cell target.cell) (.invalid "cell missing")).document
  ensure (state.epoch = target.epoch ∧ state.scopes = target.scopes ∧ state.blocked ≠ ∅ ∧
      ∀ b ∈ target.requiredBlocks, b ∈ state.blocked)
    (.invalid "qualification blocked epoch differs")
  let fence := (← Tx.fetch (.fenceRequest target.fenceRequest)
    (.invalid "qualification fence missing")).document.2
  ensure (fence.id = target.fenceRequest ∧ fence.cell = target.cell ∧ fence.hostBoot = boot ∧
      fence.journal = request.deliveryJournal ∧ fence.state.epoch = target.epoch ∧
      fence.state.scopes = target.scopes ∧
      ∀ b ∈ target.requiredBlocks, b ∈ fence.state.blocked)
    (.invalid "qualification fence differs")
  let context :=
    (← Tx.fetch (.processContext target.cell) (.invalid "no applied context")).document
  ensure (context.change = request.change ∧ context.configuration = target.configuration ∧
      context.request = target.contextRequest ∧
      context.receiptSequence = target.contextSequence ∧ context.bindingDigest = binding)
    (.invalid "qualification process context differs")

/-- The read transaction before a qualification is accepted. -/
def checkQualification (peer : Name) (boot : Id) (binding : Digest)
    (request : HostQualification.Request) : Tx Bool := do
  ensure (← Tx.get (.qualificationSlot peer request.review request.reviewRevision)).isNone
    .keyConflict
  let journals := (← Tx.fetch .hostMeta (.integrity "meta missing")).document
  ensure (journals.deliveryJournal = request.deliveryJournal)
    (.invalid "qualification journal differs")
  forM request.cells (checkQualificationFence boot binding request)
  pendingDeliveries

/-- The identity an accepted qualification revision is recorded under. -/
def qualificationIdentity (request : HostQualification.Request)
    (target : HostQualification.CellTarget) : QualificationIdentity where
  cell := target.cell
  qualification := target.qualification
  qualificationRevision := target.qualificationRevision
  configuration := target.configuration
  definition := target.definition
  envelope := target.envelope
  environment := target.environment
  limitations := target.limitations
  dependencies := sorted target.dependencies
  allowedIntents := sorted target.allowedIntents
  purposes := sorted target.purposes
  review := request.review
  reviewRevision := request.reviewRevision
  reviewDigest := request.reviewDigest
  decisionRevision := request.decisionRevision
  policyDigest := request.policyDigest
  applicationDigest := request.applicationDigest

/-- A revision keeps the identity it was first accepted with. -/
def recordIdentity (peer : Name) (request : HostQualification.Request)
    (target : HostQualification.CellTarget) : Tx Unit := do
  let identity := Ideal.identityDigest (qualificationIdentity request target)
  let key : Key := .qualificationIdentity peer target.cell target.qualification
    target.qualificationRevision
  match ← Tx.get key with
  | some old => ensure (old.document = identity) .keyConflict
  | none => Tx.put key none identity

/-- The accepted revision of a qualification never falls. -/
def recordMaximum (peer : Name) (target : HostQualification.CellTarget) : Tx Unit := do
  let previous ← Tx.get (.qualificationMaximum peer target.cell target.qualification)
  ensure (∀ old ∈ previous, old.document ≤ target.qualificationRevision)
    (.invalid "qualification revision regressed")
  Tx.put (.qualificationMaximum peer target.cell target.qualification)
    (previous.map Row.revision) target.qualificationRevision

/-- What is stored of an accepted target. -/
def acceptance (boot : Id) (request : HostQualification.Request) (binding : Digest)
    (sequence : Counter) (journal session : Id) (target : HostQualification.CellTarget) :
    Accepted where
  request := request.id
  sequence := sequence
  hostBoot := boot
  journal := journal
  bindingDigest := binding
  deviceSession := session
  target := target

/-- Replace the acceptance of a cell, under a newer epoch than the one it replaces. -/
def recordAccepted (cell : Name) (accepted : Accepted) : Tx Unit := do
  let old ← Tx.get (.acceptedQualification cell)
  ensure (∀ previous ∈ old, previous.document.target.epoch < accepted.target.epoch)
    (.invalid "replacement qualification requires a newer cell epoch")
  Tx.put (.acceptedQualification cell) (old.map Row.revision) accepted

/-- Accept one target. -/
def acceptCell (peer : Name) (request : HostQualification.Request)
    (accept : HostQualification.CellTarget → Accepted) (target : HostQualification.CellTarget) :
    Tx Unit := do
  recordIdentity peer request target
  recordMaximum peer target
  recordAccepted target.cell (accept target)

/-- Accept every target, unless there is a reason against it. -/
def acceptCells (peer : Name) (request : HostQualification.Request)
    (accept : HostQualification.CellTarget → Accepted) (reason : Option Name) : Tx Unit :=
  match reason with
  | some _ => pure ()
  | none => do
    let _ ← request.cells.mapM (acceptCell peer request accept)

/-- The commit of an acceptance, accepted or not. -/
def recordQualification (peer : Name) (boot : Id) (request : HostQualification.Request)
    (digest binding : Digest) (reason : Option Name)
    (quiescence : Option HostConfiguration.Quiescence) (now : TimePoint) :
    Tx HostQualification.Receipt := do
  let (sequence, journal) ← nextSequence
  -- without a reason there is quiescence evidence: the source expects it
  let session := (quiescence.map HostConfiguration.Quiescence.deviceSession).getD ""
  acceptCells peer request (acceptance boot request binding sequence journal session) reason
  let receipt : HostQualification.Receipt := {
    schema := "rx.host-qualification-receipt.v1"
    request := request
    requestDigest := digest
    hostBoot := boot
    journal := journal
    sequence := sequence
    status := if reason = none then .accepted else .notAccepted
    reason := reason
    quiescence := quiescence
    recordedAt := now }
  Tx.checked (receipt.validate Ideal.qualificationDigest) .invalid
  Tx.put (.qualificationRequest peer request.id) none receipt
  Tx.put (.qualificationSlot peer request.review request.reviewRevision) none request.id
  Tx.put (.qualificationHistory sequence) none receipt
  return receipt

/-- `accept_qualification`. -/
def acceptQualification (caller : Caller) (request : HostQualification.Request) :
    Gate HostQualification.Observation := do
  checked request.validate
  let digest ← checked (request.digest Ideal.qualificationDigest)
  authorized caller
  requireAdmission
  match ← transact (Tx.get (.qualificationRequest caller.peer request.id)) with
  | some row =>
    checked (row.document.validate Ideal.qualificationDigest)
    require (row.document.requestDigest = digest) .conflict
    qualificationObservation (some row.document)
  | none =>
    let c ← core
    let binding ← replied (bindingDigest c.bindings)
    require (request.host = c.host ∧ request.expectedHostBoot = c.boot ∧
        request.bindingDigest = binding ∧
        (request.cells.map HostQualification.CellTarget.cell).toFinset = c.cells.toFinset) .stale
    let reason ← request.cells.foldlM (checkQualificationTarget c) none
    let pending ← transact (checkQualification caller.peer c.boot binding request)
    let reason := if pending then some "HOST_WORK_UNRESOLVED" else reason
    let (reason, quiescence, now) ← confirmQuiescence c.resources reason
    let receipt ← transact
      (recordQualification caller.peer c.boot request digest binding reason quiescence now)
    -- no cell stays armed, accepted or not
    setCore { c with
      armed := c.armed \ (request.cells.map HostQualification.CellTarget.cell).toFinset }
    qualificationObservation (some receipt)

/-! ## What an acceptance can do -/

section Accept

variable {s : Store} {peer : Name} {accept : HostQualification.CellTarget → Accepted}

theorem recordIdentity_commits :
    (recordIdentity peer request target).Commits (fun _ s' =>
      (∀ d, s.doc (.qualificationIdentity peer target.cell target.qualification
        target.qualificationRevision) = some d →
          d = Ideal.identityDigest (qualificationIdentity request target)) ∧
      s'.doc (.qualificationIdentity peer target.cell target.qualification
        target.qualificationRevision) =
          some (Ideal.identityDigest (qualificationIdentity request target)) ∧
      Repository.Frame (fun k => k = .qualificationIdentity peer target.cell target.qualification
        target.qualificationRevision) s s') s := by
  simp only [recordIdentity, commits_bind, Tx.commits_get]
  split
  next old hold =>
    rw [commits_ensure]
    intro heq
    have hdoc := doc_of_get hold
    refine ⟨fun d hd => ?_, hdoc.trans (congrArg some heq), .refl _ s⟩
    exact (Option.some.inj (hd.symm.trans hdoc)).trans heq
  next hnone =>
    rw [Tx.commits_put]
    intro _
    refine ⟨fun d hd => ?_, doc_write_self _, .write (by rfl) _⟩
    rw [doc_eq_none.mpr hnone] at hd
    cases hd

omit [Ideal] in
theorem recordMaximum_commits :
    (recordMaximum peer target).Commits (fun _ s' =>
      (∀ n, s.doc (.qualificationMaximum peer target.cell target.qualification) = some n →
        n ≤ target.qualificationRevision) ∧
      s'.doc (.qualificationMaximum peer target.cell target.qualification) =
        some target.qualificationRevision ∧
      Repository.Frame (fun k => k = .qualificationMaximum peer target.cell target.qualification)
        s s') s := by
  simp only [recordMaximum, commits_bind, Tx.commits_get, commits_ensure, Tx.commits_put]
  intro hmax _
  refine ⟨fun n hn => ?_, doc_write_self _, .write (by rfl) _⟩
  obtain ⟨k, hrow⟩ := Repository.doc_eq_some.mp hn
  exact hmax _ hrow

omit [Ideal] in
theorem recordAccepted_commits {cell : Name} {accepted : Accepted} :
    (recordAccepted cell accepted).Commits (fun _ s' =>
      (∀ old, s.doc (.acceptedQualification cell) = some old →
        old.target.epoch < accepted.target.epoch) ∧
      s'.doc (.acceptedQualification cell) = some accepted ∧
      Repository.Frame (fun k => k = .acceptedQualification cell) s s') s := by
  simp only [recordAccepted, commits_bind, Tx.commits_get, commits_ensure, Tx.commits_put]
  intro hepoch _
  refine ⟨fun old hold => ?_, doc_write_self _, .write (by rfl) _⟩
  obtain ⟨k, hrow⟩ := Repository.doc_eq_some.mp hold
  exact hepoch _ hrow

/-- What accepting one target wrote: each row replaces an older one it is compatible with. -/
structure CellAccepted (s s' : Store) (peer : Name) (request : HostQualification.Request)
    (accept : HostQualification.CellTarget → Accepted) (target : HostQualification.CellTarget) :
    Prop where
  identity : ∀ d, s.doc (.qualificationIdentity peer target.cell target.qualification
    target.qualificationRevision) = some d →
      d = Ideal.identityDigest (qualificationIdentity request target)
  identity' : s'.doc (.qualificationIdentity peer target.cell target.qualification
    target.qualificationRevision) =
      some (Ideal.identityDigest (qualificationIdentity request target))
  maximum : ∀ n, s.doc (.qualificationMaximum peer target.cell target.qualification) = some n →
    n ≤ target.qualificationRevision
  maximum' : s'.doc (.qualificationMaximum peer target.cell target.qualification) =
    some target.qualificationRevision
  accepted : ∀ old, s.doc (.acceptedQualification target.cell) = some old →
    old.target.epoch < (accept target).target.epoch
  accepted' : s'.doc (.acceptedQualification target.cell) = some (accept target)

/-- The rows accepting a target may touch. -/
def Touches (peer : Name) (target : HostQualification.CellTarget) (k : Key) : Prop :=
  k = .acceptedQualification target.cell ∨
  k = .qualificationMaximum peer target.cell target.qualification ∨
  k = .qualificationIdentity peer target.cell target.qualification target.qualificationRevision

theorem acceptCell_commits :
    (acceptCell peer request accept target).Commits (fun _ s' =>
      CellAccepted s s' peer request accept target ∧
        Repository.Frame (Touches peer target) s s') s := by
  simp only [acceptCell, commits_bind]
  refine recordIdentity_commits.mono ?_
  rintro _ s₁ ⟨hid, hid', hframe₁⟩
  refine recordMaximum_commits.mono ?_
  rintro _ s₂ ⟨hmax, hmax', hframe₂⟩
  refine recordAccepted_commits.mono ?_
  rintro _ s₃ ⟨hacc, hacc', hframe₃⟩
  refine ⟨{
    identity := hid
    identity' := by rw [hframe₃.doc (by simp), hframe₂.doc (by simp), hid']
    maximum := fun n hn => hmax n (by rw [hframe₁.doc (by simp), hn])
    maximum' := by rw [hframe₃.doc (by simp), hmax']
    accepted := fun old hold => hacc old (by
      rw [hframe₂.doc (by simp), hframe₁.doc (by simp), hold])
    accepted' := hacc' }, ?_⟩
  exact (hframe₁.mono fun _ h => .inr (.inr h)).trans
    ((hframe₂.mono fun _ h => .inr (.inl h)).trans (hframe₃.mono fun _ h => .inl h))

omit [Ideal] in
theorem Touches.cell_eq {t u : HostQualification.CellTarget} {k : Key} (ht : Touches peer t k)
    (hu : Touches peer u k) : t.cell = u.cell := by
  rcases ht with rfl | rfl | rfl <;> rcases hu with h | h | h <;> simp_all

theorem CellAccepted.congr {s s' r r' : Store} (h : CellAccepted s s' peer request accept target)
    (hr : ∀ k, Touches peer target k → r.get k = s.get k)
    (hr' : ∀ k, Touches peer target k → r'.get k = s'.get k) :
    CellAccepted r r' peer request accept target where
  identity d hd := h.identity d ((doc_congr (hr _ (.inr (.inr rfl)))).symm.trans hd)
  identity' := (doc_congr (hr' _ (.inr (.inr rfl)))).trans h.identity'
  maximum n hn := h.maximum n ((doc_congr (hr _ (.inr (.inl rfl)))).symm.trans hn)
  maximum' := (doc_congr (hr' _ (.inr (.inl rfl)))).trans h.maximum'
  accepted o ho := h.accepted o ((doc_congr (hr _ (.inl rfl))).symm.trans ho)
  accepted' := (doc_congr (hr' _ (.inl rfl))).trans h.accepted'

theorem acceptCells_commits {reason : Option Name}
    (hnodup : (request.cells.map HostQualification.CellTarget.cell).Nodup) :
    (acceptCells peer request accept reason).Commits (fun _ s' =>
      (reason = none → ∀ t ∈ request.cells, CellAccepted s s' peer request accept t) ∧
      Repository.Frame (fun k => reason = none ∧ ∃ t ∈ request.cells, Touches peer t k) s s')
      s := by
  cases reason with
  | some r => exact ⟨nofun, .refl _ s⟩
  | none =>
    rw [acceptCells, commits_bind]
    refine (Repository.commits_mapM_local (Touches peer) (fun _ => False)
      (fun t s s' => CellAccepted s s' peer request accept t)
      (fun t _ r => acceptCell_commits.mono fun _ _ hs => ⟨hs.1, hs.2.mono fun _ => .inl⟩)
      (fun t r r' s s' hr hr' ht => ht.congr hr hr') ?_ fun _ _ _ => id).mono ?_
    · refine (List.pairwise_map.mp hnodup).imp fun hne k ht hu => hne ?_
      exact Touches.cell_eq ht hu
    · rintro _ s' ⟨hrows, hframe⟩
      exact ⟨fun _ => hrows, hframe.mono fun _ hk => ⟨rfl, hk.elim id False.elim⟩⟩

end Accept

/-- What the commit of an acceptance wrote. -/
structure Qualifies (s s' : Store) (m : HostMeta) (peer : Name) (r : HostQualification.Receipt) :
    Prop where
  journals : s.doc .hostMeta = some m
  next : s'.doc .hostMeta = some m.next
  sequence : r.sequence = m.deliverySeq + 1
  unrecorded : s.doc (.qualificationRequest peer r.request.id) = none
  recorded : s'.doc (.qualificationRequest peer r.request.id) = some r
  unsettled : s.doc (.qualificationSlot peer r.request.review r.request.reviewRevision) = none
  unused : s.doc (.qualificationHistory r.sequence) = none
  listed : s'.doc (.qualificationHistory r.sequence) = some r
  accepted : r.status = .accepted → ∃ accept : HostQualification.CellTarget → Accepted,
    (∀ t, (accept t).request = r.request.id ∧ (accept t).sequence = r.sequence ∧
      (accept t).hostBoot = r.hostBoot ∧ (accept t).target = t) ∧
    ∀ t ∈ r.request.cells, CellAccepted s s' peer r.request accept t
  frame : Repository.Frame (fun k => k = .hostMeta ∨
    (r.status = .accepted ∧ ∃ t ∈ r.request.cells, Touches peer t k) ∨
    k = .qualificationRequest peer r.request.id ∨
    k = .qualificationSlot peer r.request.review r.request.reviewRevision ∨
    k = .qualificationHistory r.sequence) s s'

theorem recordQualification_commits {s : Store} {peer : Name} {boot : Id}
    {digest binding : Digest} {reason : Option Name}
    {quiescence : Option HostConfiguration.Quiescence} {now : TimePoint}
    (hnodup : (request.cells.map HostQualification.CellTarget.cell).Nodup) :
    (recordQualification peer boot request digest binding reason quiescence now).Commits
      (fun r s' => r.request = request ∧ r.requestDigest = digest ∧ r.hostBoot = boot ∧
        ∃ m, Qualifies s s' m peer r) s := by
  simp only [recordQualification, commits_bind, Tx.commits_nextSequence]
  intro m hm _
  refine (acceptCells_commits hnodup).mono ?_
  rintro _ s₁ ⟨hall, hframe⟩
  simp only [Tx.commits_checked, Tx.commits_put, commits_pure, Option.map_eq_none_iff]
  intro _ hvalid hunrecorded hunsettled hunused
  rw [get_write_of_ne (by simp)] at hunsettled
  rw [get_write_of_ne (by simp), get_write_of_ne (by simp)] at hunused
  have hkept : ∀ k : Key, k ≠ .hostMeta → (∀ t, ¬ Touches peer t k) → s₁.doc k = s.doc k := by
    intro k hmeta htouch
    refine (hframe.doc ?_).trans (Store.doc_numbered_of_ne hmeta)
    rintro ⟨-, t, -, ht⟩
    exact htouch t ht
  refine ⟨trivial, trivial, trivial, m, {
    journals := hm
    next := ?_
    sequence := rfl
    unrecorded := (hkept _ (by simp) (by simp [Touches])).symm.trans
      (doc_eq_none.mpr hunrecorded)
    recorded := by
      rw [doc_write_of_ne (by simp), doc_write_of_ne (by simp),
        doc_write_self]
    unsettled := (hkept _ (by simp) (by simp [Touches])).symm.trans
      (doc_eq_none.mpr hunsettled)
    unused := (hkept _ (by simp) (by simp [Touches])).symm.trans
      (doc_eq_none.mpr hunused)
    listed := doc_write_self _
    accepted := ?_
    frame := ?_ }⟩
  · rw [doc_write_of_ne (by simp), doc_write_of_ne (by simp),
      doc_write_of_ne (by simp), hframe.doc (by simp [Touches]),
      Store.doc_numbered_hostMeta]
  · intro hstatus
    have hreason : reason = none := by
      by_contra hne
      simp [hne] at hstatus
    refine ⟨acceptance boot request binding (m.deliverySeq + 1) m.deliveryJournal
      ((quiescence.map HostConfiguration.Quiescence.deviceSession).getD ""),
      fun t => ⟨rfl, rfl, rfl, rfl⟩, fun t ht => ?_⟩
    refine (hall hreason t ht).congr (fun k hk => ?_) fun k hk => ?_
    · rcases hk with rfl | rfl | rfl <;> exact (get_write_of_ne (by simp) _).symm
    · rcases hk with rfl | rfl | rfl <;>
        rw [get_write_of_ne (by simp), get_write_of_ne (by simp),
          get_write_of_ne (by simp)]
  · refine (((s.frame_numbered m).mono fun _ => .inl).trans (hframe.mono ?_)).trans
      ((Repository.Frame.write ?_ _).trans
        ((Repository.Frame.write ?_ _).trans (Repository.Frame.write ?_ _)))
    · exact fun k hk => .inr (.inl ⟨if_pos hk.1, hk.2⟩)
    · exact .inr (.inr (.inl rfl))
    · exact .inr (.inr (.inr (.inl rfl)))
    · exact .inr (.inr (.inr (.inr rfl)))

/-- The store shows the fence and the process context a target asks for. -/
structure Qualifiable (s : Store) (target : HostQualification.CellTarget) : Prop where
  fence : ∃ c, s.doc (.cell target.cell) = some c ∧ c.epoch = target.epoch ∧
    c.scopes = target.scopes
  context : ∃ x, s.doc (.processContext target.cell) = some x ∧
    x.configuration = target.configuration ∧ x.request = target.contextRequest ∧
    x.receiptSequence = target.contextSequence

section Reads

omit [Ideal] in
theorem checkQualificationFence_commits {s : Store} {boot : Id} {binding : Digest} :
    (checkQualificationFence boot binding request target).Commits
      (fun _ s' => s' = s ∧ Qualifiable s target) s := by
  simp only [checkQualificationFence, commits_bind, Tx.commits_fetch, commits_ensure]
  rintro state hstate ⟨hepoch, hscopes, -⟩ _ _ _ context hcontext ⟨-, hconf, hreq, hseq, -⟩
  exact ⟨trivial, ⟨_, doc_of_get hstate, hepoch, hscopes⟩,
    ⟨_, doc_of_get hcontext, hconf, hreq, hseq⟩⟩

omit [Ideal] in
theorem checkQualification_commits {s : Store} {peer : Name} {boot : Id} {binding : Digest} :
    (checkQualification peer boot binding request).Commits
      (fun _ s' => s' = s ∧ ∀ t ∈ request.cells, Qualifiable s t) s := by
  simp only [checkQualification, commits_bind, Tx.commits_get, Tx.commits_fetch, commits_ensure]
  intro _ _ _ _
  refine (commits_forM_check fun t _ => checkQualificationFence_commits).mono ?_
  rintro _ _ ⟨rfl, htargets⟩
  exact pendingDeliveries_commits.mono fun _ _ hs => ⟨hs, htargets⟩

variable {h : Machine}

theorem checkQualificationTarget_reads {reason : Option Name} :
    Gate.Reads (checkQualificationTarget h.core reason target)
      (fun _ => target.cell ∉ h.core.armed) h := by
  unfold checkQualificationTarget
  cases h.core.binding target.cell with
  | none => exact Gate.Reads.refuse
  | some b =>
    refine Gate.Reads.validateScopes.seq fun _ _ => ?_
    refine Gate.Reads.require.seq fun _ hunarmed => ?_
    refine Gate.Reads.replied.seq fun allowed _ => ?_
    split <;> exact Gate.Reads.pure hunarmed

omit [Ideal] in
theorem observeAccepted_commits {s : Store} {cell : Name} :
    (observeAccepted cell).Commits (fun _ s' => s' = s) s := by
  simp only [observeAccepted, commits_bind, Tx.commits_get]
  cases s.get (.acceptedQualification cell) with
  | none => rfl
  | some row =>
    simp only [commits_bind, commits_ensure, commits_pure]
    exact fun _ => trivial

/-- Reporting only reads, and reports the receipt it was given. -/
theorem qualificationObservation_reads {receipt : Option HostQualification.Receipt} :
    Gate.Reads (qualificationObservation receipt) (fun o => o.receipt = receipt) h := by
  refine configurationObservation_reads.seq fun o _ => ?_
  refine (Gate.Reads.transact ((commits_mapM (fun c _ s₁ (hs₁ : s₁ = h.store) => ?_) rfl).mono
    fun _ _ hs => ⟨hs, trivial⟩)).seq fun accepted _ => ?_
  · subst hs₁
    exact observeAccepted_commits
  refine Gate.Reads.replied.seq fun _ _ => ?_
  exact Gate.Reads.pure rfl

end Reads

/-- A qualification was answered: accepted for every bound cell, or for none. -/
inductive QualifyStep (h : Machine) (caller : Caller) (request : HostQualification.Request) :
    HostQualification.Receipt → Machine → Prop
  | mk {m : HostMeta} {s : Store} {r : HostQualification.Receipt}
      (bound : h.core.caller = some caller)
      (qualifies : Qualifies h.store s m caller.peer r)
      (same : r.request = request)
      (digest : request.digest Ideal.qualificationDigest = .ok r.requestDigest)
      (boot : r.hostBoot = h.core.boot)
      (cells : (request.cells.map HostQualification.CellTarget.cell).toFinset =
        h.core.cells.toFinset)
      (targets : ∀ t ∈ request.cells, Qualifiable h.store t) :
      QualifyStep h caller request r { h with store := s }

/-- The outcome of an acceptance: the receipt it reports was stored before, or by this call. -/
def QualificationOutcome (h : Machine) (caller : Caller) (request : HostQualification.Request)
    (r : HostQualification.Receipt) (h' : Machine) : Prop :=
  h' = h ∧ h.store.doc (.qualificationRequest caller.peer request.id) = some r ∧
      request.digest Ideal.qualificationDigest = .ok r.requestDigest ∨
    QualifyStep h caller request r h'

omit [Ideal] in
theorem validateQualification_nodup {u : Unit} (h : request.validate = .ok u) :
    (request.cells.map HostQualification.CellTarget.cell).Nodup := by
  unfold HostQualification.Request.validate at h
  split at h
  next hshape => exact hshape.2.2.2.2.2
  · cases h

/-- `accept_qualification` answers from the record of the request, or makes one step. -/
theorem acceptQualification_runs {h : Machine} {caller : Caller} :
    Gate.Runs (acceptQualification caller request)
      (fun o h' => ∃ r, o.receipt = some r ∧ QualificationOutcome h caller request r h')
      (fun _ h' => h' = h ∨ ∃ r, QualifyStep h caller request r h') h := by
  refine Gate.Reads.replied.bind (fun _ => .inl rfl) fun _ hvalid => ?_
  refine Gate.Reads.replied.bind (fun _ => .inl rfl) fun digest hdigest => ?_
  refine Gate.Reads.authorized.bind (fun _ => .inl rfl) fun _ hcaller => ?_
  refine Gate.Reads.requireAdmission.bind (fun _ => .inl rfl) fun _ _ => ?_
  refine (Gate.Reads.row _).bind (fun _ => .inl rfl) ?_
  rintro _ rfl
  have hdigest' := Checks.mapError_eq_ok.mp hdigest
  cases hrow : h.store.get (.qualificationRequest caller.peer request.id) with
  | some row =>
    refine Gate.Reads.replied.bind (fun _ => .inl rfl) fun _ _ => ?_
    refine Gate.Reads.require.bind (fun _ => .inl rfl) fun _ hsame => ?_
    refine qualificationObservation_reads.runs (fun o ho => ?_) fun _ => .inl rfl
    exact ⟨_, ho, .inl ⟨rfl, doc_of_get hrow, hsame ▸ hdigest'⟩⟩
  | none =>
    refine Gate.Reads.core.bind (fun _ => .inl rfl) ?_
    rintro _ rfl
    refine Gate.Reads.replied.bind (fun _ => .inl rfl) fun binding _ => ?_
    refine Gate.Reads.require.bind (fun _ => .inl rfl) fun _ hcurrent => ?_
    have hfold : Gate.Reads (request.cells.foldlM (checkQualificationTarget h.core) none)
        (fun _ => ∀ t ∈ request.cells, t.cell ∉ h.core.armed) h :=
      Gate.Reads.foldlM fun _ _ _ => checkQualificationTarget_reads
    refine hfold.bind (fun _ => .inl rfl) fun reason hunarmed => ?_
    refine (Gate.Reads.transact checkQualification_commits).bind (fun _ => .inl rfl)
      fun pending htargets => ?_
    refine confirmQuiescence_reads.bind (fun _ => .inl rfl) fun answer _ => ?_
    refine Always.bind (Gate.Runs.transact ?_ fun _ => .inl rfl)
    refine (recordQualification_commits
      (validateQualification_nodup (Checks.mapError_eq_ok.mp hvalid))).mono ?_
    rintro r s ⟨hrequest, hd, hboot, m, hqualifies⟩
    have hstep : QualifyStep h caller request r { h with store := s } :=
      .mk hcaller hqualifies hrequest (hd ▸ hdigest') hboot hcurrent.2.2.2 htargets
    have hdisjoint : h.core.armed \
        (request.cells.map HostQualification.CellTarget.cell).toFinset = h.core.armed := by
      refine Finset.sdiff_eq_self_of_disjoint (Finset.disjoint_right.mpr fun x hx => ?_)
      obtain ⟨t, ht, rfl⟩ := List.mem_map.mp (List.mem_toFinset.mp hx)
      exact hunarmed t ht
    refine Always.bind (Gate.Runs.setCore ?_)
    rw [hdisjoint]
    exact qualificationObservation_reads.runs (fun o ho => ⟨r, ho, .inr hstep⟩)
      fun _ => .inr ⟨r, hstep⟩

end RxSolutions.Host
