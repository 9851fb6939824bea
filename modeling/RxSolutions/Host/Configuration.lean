import RxSolutions.Durable.Checks
import RxSolutions.Host.Service

/-!
# Accepting a process configuration

A request covers every cell the host is bound to and is applied to all of them in
one transaction, or recorded as not applied. It needs a current fence with open
blocks on each cell, no armed cell, no unfinished delivery, and fresh evidence that
the device is quiet.
-/

namespace RxSolutions.Host

open Domain Durable Program
open Repository (doc_eq_none doc_write_of_ne get_write_of_ne)

variable [Ideal]

variable {request : HostConfiguration.Request} {target : HostConfiguration.CellTarget}

/-- A binding with its lists in canonical order. -/
def Binding.canonical (b : Binding) : Except String Binding := do
  let intents ← b.allowedIntents.mapM Intent.normalized
  return { b with
    -- normalising twice changes nothing, so the sort key is the digest of the intent
    allowedIntents := intents.insertionSort fun i j => Ideal.intentDigest i ≤ Ideal.intentDigest j
    scopeIds := sorted b.scopeIds
    conditionIds := sorted b.conditionIds }

/-- `binding_digest`. -/
def bindingDigest (bindings : List Binding) : Except HostError Digest :=
  match bindings.mapM Binding.canonical with
  | .ok values => .ok (Ideal.bindingsDigest values)
  | .error e => .error (.invalid e)

/-- What the host reports of one cell. -/
def observeCell (b : Binding) : Tx HostConfiguration.CellObservation := do
  let state := (← Tx.fetch (.cell b.cell) (.integrity "cell missing")).document
  let applied := (← Tx.get (.processContext b.cell)).map Row.document
  return {
    cell := b.cell
    definition := b.definition.sha256
    envelope := b.envelope.sha256
    environment := b.environment.name
    epoch := state.epoch
    scopes := state.scopes
    blocked := state.blocked
    applied := applied }

/-- The snapshot part of `observation`. -/
def configurationSnapshot (boot : Id) (bindings : List Binding) (host : Name) (binding : Digest) :
    Tx HostConfiguration.Snapshot := do
  let journals := (← Tx.fetch .hostMeta (.integrity "host meta missing")).document
  let cells ← bindings.mapM observeCell
  let installationIdentity ← serviceIdentity boot
  let bindingCommit ← bindingObservation binding boot
  return {
    evidenceJournal := some journals.evidenceJournal
    installationIdentity := installationIdentity
    bindingCommit := bindingCommit
    schema := "rx.host-process-configuration-snapshot.v1"
    host := host
    hostBoot := boot
    deliveryJournal := journals.deliveryJournal
    bindingDigest := binding
    cells := cells }

/-- A pure check that may fail with a text. -/
def checked {α : Type} (r : Except String α) : Gate α :=
  replied (r.mapError .invalid)

/-- The host name all bindings share. -/
def Core.host (c : Core) : Name := (c.bindings.head?.map Binding.host).getD ""

/-- The platform all bindings share. -/
def Core.platform (c : Core) : Name := (c.bindings.head?.map Binding.platform).getD ""

/-- `configuration::observation`. -/
def configurationObservation (receipt : Option HostConfiguration.Receipt) :
    Gate HostConfiguration.Observation := do
  let c ← core
  let binding ← replied (bindingDigest c.bindings)
  let snapshot ← transact (configurationSnapshot c.boot c.bindings c.host binding)
  let value : HostConfiguration.Observation := {
    schema := "rx.host-process-configuration-observation.v1"
    snapshot := snapshot
    receipt := receipt
    contextMatchesCurrentHost := receipt.any fun r => r.matchesSnapshot snapshot
    activationAuthorized := false }
  checked (value.validate Ideal.configurationDigest)
  return value

/-- Whether a quiescence observation is older than 100 ms, its uncertainty included. -/
def expired (now observedAt : TimePoint) (uncertaintyNs : Counter) : Bool :=
  match now.ageNs observedAt with
  | none => true
  | some age => decide (100000000 < saturatingAdd age uncertaintyNs)

/-- Ask the adapter for evidence that the resources are quiet: the reason it is missing, or
the evidence. -/
def askQuiescence (resources : List Name) :
    Gate (Option Name × Option HostConfiguration.Quiescence) := do
  match ← handoverSnapshot resources with
  | .error _ => return (some "QUIESCENCE_UNAVAILABLE", none)
  | .ok q =>
    let now ← clockNow
    if ¬ q.noPendingCommands ∨ ¬ q.controlAvailable ∨ ¬ q.supportStable ∨
        expired now q.observedAt q.uncertaintyNs then
      return (some "QUIESCENCE_NOT_CONFIRMED", none)
    else
      return (none, some {
        deviceSession := q.deviceSession
        observedAt := q.observedAt
        uncertaintyNs := q.uncertaintyNs
        resources := resources })

/-- The quiescence evidence both acceptances ask for, unless there is a reason against them
already. Its age is checked once more before the commit. -/
def confirmQuiescence (resources : List Name) (reason : Option Name) :
    Gate (Option Name × Option HostConfiguration.Quiescence × TimePoint) := do
  let asked ← (if reason.isSome then pure (reason, none) else askQuiescence resources)
  let now ← clockNow
  if asked.2.any fun q => expired now q.observedAt q.uncertaintyNs then
    return (some "QUIESCENCE_EXPIRED", asked.2, now)
  else
    return (asked.1, asked.2, now)

/-- The digests of a binding's approved intents. -/
def Binding.intentDigests (b : Binding) : Except String (List Digest) :=
  b.allowedIntents.mapM fun i => i.digest Ideal.intentDigest

/-- Whether a configuration target asks for nothing its binding lacks. -/
def supportsConfiguration (b : Binding) (allowed : List Digest)
    (target : HostConfiguration.CellTarget) : Bool :=
  decide (target.definition = b.definition.sha256 ∧ target.envelope = b.envelope.sha256 ∧
    target.environment = b.environment.name ∧
    (∀ i ∈ target.requiredIntents, i ∈ allowed) ∧
    ∀ n ∈ target.requiredConditions, n ∈ b.conditionIds)

/-- The check of one target against its binding. It carries the reason found so far. -/
def checkConfigurationTarget (c : Core) (reason : Option Name)
    (target : HostConfiguration.CellTarget) : Gate (Option Name) := do
  match c.binding target.cell with
  | none => refuse .stale
  | some b =>
    let allowed ← checked b.intentDigests
    validateScopes b target.scopes
    require (target.cell ∉ c.armed) .guard
    if supportsConfiguration b allowed target then return reason
    else return some "UNSUPPORTED_BINDING_CHANGE"

/-- The check of one target against the stored fence and context. -/
def checkConfigurationFence (boot journal : Id) (target : HostConfiguration.CellTarget) :
    Tx Unit := do
  let state := (← Tx.fetch (.cell target.cell) (.invalid "unknown cell")).document
  ensure (state.epoch = target.epoch ∧ state.scopes = target.scopes ∧ state.blocked ≠ ∅)
    (.invalid "configuration requires a current blocked fence")
  let fence :=
    (← Tx.fetch (.fenceRequest target.fenceRequest) (.invalid "fence receipt missing")).document.2
  ensure (fence.hostBoot = boot ∧ fence.journal = journal ∧ fence.cell = target.cell ∧
      fence.state.epoch = target.epoch ∧ fence.state.scopes = target.scopes ∧
      fence.state.blocked = state.blocked)
    (.invalid "configuration fence differs")
  let current := (← Tx.get (.processContext target.cell)).map Row.document
  ensure (current.map HostConfiguration.AppliedContext.configuration = target.expectedContext)
    (.invalid "expected Host process context differs")

/-- Some delivery is not finished. -/
def pendingDeliveries : Tx Bool := do
  return (← Tx.scanDeliveries).any fun r => r.state.Pending

/-- The read transaction before a configuration is applied. -/
def checkConfiguration (peer : Name) (boot : Id) (request : HostConfiguration.Request) :
    Tx Bool := do
  let journals := (← Tx.fetch .hostMeta (.integrity "meta missing")).document
  ensure (journals.deliveryJournal = request.expectedDeliveryJournal)
    (.invalid "configuration journal differs")
  ensure (← Tx.get (.configurationSlot peer request.change request.preparation)).isNone .keyConflict
  forM request.cells (checkConfigurationFence boot journals.deliveryJournal)
  pendingDeliveries

/-- The context a target leads to. -/
def appliedContext (request : HostConfiguration.Request) (sequence : Counter) (binding : Digest)
    (target : HostConfiguration.CellTarget) : HostConfiguration.AppliedContext where
  cell := target.cell
  configuration := target.afterConfiguration
  change := request.change
  request := request.id
  receiptSequence := sequence
  bindingDigest := binding

/-- Apply one target under the request's sequence number; whether it changed the context. -/
def applyContext (request : HostConfiguration.Request) (sequence : Counter) (binding : Digest)
    (target : HostConfiguration.CellTarget) : Tx Bool := do
  confirmConfigured target.cell target.afterConfiguration request.id
  let old ← Tx.get (.processContext target.cell)
  Tx.put (.processContext target.cell) (old.map Row.revision)
    (appliedContext request sequence binding target)
  return old.all fun row => row.document.configuration ≠ target.afterConfiguration

/-- Apply every target, unless there is a reason against it. -/
def applyContexts (request : HostConfiguration.Request) (sequence : Counter) (binding : Digest)
    (reason : Option Name) : Tx HostConfiguration.Effect :=
  match reason with
  | some _ => return .none
  | none => do
    let changed ← request.cells.mapM (applyContext request sequence binding)
    return if changed.any id then .installed else .alreadyPresent

/-- The commit of an acceptance, applied or not. -/
def recordConfiguration (peer : Name) (boot : Id) (request : HostConfiguration.Request)
    (digest binding : Digest) (reason : Option Name)
    (quiescence : Option HostConfiguration.Quiescence) (now : TimePoint) :
    Tx HostConfiguration.Receipt := do
  let (sequence, journal) ← nextSequence
  let effect ← applyContexts request sequence binding reason
  let receipt : HostConfiguration.Receipt := {
    schema := "rx.host-process-configuration-receipt.v1"
    request := request
    requestDigest := digest
    hostBoot := boot
    journal := journal
    sequence := sequence
    status := if reason = none then .appliedUnqualified else .notApplied
    effect := effect
    reason := reason
    quiescence := quiescence
    recordedAt := now }
  Tx.checked (receipt.validate Ideal.configurationDigest) .invalid
  Tx.put (.configurationRequest peer request.id) none receipt
  Tx.put (.configurationSlot peer request.change request.preparation) none request.id
  Tx.put (.configurationHistory sequence) none receipt
  return receipt

/-- `accept_process_configuration`. -/
def acceptProcessConfiguration (caller : Caller) (request : HostConfiguration.Request) :
    Gate HostConfiguration.Observation := do
  checked request.validate
  let digest ← checked (request.digest Ideal.configurationDigest)
  authorized caller
  requireAdmission
  match ← transact (Tx.get (.configurationRequest caller.peer request.id)) with
  | some row =>
    checked (row.document.validate Ideal.configurationDigest)
    require (row.document.requestDigest = digest) .conflict
    configurationObservation (some row.document)
  | none =>
    let c ← core
    let binding ← replied (bindingDigest c.bindings)
    require (request.host = c.host ∧ request.expectedHostBoot = c.boot ∧
        request.bindingDigest = binding ∧
        (request.cells.map HostConfiguration.CellTarget.cell).toFinset = c.cells.toFinset) .stale
    let reason ← request.cells.foldlM (checkConfigurationTarget c) none
    let pending ← transact (checkConfiguration caller.peer c.boot request)
    let reason := if pending then some "HOST_WORK_UNRESOLVED" else reason
    let (reason, quiescence, now) ← confirmQuiescence c.resources reason
    let receipt ← transact
      (recordConfiguration caller.peer c.boot request digest binding reason quiescence now)
    setCore { c with
      armed := if receipt.status = .appliedUnqualified then
          c.armed \ (request.cells.map HostConfiguration.CellTarget.cell).toFinset
        else c.armed }
    configurationObservation (some receipt)

/-! ## What an acceptance can do -/

section Reads

variable {h : Machine}

variable {s : Store}

omit [Ideal] in
theorem observeCell_commits {b : Binding} :
    (observeCell b).Commits (fun _ s' => s' = s) s := by
  simp only [observeCell, commits_bind, Tx.commits_fetch, Tx.commits_get, commits_pure]
  exact fun _ _ => trivial

omit [Ideal] in
theorem configurationSnapshot_commits {boot : Id} {bindings : List Binding} {host : Name}
    {binding : Digest} :
    (configurationSnapshot boot bindings host binding).Commits (fun _ s' => s' = s) s := by
  simp only [configurationSnapshot, commits_bind, Tx.commits_fetch]
  intro _ _
  refine (commits_mapM (fun b _ s₁ (hs₁ : s₁ = s) => ?_) rfl).mono ?_
  · subst hs₁
    exact observeCell_commits
  rintro _ _ rfl
  refine serviceIdentity_commits.mono ?_
  rintro _ _ rfl
  exact bindingObservation_commits

/-- Reporting only reads, and reports the receipt it was given. -/
theorem configurationObservation_reads {receipt : Option HostConfiguration.Receipt} :
    Gate.Reads (configurationObservation receipt) (fun o => o.receipt = receipt) h := by
  refine Gate.Reads.core.seq fun _ _ => ?_
  refine Gate.Reads.replied.seq fun _ _ => ?_
  refine (Gate.Reads.transact (configurationSnapshot_commits.mono fun _ _ hs =>
    ⟨hs, trivial⟩)).seq fun snapshot _ => ?_
  refine Gate.Reads.replied.seq fun _ _ => ?_
  exact Gate.Reads.pure rfl

omit [Ideal] in
theorem askQuiescence_reads {resources : List Name} :
    Gate.Reads (askQuiescence resources) (fun _ => True) h := by
  refine Gate.Reads.handoverSnapshot.seq fun answer _ => ?_
  cases answer with
  | error e => exact Gate.Reads.pure trivial
  | ok q =>
    refine Gate.Reads.clockNow.seq fun now _ => ?_
    split <;> exact Gate.Reads.pure trivial

omit [Ideal] in
theorem confirmQuiescence_reads {resources : List Name} {reason : Option Name} :
    Gate.Reads (confirmQuiescence resources reason) (fun _ => True) h := by
  have hasked : Gate.Reads (if reason.isSome then pure (reason, none) else askQuiescence resources)
      (fun _ => True) h := by
    split
    · exact Gate.Reads.pure trivial
    · exact askQuiescence_reads
  refine hasked.seq fun asked _ => ?_
  refine Gate.Reads.clockNow.seq fun now _ => ?_
  split <;> exact Gate.Reads.pure trivial

omit [Ideal] in
theorem pendingDeliveries_commits :
    pendingDeliveries.Commits (fun _ s' => s' = s) s :=
  commits_bind _ _ |>.mpr rfl

theorem checkConfigurationTarget_reads {reason : Option Name} :
    Gate.Reads (checkConfigurationTarget h.core reason target)
      (fun _ => target.cell ∉ h.core.armed) h := by
  unfold checkConfigurationTarget
  cases h.core.binding target.cell with
  | none => exact Gate.Reads.refuse
  | some b =>
    refine Gate.Reads.replied.seq fun allowed _ => ?_
    refine Gate.Reads.validateScopes.seq fun _ _ => ?_
    refine Gate.Reads.require.seq fun _ hunarmed => ?_
    split <;> exact Gate.Reads.pure hunarmed

omit [Ideal] in
theorem checkConfigurationFence_commits {boot journal : Id} :
    (checkConfigurationFence boot journal target).Commits (fun _ s' => s' = s) s := by
  simp only [checkConfigurationFence, commits_bind, Tx.commits_fetch, commits_ensure,
    Tx.commits_get]
  exact fun _ _ _ _ _ _ _ => trivial

omit [Ideal] in
theorem checkConfiguration_commits {peer : Name} {boot : Id} :
    (checkConfiguration peer boot request).Commits (fun _ s' => s' = s) s := by
  simp only [checkConfiguration, commits_bind, Tx.commits_fetch, commits_ensure, Tx.commits_get]
  intro _ _ _ _
  refine (commits_forM (fun t _ s₁ (hs₁ : s₁ = s) => ?_) rfl).mono ?_
  · subst hs₁
    exact checkConfigurationFence_commits
  rintro _ _ rfl
  exact pendingDeliveries_commits

end Reads

/-- What the commit of an acceptance wrote. -/
structure Configured (s s' : Store) (m : HostMeta) (peer : Name) (r : HostConfiguration.Receipt) :
    Prop where
  journals : s.doc .hostMeta = some m
  next : s'.doc .hostMeta = some m.next
  sequence : r.sequence = m.deliverySeq + 1
  unrecorded : s.doc (.configurationRequest peer r.request.id) = none
  recorded : s'.doc (.configurationRequest peer r.request.id) = some r
  unsettled : s.doc (.configurationSlot peer r.request.change r.request.preparation) = none
  unused : s.doc (.configurationHistory r.sequence) = none
  applied : r.status = .appliedUnqualified → ∀ t ∈ r.request.cells, ∃ x,
    s'.doc (.processContext t.cell) = some x ∧ x.receiptSequence = r.sequence
  frame : Repository.Frame (fun k => k = .hostMeta ∨
    (r.status = .appliedUnqualified ∧ ∃ t ∈ r.request.cells, k = .processContext t.cell) ∨
    k.booked = true ∨
    k = .configurationRequest peer r.request.id ∨
    k = .configurationSlot peer r.request.change r.request.preparation ∨
    k = .configurationHistory r.sequence) s s'

variable {s : Store}

omit [Ideal] in
theorem applyContext_commits {sequence : Counter} {binding : Digest} :
    (applyContext request sequence binding target).Commits (fun _ s' =>
      s'.doc (.processContext target.cell) =
        some (appliedContext request sequence binding target) ∧
      Repository.Frame (fun k => k = .processContext target.cell ∨ k.booked = true) s s') s := by
  simp only [applyContext, commits_bind]
  refine confirmConfigured_commits.mono fun _ s₁ hs₁ => ?_
  simp only [Tx.commits_get, Tx.commits_put, commits_pure]
  intro _
  exact ⟨Repository.doc_write_self _,
    (hs₁.mono fun _ => .inr).trans (.write (.inl rfl) _)⟩

omit [Ideal] in
theorem applyContexts_commits {sequence : Counter} {binding : Digest} {reason : Option Name}
    (hnodup : (request.cells.map HostConfiguration.CellTarget.cell).Nodup) :
    (applyContexts request sequence binding reason).Commits (fun _ s' =>
      (reason = none → ∀ t ∈ request.cells, s'.doc (.processContext t.cell) =
        some (appliedContext request sequence binding t)) ∧
      Repository.Frame (fun k =>
        (reason = none ∧ ∃ t ∈ request.cells, k = .processContext t.cell) ∨
        k.booked = true) s s') s := by
  cases reason with
  | some r => exact ⟨nofun, .refl _ s⟩
  | none =>
    rw [applyContexts, commits_bind]
    refine (Repository.commits_mapM_local
      (fun t k => k = Key.processContext t.cell) (fun k => k.booked = true)
      (fun t _ s' => s'.doc (.processContext t.cell) =
        some (appliedContext request sequence binding t))
      (fun t _ r => applyContext_commits) ?_ ?_ ?_).mono ?_
    · intro t _ _ _ s' _ hs' ht
      exact (Repository.doc_congr (hs' _ rfl)).trans ht
    · refine (List.pairwise_map.mp hnodup).imp fun hne k ht hu => hne ?_
      exact Key.processContext.inj (ht.symm.trans hu)
    · rintro t _ rfl
      exact Bool.false_ne_true
    · rintro _ s' ⟨hrows, hframe⟩
      exact ⟨fun _ => hrows, hframe.mono fun _ hk => hk.imp (⟨rfl, ·⟩) id⟩

theorem recordConfiguration_commits {peer : Name} {boot : Id}
    {digest binding : Digest} {reason : Option Name}
    {quiescence : Option HostConfiguration.Quiescence} {now : TimePoint}
    (hnodup : (request.cells.map HostConfiguration.CellTarget.cell).Nodup) :
    (recordConfiguration peer boot request digest binding reason quiescence now).Commits
      (fun r s' => r.request = request ∧ r.requestDigest = digest ∧ r.hostBoot = boot ∧
        ∃ m, Configured s s' m peer r) s := by
  simp only [recordConfiguration, commits_bind, Tx.commits_nextSequence]
  intro m hm _
  refine (applyContexts_commits hnodup).mono ?_
  rintro effect s₁ ⟨hall, hframe⟩
  simp only [Tx.commits_checked, Tx.commits_put, commits_pure, Option.map_eq_none_iff]
  intro _ hvalid hunrecorded hunsettled hunused
  rw [get_write_of_ne (by simp)] at hunsettled
  rw [get_write_of_ne (by simp), get_write_of_ne (by simp)] at hunused
  have hkept : ∀ k : Key, k ≠ .hostMeta → k.booked = false → (∀ cell, k ≠ .processContext cell) →
      s₁.doc k = s.doc k := by
    intro k hmeta hbook hcontext
    refine (hframe.doc ?_).trans (Store.doc_numbered_of_ne hmeta)
    rintro (⟨-, t, -, rfl⟩ | hk)
    · exact hcontext _ rfl
    · rw [hbook] at hk
      cases hk
  refine ⟨trivial, trivial, trivial, m, {
    journals := hm
    next := ?_
    sequence := rfl
    unrecorded := (hkept _ (by simp) rfl (by simp)).symm.trans (doc_eq_none.mpr hunrecorded)
    recorded := by
      rw [doc_write_of_ne (by simp), doc_write_of_ne (by simp),
        Repository.doc_write_self]
    unsettled := (hkept _ (by simp) rfl (by simp)).symm.trans (doc_eq_none.mpr hunsettled)
    unused := (hkept _ (by simp) rfl (by simp)).symm.trans (doc_eq_none.mpr hunused)
    applied := ?_
    frame := ?_ }⟩
  · rw [doc_write_of_ne (by simp), doc_write_of_ne (by simp),
      doc_write_of_ne (by simp), hframe.doc (by simp [Key.booked]),
      Store.doc_numbered_hostMeta]
  · intro hstatus t ht
    have hreason : reason = none := by
      by_contra hne
      simp [hne] at hstatus
    refine ⟨appliedContext request (m.deliverySeq + 1) binding t, ?_, rfl⟩
    rw [doc_write_of_ne (by simp), doc_write_of_ne (by simp),
      doc_write_of_ne (by simp)]
    exact hall hreason t ht
  · refine (((s.frame_numbered m).mono fun _ => .inl).trans (hframe.mono ?_)).trans
      ((Repository.Frame.write ?_ _).trans
        ((Repository.Frame.write ?_ _).trans (Repository.Frame.write ?_ _)))
    · rintro k (⟨hreason, hk⟩ | hk)
      · exact .inr (.inl ⟨if_pos hreason, hk⟩)
      · exact .inr (.inr (.inl hk))
    · exact .inr (.inr (.inr (.inl rfl)))
    · exact .inr (.inr (.inr (.inr (.inl rfl))))
    · exact .inr (.inr (.inr (.inr (.inr rfl))))

/-- A process configuration was answered: applied to every bound cell, or not at all. -/
inductive ConfigureStep (h : Machine) (caller : Caller) (request : HostConfiguration.Request) :
    HostConfiguration.Receipt → Machine → Prop
  | mk {m : HostMeta} {s : Store} {r : HostConfiguration.Receipt}
      (configured : Configured h.store s m caller.peer r)
      (same : r.request = request)
      (digest : request.digest Ideal.configurationDigest = .ok r.requestDigest)
      (boot : r.hostBoot = h.core.boot)
      (cells : (request.cells.map HostConfiguration.CellTarget.cell).toFinset =
        h.core.cells.toFinset) :
      ConfigureStep h caller request r { h with store := s }

/-- The outcome of an acceptance: the receipt it reports was stored before, or by this call. -/
def ConfigurationOutcome (h : Machine) (caller : Caller) (request : HostConfiguration.Request)
    (r : HostConfiguration.Receipt) (h' : Machine) : Prop :=
  h' = h ∧ h.store.doc (.configurationRequest caller.peer request.id) = some r ∧
      request.digest Ideal.configurationDigest = .ok r.requestDigest ∨
    ConfigureStep h caller request r h'

omit [Ideal] in
theorem validate_nodup {u : Unit} (h : request.validate = .ok u) :
    (request.cells.map HostConfiguration.CellTarget.cell).Nodup := by
  unfold HostConfiguration.Request.validate at h
  split at h
  next hshape => exact hshape.2.2.2.2
  · cases h

/-- `accept_process_configuration` answers from the record of the request, or makes one step. -/
theorem acceptProcessConfiguration_runs {h : Machine} {caller : Caller} :
    Gate.Runs (acceptProcessConfiguration caller request)
      (fun o h' => ∃ r, o.receipt = some r ∧ ConfigurationOutcome h caller request r h')
      (fun _ h' => h' = h ∨ ∃ r, ConfigureStep h caller request r h') h := by
  refine Gate.Reads.replied.bind (fun _ => .inl rfl) fun _ hvalid => ?_
  refine Gate.Reads.replied.bind (fun _ => .inl rfl) fun digest hdigest => ?_
  refine Gate.Reads.authorized.bind (fun _ => .inl rfl) fun _ _ => ?_
  refine Gate.Reads.requireAdmission.bind (fun _ => .inl rfl) fun _ _ => ?_
  refine (Gate.Reads.row _).bind (fun _ => .inl rfl) ?_
  rintro _ rfl
  have hdigest' := Checks.mapError_eq_ok.mp hdigest
  cases hrow : h.store.get (.configurationRequest caller.peer request.id) with
  | some row =>
    refine Gate.Reads.replied.bind (fun _ => .inl rfl) fun _ _ => ?_
    refine Gate.Reads.require.bind (fun _ => .inl rfl) fun _ hsame => ?_
    refine configurationObservation_reads.runs (fun o ho => ?_) fun _ => .inl rfl
    exact ⟨_, ho, .inl ⟨rfl, Repository.doc_of_get hrow, hsame ▸ hdigest'⟩⟩
  | none =>
    refine Gate.Reads.core.bind (fun _ => .inl rfl) ?_
    rintro _ rfl
    refine Gate.Reads.replied.bind (fun _ => .inl rfl) fun binding _ => ?_
    refine Gate.Reads.require.bind (fun _ => .inl rfl) fun _ hcurrent => ?_
    have hfold : Gate.Reads (request.cells.foldlM (checkConfigurationTarget h.core) none)
        (fun _ => ∀ t ∈ request.cells, t.cell ∉ h.core.armed) h :=
      Gate.Reads.foldlM fun _ _ _ => checkConfigurationTarget_reads
    refine hfold.bind (fun _ => .inl rfl) fun reason hunarmed => ?_
    refine (Gate.Reads.transact (checkConfiguration_commits.mono fun _ _ hs =>
      ⟨hs, trivial⟩)).bind (fun _ => .inl rfl) fun pending _ => ?_
    refine confirmQuiescence_reads.bind (fun _ => .inl rfl) fun answer _ => ?_
    refine Always.bind (Gate.Runs.transact ?_ fun _ => .inl rfl)
    refine (recordConfiguration_commits (validate_nodup (Checks.mapError_eq_ok.mp hvalid))).mono ?_
    rintro r s ⟨hrequest, hd, hboot, m, hconfigured⟩
    have hstep : ConfigureStep h caller request r { h with store := s } :=
      .mk hconfigured hrequest (hd ▸ hdigest') hboot hcurrent.2.2.2
    have hdisjoint : h.core.armed \
        (request.cells.map HostConfiguration.CellTarget.cell).toFinset = h.core.armed := by
      refine Finset.sdiff_eq_self_of_disjoint (Finset.disjoint_right.mpr fun x hx => ?_)
      obtain ⟨t, ht, rfl⟩ := List.mem_map.mp (List.mem_toFinset.mp hx)
      exact hunarmed t ht
    refine Always.bind (Gate.Runs.setCore ?_)
    rw [hdisjoint, ite_self]
    refine configurationObservation_reads.runs (fun o ho => ⟨r, ho, .inr hstep⟩)
      fun _ => .inr ⟨r, hstep⟩

end RxSolutions.Host
