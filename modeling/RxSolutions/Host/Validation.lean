import RxSolutions.Host.Qualification

/-!
# Checks on a permit

A request is checked twice: against the bindings and the qualification its permit
names, and against the state of the moment (the arm, the fence of the cell, the grant
and the fences of its resources, and the guard of the device).
-/

namespace RxSolutions.Host

open Domain Durable Program

variable [Ideal]

/-- The parent a permit of each purpose must have. -/
def PermitParent.suits : Purpose → PermitParent → Bool
  | .production, .mandate _ | .setup, .mandate _ => true
  | .recovery, .recovery _ _ _ visit => decide (0 < visit)
  | _, _ => false

/-- `validate_identity`. -/
def validateIdentity (r : Request) : Gate Unit := do
  let qualified ← currentTarget r.permit.cell
  match (← core).binding r.permit.cell with
  | none => refuse .forbidden
  | some b =>
    require (r.permit.purpose ∈ b.purposes) .conflict
    let digest ← checked (r.intent.digest Ideal.intentDigest)
    require (digest = r.digest ∧ r.permit.operation = r.operation ∧ r.permit.digest = r.digest ∧
        r.permit.grant = r.grant ∧ r.permit.envelope = b.envelope.sha256 ∧
        r.permit.qualification =
          qualified.elim b.qualification HostQualification.CellTarget.qualification ∧
        r.permit.qualificationRevision =
          qualified.elim b.qualificationRevision
            HostQualification.CellTarget.qualificationRevision ∧
        (∀ q ∈ qualified, r.digest ∈ q.allowedIntents ∧ r.permit.purpose.name ∈ q.purposes) ∧
        ∃ i ∈ b.allowedIntents, (i.digest Ideal.intentDigest).toOption = some r.digest) .conflict
    require (r.permit.parent.suits r.permit.purpose) .conflict
    validateScopes b r.permit.scopes

/-- `same_operation`: the record is about the request's operation, and about its permit if
it names the same one. -/
def SameOperation (record : DeliveryRecord) (r : Request) : Prop :=
  record.digest = r.digest ∧ record.cell = r.permit.cell ∧
    (record.permit = r.permit.id → record.permitDigest = Ideal.permitDigest r.permit)

instance (record : DeliveryRecord) (r : Request) : Decidable (SameOperation record r) :=
  inferInstanceAs (Decidable (_ ∧ _ ∧ (_ → _)))

/-- The cell and the grant a permit that is not retired names. -/
def permitState (r : Request) : Tx (CellState × StoredGrant) := do
  ensure (← Tx.get (.retiredPermit r.permit.id)).isNone (.invalid "retired permit")
  let cell := (← Tx.fetch (.cell r.permit.cell) (.invalid "unknown cell")).document
  let grant := (← Tx.fetch (.grant r.grant) (.invalid "unknown grant")).document
  return (cell, grant)

/-- The grant is the newest one over the resource. -/
def checkResource (fence : Counter) (resource : Name) : Tx Unit := do
  let row ← Tx.fetch (.resource resource) (.invalid "unknown resource")
  ensure (fence = row.document.maximum) (.invalid "stale resource fence")

/-- `validate_current`. -/
def validateCurrent (caller : Caller) (r : Request) (now : TimePoint) : Gate Guard := do
  requireAdmission
  let c ← core
  require (r.permit.hostBoot = c.boot ∧ before now r.permit.expiresAt ∧ r.permit.cell ∈ c.armed)
    .stale
  let _ ← currentTarget r.permit.cell
  let (cell, grant) ← transact (permitState r)
  require (cell.epoch = r.permit.epoch ∧ cell.scopes = r.permit.scopes ∧ cell.blocked = ∅ ∧
      grant.hostBoot = c.boot ∧ grant.owner = caller.peer ∧ grant.session = caller.session ∧
      before now grant.expiresAt ∧ r.permit.expiresAt.clockId = grant.expiresAt.clockId ∧
      r.permit.expiresAt.ticksNs ≤ grant.expiresAt.ticksNs ∧
      ∀ x ∈ r.intent.resourceSet, x ∈ grant.resources) .stale
  transact (forM r.intent.resourceSet (checkResource grant.fence))
  match c.binding r.permit.cell with
  | none => refuse .forbidden
  | some b =>
    require (r.permit.conditions = b.conditionIds.toFinset) .guard
    let guard ← nativeGuard r.intent now
    let session ← qualifiedSession r.permit.cell
    require (∀ s ∈ session, s = guard.deviceSession) .guard
    require (b.conditionIds.toFinset ⊆ guard.satisfied ∧ before now guard.validUntil) .guard
    return guard

/-! ## What the checks establish -/

/-- The request is what its permit says, under the binding of its cell. -/
structure Identified (h : Machine) (r : Request) : Prop where
  binding : ∃ b, h.core.binding r.permit.cell = some b ∧ r.permit.purpose ∈ b.purposes ∧
    r.permit.scopes.keys = b.scopeIds.toFinset
  digest : r.intent.digest Ideal.intentDigest = .ok r.digest
  operation : r.permit.operation = r.operation
  grant : r.permit.grant = r.grant
  target : ∃ t, Targets h r.permit.cell t

variable {r : Request}

theorem validateIdentity_reads {h : Machine} :
    Gate.Reads (validateIdentity r) (fun _ => Identified h r) h := by
  refine currentTarget_reads.seq fun t ht => ?_
  refine Gate.Reads.core.seq ?_
  rintro _ rfl
  cases hb : h.core.binding r.permit.cell with
  | none => exact Gate.Reads.refuse
  | some b =>
    refine Gate.Reads.require.seq fun _ hpurpose => ?_
    refine Gate.Reads.replied.seq fun digest hdigest => ?_
    refine Gate.Reads.require.seq fun _ hsame => ?_
    refine Gate.Reads.require.seq fun _ _ => ?_
    refine Gate.Reads.validateScopes.mono fun _ hscopes => ?_
    have hd : r.intent.digest Ideal.intentDigest = .ok digest := by
      cases hi : r.intent.digest Ideal.intentDigest with
      | ok d => simpa [hi, Except.mapError] using hdigest
      | error e => simp [hi, Except.mapError] at hdigest
    exact {
      binding := ⟨b, hb, hpurpose, hscopes.1⟩
      digest := hsame.1 ▸ hd
      operation := hsame.2.1
      grant := hsame.2.2.2.1
      target := ⟨t, ht⟩ }

/-- The grant carries the newest fence of the resource. -/
def Covers (s : Store) (g : StoredGrant) (resource : Name) : Prop :=
  resource ∈ g.resources ∧ ∃ f, s.doc (.resource resource) = some f ∧ g.fence = f.maximum

/-- The request may go ahead at `now`, under the guard `g` of the device. -/
structure Current (h : Machine) (caller : Caller) (r : Request) (now : TimePoint) (g : Guard) :
    Prop where
  boot : r.permit.hostBoot = h.core.boot
  unexpired : before now r.permit.expiresAt
  armed : r.permit.cell ∈ h.core.armed
  target : ∃ t, Targets h r.permit.cell t
  unretired : h.store.doc (.retiredPermit r.permit.id) = none
  fence : ∃ c, h.store.doc (.cell r.permit.cell) = some c ∧ c.epoch = r.permit.epoch ∧
    c.scopes = r.permit.scopes ∧ c.blocked = ∅
  grant : ∃ k, h.store.doc (.grant r.grant) = some k ∧ k.hostBoot = h.core.boot ∧
    k.owner = caller.peer ∧ k.session = caller.session ∧ before now k.expiresAt ∧
    r.permit.expiresAt.clockId = k.expiresAt.clockId ∧
    r.permit.expiresAt.ticksNs ≤ k.expiresAt.ticksNs ∧
    ∀ x ∈ r.intent.resourceSet, Covers h.store k x
  conditions : ∃ b, h.core.binding r.permit.cell = some b ∧
    r.permit.conditions = b.conditionIds.toFinset ∧ b.conditionIds.toFinset ⊆ g.satisfied
  session : ∀ a, h.store.doc (.acceptedQualification r.permit.cell) = some a →
    a.deviceSession = g.deviceSession
  guarded : before now g.validUntil

omit [Ideal] in
theorem permitState_commits {s : Store} :
    (permitState r).Commits (fun v s' => s' = s ∧ s.doc (.retiredPermit r.permit.id) = none ∧
      s.doc (.cell r.permit.cell) = some v.1 ∧ s.doc (.grant r.grant) = some v.2) s := by
  simp only [permitState, commits_bind, Tx.commits_get, commits_ensure, Tx.commits_fetch,
    commits_pure]
  intro hretired cell hcell grant hgrant
  exact ⟨trivial, by simpa using hretired, Repository.doc_of_get hcell,
    Repository.doc_of_get hgrant⟩

omit [Ideal] in
theorem checkResource_commits {s : Store} {fence : Counter} {resource : Name} :
    (checkResource fence resource).Commits (fun _ s' => s' = s ∧
      ∃ f, s.doc (.resource resource) = some f ∧ fence = f.maximum) s := by
  simp only [checkResource, commits_bind, Tx.commits_fetch, commits_ensure]
  intro row hrow hfence
  exact ⟨trivial, _, Repository.doc_of_get hrow, hfence⟩

theorem validateCurrent_reads {h : Machine} {caller : Caller} {now : TimePoint} :
    Gate.Reads (validateCurrent caller r now) (Current h caller r now) h := by
  refine Gate.Reads.requireAdmission.seq fun _ _ => ?_
  refine Gate.Reads.core.seq ?_
  rintro _ rfl
  refine Gate.Reads.require.seq fun _ hstale => ?_
  refine currentTarget_reads.seq fun t ht => ?_
  refine (Gate.Reads.transact permitState_commits).seq ?_
  rintro ⟨cell, grant⟩ ⟨hretired, hcell, hgrant⟩
  refine Gate.Reads.require.seq fun _ hmatch => ?_
  obtain ⟨hepoch, hscopes, hblocked, hboot, howner, hsession, hbefore, hclock, hticks, hcover⟩ :=
    hmatch
  refine (Gate.Reads.transact
    (commits_forM_check fun x _ => checkResource_commits)).seq fun _ hfences => ?_
  cases hb : h.core.binding r.permit.cell with
  | none => exact Gate.Reads.refuse
  | some b =>
    refine Gate.Reads.require.seq fun _ hconditions => ?_
    refine Gate.Reads.nativeGuard.seq fun guard _ => ?_
    refine qualifiedSession_reads.seq ?_
    rintro _ rfl
    refine Gate.Reads.require.seq fun _ hdevice => ?_
    refine Gate.Reads.require.seq fun _ hguard => ?_
    refine Gate.Reads.pure {
      boot := hstale.1
      unexpired := hstale.2.1
      armed := hstale.2.2
      target := ⟨t, ht⟩
      unretired := hretired
      fence := ⟨cell, hcell, hepoch, hscopes, hblocked⟩
      grant := ⟨grant, hgrant, hboot, howner, hsession, hbefore, hclock, hticks,
        fun x hx => ⟨hcover x hx, hfences x hx⟩⟩
      conditions := ⟨b, hb, hconditions, hguard.1⟩
      session := fun a ha => hdevice _ (by simp [ha])
      guarded := hguard.2 }

end RxSolutions.Host
