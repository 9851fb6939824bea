import RxSolutions.Host.Gate

/-!
# Grants over resources

A grant covers a set of resources under one fence number, which must be above the
maximum recorded for each of them and becomes that maximum. A grant is not handed out
while native work on one of its resources may be under way.
-/

namespace RxSolutions.Host

open Domain Durable Program

/-- The resource has no maximum yet, or one below `fence`. -/
def checkFence (fence : Counter) (resource : Name) : Tx Unit := do
  match ← Tx.get (.resource resource) with
  | none => pure ()
  | some old => ensure (old.document.maximum < fence) (.invalid "stale resource fence")

/-- Make `fence` the maximum of the resource. -/
def raiseFence (fence : Counter) (resource : Name) : Tx Unit := do
  let old ← Tx.get (.resource resource)
  Tx.put (.resource resource) (old.map Row.revision) { resource := resource, maximum := fence }

/-- The commit of a new grant. -/
def recordGrant (request : Id) (fingerprint : Digest) (grant : StoredGrant) : Tx Unit := do
  forM grant.resources (checkFence grant.fence)
  let _ ← grant.resources.mapM (raiseFence grant.fence)
  Tx.put (.grant grant.id) none grant
  Tx.put (.grantRequest request) none (fingerprint, grant)

/-- Native work of the delivery may be under way on one of the resources. -/
def DeliveryRecord.occupies (r : DeliveryRecord) (resources : List Name) : Bool :=
  decide (r.state.InFlight ∧ ∃ x ∈ r.intent.resourceSet, x ∈ resources)

variable [Ideal]

/-- `acquire_grant` for a request that was not recorded before. -/
def issueGrant (caller : Caller) (request : Id) (fingerprint : Digest) (resources : List Name)
    (fence ttlNs : Counter) : Gate StoredGrant := do
  let free ← canHandover resources
  require (free = true) .busy
  let pending ← transact Tx.scanDeliveries
  require (∀ r ∈ pending, r.occupies resources = false) .busy
  let now ← clockNow
  match checkedAdd now.ticksNs ttlNs with
  | none => refuse (.invalid "grant expiry overflow")
  | some expires =>
    let id ← drawId
    let c ← core
    let grant : StoredGrant := {
      id := id
      hostBoot := c.boot
      owner := caller.peer
      session := caller.session
      resources := resources
      fence := fence
      expiresAt := { clockId := now.clockId, ticksNs := expires }
      renewSeq := 0
      ttlNs := ttlNs }
    transact (recordGrant request fingerprint grant)
    return grant

/-- `acquire_grant`. -/
def acquireGrant (caller : Caller) (request : Id) (resources : List Name) (fence ttlNs : Counter) :
    Gate StoredGrant := do
  authorized caller
  requireAdmission
  let resources := sorted resources
  require (resources ≠ [] ∧ ttlNs ≠ 0 ∧ fence ≠ 0 ∧ resources.Nodup) (.invalid "grant fields")
  let c ← core
  require (∀ r ∈ resources, r ∈ c.resources) (.invalid "undeclared resource")
  let fingerprint := Ideal.grantDigest
    { peer := caller.peer, resources := resources, fence := fence, ttlNs := ttlNs }
  match ← transact (Tx.get (.grantRequest request)) with
  | some row =>
    require (row.document.1 = fingerprint) .conflict
    return row.document.2
  | none => issueGrant caller request fingerprint resources fence ttlNs

/-- The grant still holds each of its resources. -/
def checkHeld (fence : Counter) (resource : Name) : Tx Unit := do
  let row ← Tx.fetch (.resource resource) (.invalid "missing fence")
  ensure (row.document.maximum = fence) (.invalid "revoked grant")

/-- The grant after a renewal. -/
def StoredGrant.renewed (g : StoredGrant) (sequence expires : Counter) : StoredGrant :=
  { g with renewSeq := sequence, expiresAt := { g.expiresAt with ticksNs := expires } }

/-- The transaction of `renew_grant`. -/
def recordRenewal (caller : Caller) (boot : Id) (now : TimePoint) (grant : Id)
    (sequence : Counter) : Tx StoredGrant := do
  let row ← Tx.fetch (.grant grant) (.invalid "unknown grant")
  let g := row.document
  ensure (g.hostBoot = boot ∧ g.session = caller.session ∧ g.owner = caller.peer ∧
      g.expiresAt.clockId = now.clockId ∧ now.ticksNs < g.expiresAt.ticksNs ∧ sequence ≠ 0)
    (.invalid "expired/stale grant")
  ensure (g.renewSeq ≤ sequence) (.invalid "old renewal")
  if sequence = g.renewSeq then return g
  else
    forM g.resources (checkHeld g.fence)
    let expires ← orThrow (checkedAdd now.ticksNs g.ttlNs) (.invalid "expiry overflow")
    Tx.put (.grant grant) (some row.revision) (g.renewed sequence expires)
    return g.renewed sequence expires

/-- `renew_grant`. -/
def renewGrant (caller : Caller) (grant : Id) (sequence : Counter) : Gate StoredGrant := do
  authorized caller
  requireAdmission
  let now ← clockNow
  let c ← core
  transact (recordRenewal caller c.boot now grant sequence)

/-! ## What these calls can do -/

/-- What the commit of a new grant wrote. -/
structure Granted (s s' : Store) (request : Id) (fingerprint : Digest) (grant : StoredGrant) :
    Prop where
  newer : ∀ x ∈ grant.resources, ∀ f, s.doc (.resource x) = some f → f.maximum < grant.fence
  absent : s.doc (.grant grant.id) = none
  unrecorded : s.doc (.grantRequest request) = none
  raised : ∀ x ∈ grant.resources, s'.doc (.resource x) = some ⟨x, grant.fence⟩
  stored : s'.doc (.grant grant.id) = some grant
  recorded : s'.doc (.grantRequest request) = some (fingerprint, grant)
  frame : Repository.Frame (fun k => (∃ x ∈ grant.resources, k = .resource x) ∨
    k = .grant grant.id ∨ k = .grantRequest request) s s'

variable {s : Store}

omit [Ideal] in
theorem checkFence_commits {fence : Counter} {x : Name} :
    (checkFence fence x).Commits (fun _ s' => s' = s ∧
      ∀ f, s.doc (.resource x) = some f → f.maximum < fence) s := by
  simp only [checkFence, commits_bind, Tx.commits_get]
  cases hrow : s.get (.resource x) with
  | none => simp [Repository.doc, hrow]
  | some row => simp [Repository.doc, hrow]

omit [Ideal] in
theorem raiseFence_commits {fence : Counter} {x : Name} :
    (raiseFence fence x).Commits (fun _ s' => s'.doc (.resource x) = some ⟨x, fence⟩ ∧
      Repository.Frame (fun k => k = .resource x ∨ False) s s') s := by
  simp only [raiseFence, commits_bind, Tx.commits_get, Tx.commits_put]
  intro _
  exact ⟨Repository.doc_write_self _, .write (.inl rfl) _⟩

omit [Ideal] in
theorem recordGrant_commits {request : Id} {fingerprint : Digest} {grant : StoredGrant}
    (hnodup : grant.resources.Nodup) :
    (recordGrant request fingerprint grant).Commits
      (fun _ s' => Granted s s' request fingerprint grant) s := by
  simp only [recordGrant, commits_bind]
  refine (commits_forM_check fun x _ => checkFence_commits).mono ?_
  rintro _ s ⟨rfl, hnewer⟩
  refine (Repository.commits_mapM_local (fun x k => k = .resource x) (fun _ => False)
    (fun x _ s' => s'.doc (.resource x) = some ⟨x, grant.fence⟩)
    (fun x _ r => raiseFence_commits) ?_ ?_ fun _ _ _ => id).mono ?_
  · intro x _ _ _ s' _ hs' hx
    exact (Repository.doc_congr (hs' _ rfl)).trans hx
  · refine hnodup.imp fun hne k hx hy => hne ?_
    exact Key.resource.inj (hx.symm.trans hy)
  rintro _ s₁ ⟨hraised, hframe⟩
  simp only [Tx.commits_put, Option.map_eq_none_iff]
  intro habsent hunrecorded
  rw [Repository.get_write_of_ne (by simp)] at hunrecorded
  have hkept : ∀ k : Key, (∀ x, k ≠ .resource x) → s₁.get k = s.get k := by
    intro k hk
    refine hframe.get k ?_
    rintro (⟨x, -, rfl⟩ | h)
    · exact hk x rfl
    · exact h
  rw [hkept _ (by simp)] at habsent hunrecorded
  exact {
    newer := hnewer
    absent := Repository.doc_eq_none.mpr habsent
    unrecorded := Repository.doc_eq_none.mpr hunrecorded
    raised := fun x hx => by
      rw [Repository.doc_write_of_ne (by simp), Repository.doc_write_of_ne (by simp)]
      exact hraised x hx
    stored := by rw [Repository.doc_write_of_ne (by simp), Repository.doc_write_self]
    recorded := Repository.doc_write_self _
    frame := by
      refine (hframe.mono ?_).trans ((Repository.Frame.write ?_ _).trans
        (Repository.Frame.write ?_ _))
      · exact fun k hk => hk.elim .inl False.elim
      · exact .inr (.inl rfl)
      · exact .inr (.inr rfl) }

/-- A new grant was issued. -/
inductive GrantStep (h : Machine) (caller : Caller) (request : Id) (resources : List Name)
    (fence ttlNs : Counter) : StoredGrant → Machine → Prop
  | mk {grant : StoredGrant} {s : Store}
      (granted : Granted h.store s request (Ideal.grantDigest
        { peer := caller.peer, resources := sorted resources, fence := fence, ttlNs := ttlNs })
        grant)
      (id : grant.id = Ideal.freshId h.drawn)
      (boot : grant.hostBoot = h.core.boot)
      (covers : grant.resources = sorted resources)
      (fenced : grant.fence = fence)
      (unrenewed : grant.renewSeq = 0)
      (free : ∀ r ∈ h.store.deliveries, r.occupies (sorted resources) = false) :
      GrantStep h caller request resources fence ttlNs grant
        { h with drawn := h.drawn + 1, store := s }

/-- `acquire_grant` answers from the record of the request, or makes one step. -/
theorem acquireGrant_runs {h : Machine} {caller : Caller} {request : Id} {resources : List Name}
    {fence ttlNs : Counter} :
    Gate.Runs (acquireGrant caller request resources fence ttlNs)
      (fun g h' => h' = h ∧ h.store.doc (.grantRequest request) = some (Ideal.grantDigest
          { peer := caller.peer, resources := sorted resources, fence := fence, ttlNs := ttlNs },
          g) ∨
        GrantStep h caller request resources fence ttlNs g h')
      (fun _ h' => h' = h ∨ h' = { h with drawn := h.drawn + 1 }) h := by
  refine Gate.Reads.authorized.bind (fun _ => .inl rfl) fun _ _ => ?_
  refine Gate.Reads.requireAdmission.bind (fun _ => .inl rfl) fun _ _ => ?_
  refine Gate.Reads.require.bind (fun _ => .inl rfl) fun _ hfields => ?_
  refine Gate.Reads.core.bind (fun _ => .inl rfl) ?_
  rintro _ rfl
  refine Gate.Reads.require.bind (fun _ => .inl rfl) fun _ _ => ?_
  refine (Gate.Reads.row _).bind (fun _ => .inl rfl) ?_
  rintro _ rfl
  cases hrow : h.store.get (.grantRequest request) with
  | some row =>
    refine Gate.Reads.require.bind (fun _ => .inl rfl) fun _ hsame => ?_
    have hdoc := Repository.doc_of_get hrow
    exact Always.pure (.inl ⟨rfl, by rw [hdoc, ← hsame]⟩)
  | none =>
    refine Gate.Reads.canHandover.bind (fun _ => .inl rfl) fun free _ => ?_
    refine Gate.Reads.require.bind (fun _ => .inl rfl) fun _ _ => ?_
    refine (Gate.Reads.transact (Tx.commits_scanDeliveries.mpr ⟨rfl, rfl⟩)).bind
      (fun _ => .inl rfl) ?_
    rintro _ rfl
    refine Gate.Reads.require.bind (fun _ => .inl rfl) fun _ hfree => ?_
    refine Gate.Reads.clockNow.bind (fun _ => .inl rfl) fun now _ => ?_
    cases checkedAdd now.ticksNs ttlNs with
    | none => exact Gate.Runs.refuse (.inl rfl)
    | some expires =>
      refine Always.bind (Gate.Runs.drawId ?_)
      refine Gate.Reads.core.bind (fun _ => .inr rfl) ?_
      rintro _ rfl
      refine Always.bind (Gate.Runs.transact ?_ fun _ => .inr rfl)
      refine (recordGrant_commits hfields.2.2.2).mono fun _ s hgranted => ?_
      exact Always.pure (.inr (.mk hgranted rfl rfl rfl rfl rfl hfree))

/-- A grant that still holds its resources was renewed. -/
inductive RenewStep (h : Machine) (grant : Id) (sequence : Counter) : StoredGrant → Machine → Prop
  | mk {g : StoredGrant} {expires : Counter}
      (found : h.store.doc (.grant grant) = some g)
      (boot : g.hostBoot = h.core.boot)
      (newer : g.renewSeq < sequence)
      (held : ∀ x ∈ g.resources, ∃ f, h.store.doc (.resource x) = some f ∧ f.maximum = g.fence) :
      RenewStep h grant sequence (g.renewed sequence expires)
        { h with store := h.store.write (.grant grant) (g.renewed sequence expires) }

omit [Ideal] in
theorem checkHeld_commits {fence : Counter} {x : Name} :
    (checkHeld fence x).Commits (fun _ s' => s' = s ∧
      ∃ f, s.doc (.resource x) = some f ∧ f.maximum = fence) s := by
  simp only [checkHeld, commits_bind, Tx.commits_fetch, commits_ensure]
  intro row hrow hheld
  exact ⟨trivial, _, Repository.doc_of_get hrow, hheld⟩

omit [Ideal] in
/-- `renew_grant` answers from the grant, or makes one step. -/
theorem renewGrant_runs {h : Machine} {caller : Caller} {grant : Id} {sequence : Counter} :
    Gate.Runs (renewGrant caller grant sequence)
      (fun g h' => h' = h ∧ h.store.doc (.grant grant) = some g ∧ g.renewSeq = sequence ∨
        RenewStep h grant sequence g h')
      (fun _ h' => h' = h) h := by
  refine Gate.Reads.authorized.bind (fun _ => rfl) fun _ _ => ?_
  refine Gate.Reads.requireAdmission.bind (fun _ => rfl) fun _ _ => ?_
  refine Gate.Reads.clockNow.bind (fun _ => rfl) fun now _ => ?_
  refine Gate.Reads.core.bind (fun _ => rfl) ?_
  rintro _ rfl
  refine Gate.Runs.transact ?_ fun _ => rfl
  simp only [recordRenewal, commits_bind, Tx.commits_fetch, commits_ensure]
  intro row hrow hvalid hsequence
  have hfound := Repository.doc_of_get hrow
  by_cases heq : sequence = row.document.renewSeq
  · rw [if_pos heq]
    exact .inl ⟨rfl, hfound, heq.symm⟩
  · rw [if_neg heq, commits_bind]
    refine (commits_forM_check fun x _ => checkHeld_commits).mono ?_
    rintro _ _ ⟨rfl, hheld⟩
    simp only [commits_bind, commits_orThrow, Tx.commits_put, commits_pure]
    intro expires _ _
    exact .inr (.mk hfound hvalid.1 (lt_of_le_of_ne hsequence (Ne.symm heq)) hheld)

end RxSolutions.Host
