import RxSolutions.Host.Service

/-!
# Opening a host, binding a platform, stopping

`withHooks` opens the store under a fresh boot identifier with no platform bound and
no cell armed. `bindPlatform` binds an authenticated session and disarms every cell if
it is another one. A service stop closes admission, disarms every cell and reports
what is left unfinished.
-/

namespace RxSolutions.Host

open Domain Durable Program

/-- The checks on one binding when a host is opened. -/
def Binding.check (host platform : Name) (environment : Environment) (b : Binding) :
    Except HostError Unit := do
  if b.host ≠ host ∨ b.platform ≠ platform ∨ b.environment ≠ environment ∨ b.scopeIds = [] ∨
      b.conditionIds = [] ∨ b.allowedIntents = [] ∨ b.qualificationRevision = 0 ∨
      b.purposes = ∅ then
    throw (.invalid "invalid binding")
  if ¬ b.scopeIds.Nodup ∨ ¬ b.conditionIds.Nodup then
    throw (.invalid "duplicate binding scope/condition")
  forM b.allowedIntents fun intent =>
    (intent.normalized.map fun _ => ()).mapError HostError.invalid

/-- The approved bindings, in cell order. -/
def orderBindings (environment : Environment) (bindings : List Binding) :
    Except HostError (List Binding) := do
  match bindings with
  | [] => throw (.invalid "no approved bindings")
  | first :: _ =>
    forM bindings (Binding.check first.host first.platform environment)
    if ¬ (bindings.map Binding.cell).Nodup then throw (.invalid "duplicate cell binding")
    else return bindings.insertionSort fun a b => a.cell ≤ b.cell

/-- Every scope counter of a new cell is one. -/
def Binding.initialScopes (b : Binding) : Counters :=
  b.scopeIds.foldr (fun n scopes => scopes.insert n 1) ∅

/-- A cell that is not stored yet starts at epoch one without blocks. -/
def openCell (b : Binding) : Tx Unit := do
  match ← Tx.get (.cell b.cell) with
  | some _ => pure ()
  | none =>
    Tx.put (.cell b.cell) none { epoch := 1, scopes := b.initialScopes, blocked := ∅ }

/-- The transaction that opens a store. -/
def openStore (deliveryJournal evidenceJournal : Id) (bindings : List Binding) : Tx Unit := do
  match ← Tx.get .hostMeta with
  | some _ => pure ()
  | none =>
    Tx.put .hostMeta none {
      deliveryJournal := deliveryJournal
      evidenceJournal := evidenceJournal
      deliverySeq := 0 }
  forM bindings openCell

/-- `with_hooks`, on whatever store is there. -/
def withHooks [Ideal] (environment : Environment) (bindings : List Binding) : Gate Unit := do
  let bindings ← replied (orderBindings environment bindings)
  -- generated only for a new store in the source
  let deliveryJournal ← drawId
  let evidenceJournal ← drawId
  transact (openStore deliveryJournal evidenceJournal bindings)
  let boot ← drawId
  setCore { boot := boot, bindings := bindings, caller := none, armed := ∅ }

/-- `bind_platform`: another session than the bound one disarms every cell. -/
def bindPlatform (caller : Caller) : Gate Unit := do
  let c ← core
  require (∀ b ∈ c.bindings, b.platform = caller.peer) .forbidden
  let armed := if ∀ old ∈ c.caller, old.session = caller.session then c.armed else ∅
  setCore { c with caller := some caller, armed := armed }

/-- The request identity of a call: claimed by the same content, or free. -/
def claimRequest (peer method : Name) (request : Id) (semantic : Digest) : Tx Unit := do
  match ← Tx.get (.rpcKey peer method request) with
  | some old => ensure (old.document = semantic) .keyConflict
  | none => Tx.put (.rpcKey peer method request) none semantic

/-- The effect identity of a call, as for its request identity. -/
def claimEffect (peer method effect : Name) (semantic : Digest) : Tx Unit := do
  match ← Tx.get (.rpcEffect peer method effect) with
  | some old => ensure (old.document = semantic) .keyConflict
  | none => Tx.put (.rpcEffect peer method effect) none semantic

/-- `claim_rpc`. -/
def claimRpc (caller : Caller) (method : Name) (request : Id) (semantic : Digest)
    (effect : Option Name) : Gate Unit := do
  authorized caller
  transact do
    claimRequest caller.peer method request semantic
    match effect with
    | none => pure ()
    | some effect => claimEffect caller.peer method effect semantic

/-- `bind_service_boot` of the running host. -/
def bindBoot (attempt : Id) : Gate Unit := do
  let boot := (← core).boot
  transact (bindServiceBoot attempt boot)

/-! ## Stopping -/

/-- The operations that are not finished. -/
def pendingOperations : Tx (List Id) := do
  return ((← Tx.scanDeliveries).filter fun r => r.state.Pending).map DeliveryRecord.operation

/-- The native report proves that nothing is left running on the resources. -/
def NativeShutdown.confirms (n : NativeShutdown) (now : TimePoint) (resources : List Name) : Bool :=
  n.safeToDrop && n.noPendingCommands && decide (n.resources.toFinset = resources.toFinset) &&
    (now.ageNs n.observedAt).any fun age => saturatingAdd age n.uncertaintyNs ≤ 100000000

/-- `service_stop_snapshot`: admission is closed, and every cell is disarmed. -/
def serviceStopSnapshot : Gate StopSnapshot := do
  requireStopping
  let c ← core
  setCore { c with armed := ∅ }
  let pending ← transact pendingOperations
  let native ← nativeShutdown c.resources
  let now ← clockNow
  let healthy ← clockHealthy
  let safe := healthy && native.any fun n => n.confirms now c.resources
  let retained ← journalHead
  return {
    hostBoot := c.boot
    admissionOpen := false
    pendingOperations := pending
    retainedEvidence := retained
    native := native
    safeToDrop := safe
    -- the bindings of a host share the environment of its adapter
    physicalShutdownAssessed :=
      safe && c.bindings.head?.any fun b => b.environment = .physical }

/-! ## What these calls can do -/

theorem orderBindings_ok {environment : Environment} {bindings ordered : List Binding}
    (h : orderBindings environment bindings = .ok ordered) :
    ordered ≠ [] ∧ (ordered.map Binding.cell).Nodup := by
  cases bindings with
  | nil => cases h
  | cons first rest =>
    simp only [orderBindings, bind, Except.bind] at h
    split at h
    · cases h
    split at h
    · cases h
    next hnodup =>
      cases h
      have hperm := List.perm_insertionSort (fun a b : Binding => a.cell ≤ b.cell) (first :: rest)
      refine ⟨fun hnil => ?_, (hperm.map Binding.cell).nodup_iff.mpr (not_not.mp hnodup)⟩
      rw [hnil] at hperm
      exact List.cons_ne_nil first rest hperm.symm.eq_nil

/-- A store that was opened: what was there is kept. -/
structure Opened (s s' : Store) (deliveryJournal evidenceJournal : Id) : Prop where
  keeps : Repository.Keeps (fun _ => True) s s'
  frame : Repository.Frame (fun k => k = .hostMeta ∨ ∃ cell, k = .cell cell) s s'
  journals : s.doc .hostMeta = none → s'.doc .hostMeta = some ⟨deliveryJournal, evidenceJournal, 0⟩

variable {s : Store} {bindings : List Binding}

/-- Opening the cells keeps what is there and touches nothing but cells. -/
theorem openCells_commits :
    (forM bindings openCell : Tx Unit).Commits (fun _ s' =>
      Repository.Keeps (fun _ => True) s s' ∧
      Repository.Frame (fun k => k = .hostMeta ∨ ∃ cell, k = .cell cell) s s') s := by
  refine commits_forM (fun b _ s₁ hs₁ => ?_) ⟨.refl _ s, .refl _ s⟩
  simp only [openCell, commits_bind, Tx.commits_get]
  cases hrow : s₁.get (.cell b.cell) with
  | some row => exact hs₁
  | none =>
    rw [Tx.commits_put]
    intro _
    exact ⟨hs₁.1.trans (.write_new (Repository.doc_eq_none.mpr hrow) _),
      hs₁.2.trans (.write (.inr ⟨b.cell, rfl⟩) _)⟩

theorem openStore_commits {deliveryJournal evidenceJournal : Id} :
    (openStore deliveryJournal evidenceJournal bindings).Commits
      (fun _ s' => Opened s s' deliveryJournal evidenceJournal) s := by
  simp only [openStore, commits_bind, Tx.commits_get]
  cases hmeta : s.get .hostMeta with
  | some row =>
    refine openCells_commits.mono fun _ s' hs' => ⟨hs'.1, hs'.2, fun hnone => ?_⟩
    rw [Repository.doc_of_get hmeta] at hnone
    cases hnone
  | none =>
    simp only [commits_bind, Tx.commits_put]
    intro _
    refine openCells_commits.mono fun _ s' hs' => ⟨?_, ?_, fun _ => ?_⟩
    · exact (Repository.Keeps.write_new (Repository.doc_eq_none.mpr hmeta) _).trans hs'.1
    · exact (Repository.Frame.write (.inl rfl) _).trans hs'.2
    · exact hs'.1 _ trivial _ (Repository.doc_write_self _)

/-- A process was started on the store: its boot is new, no platform is bound and no cell
is armed. -/
inductive OpenStep [Ideal] (d : Disk) : Machine → Prop
  | mk {s : Store} {bindings : List Binding}
      (opened : Opened d.store s (Ideal.freshId d.drawn) (Ideal.freshId (d.drawn + 1)))
      (nonempty : bindings ≠ [])
      (distinct : (bindings.map Binding.cell).Nodup) :
      OpenStep d
        { store := s
          entries := d.entries
          drawn := d.drawn + 3
          core := ⟨Ideal.freshId (d.drawn + 2), bindings, none, ∅⟩ }

variable {h : Machine}

theorem withHooks_runs [Ideal] {environment : Environment} :
    Gate.Runs (withHooks environment bindings) (fun _ h' => OpenStep h.toDisk h')
      (fun _ h' => ∃ n, h.drawn ≤ n ∧ h' = { h with drawn := n }) h := by
  refine Gate.Reads.replied.bind (fun _ => ⟨h.drawn, le_rfl, rfl⟩) fun ordered hordered => ?_
  refine Always.bind (Gate.Runs.drawId (Always.bind (Gate.Runs.drawId ?_)))
  refine Always.bind (Gate.Runs.transact ?_ fun _ => ⟨h.drawn + 2, by simp, rfl⟩)
  refine openStore_commits.mono fun _ s hs => ?_
  refine Always.bind (Gate.Runs.drawId (Gate.Runs.setCore ?_))
  exact .mk hs (orderBindings_ok hordered).1 (orderBindings_ok hordered).2

/-- A platform session was bound. -/
inductive BindStep (h : Machine) (caller : Caller) : Machine → Prop
  | mk (peer : ∀ b ∈ h.core.bindings, b.platform = caller.peer) :
      BindStep h caller { h with core := { h.core with
        caller := some caller
        armed := if ∀ old ∈ h.core.caller, old.session = caller.session then h.core.armed else ∅ } }

theorem bindPlatform_runs {caller : Caller} :
    Gate.Runs (bindPlatform caller) (fun _ => BindStep h caller) (fun _ h' => h' = h) h := by
  refine Gate.Reads.core.bind (fun _ => rfl) ?_
  rintro _ rfl
  refine Gate.Reads.require.bind (fun _ => rfl) fun _ hpeer => ?_
  exact Gate.Runs.setCore ⟨hpeer⟩

/-- Records of calls were written. -/
inductive BookStep (h : Machine) : Machine → Prop
  | mk {s : Store} (frame : Repository.Frame (fun k => k.booked = true) h.store s) :
      BookStep h { h with store := s }

/-- The running boot was tied to its startup marker. -/
inductive BootStep (h : Machine) (attempt : Id) : Machine → Prop
  | mk {hostBoot : Option Id} {identity startup : Digest}
      (starting : h.store.doc .serviceLifecycle =
        some (.starting hostBoot attempt identity startup)) :
      BootStep h attempt { h with
        store := h.store.write .serviceLifecycle
          (.starting (some h.core.boot) attempt identity startup) }

variable {semantic : Digest}

theorem claimRequest_commits {peer method : Name} {request : Id} :
    (claimRequest peer method request semantic).Commits
      (fun _ s' => Repository.Frame (fun k => k.booked = true) s s') s := by
  simp only [claimRequest, commits_bind, Tx.commits_get]
  cases s.get (.rpcKey peer method request) with
  | some old => exact commits_ensure.mpr fun _ => .refl _ s
  | none => exact Tx.commits_put.mpr fun _ => .write (by rfl) _

theorem claimEffect_commits {peer method effect : Name} :
    (claimEffect peer method effect semantic).Commits
      (fun _ s' => Repository.Frame (fun k => k.booked = true) s s') s := by
  simp only [claimEffect, commits_bind, Tx.commits_get]
  cases s.get (.rpcEffect peer method effect) with
  | some old => exact commits_ensure.mpr fun _ => .refl _ s
  | none => exact Tx.commits_put.mpr fun _ => .write (by rfl) _

theorem claimRpc_runs {caller : Caller} {method : Name} {request : Id} {effect : Option Name} :
    Gate.Runs (claimRpc caller method request semantic effect) (fun _ => BookStep h)
      (fun _ h' => h' = h) h := by
  refine Gate.Reads.authorized.bind (fun _ => rfl) fun _ _ => ?_
  refine Gate.Runs.transact ?_ fun _ => rfl
  rw [commits_bind]
  refine claimRequest_commits.mono fun _ s hs => ?_
  cases effect with
  | none => exact ⟨hs⟩
  | some effect => exact claimEffect_commits.mono fun _ s' hs' => ⟨hs.trans hs'⟩

theorem bindBoot_runs {attempt : Id} :
    Gate.Runs (bindBoot attempt) (fun _ => BootStep h attempt) (fun _ h' => h' = h) h := by
  refine Gate.Reads.core.bind (fun _ => rfl) ?_
  rintro _ rfl
  refine Gate.Runs.transact ?_ fun _ => rfl
  simp only [bindServiceBoot, commits_bind, Tx.commits_fetch]
  intro row hrow
  split
  · next hostBoot current identity startup hstarting =>
    simp only [commits_bind, commits_ensure, Tx.commits_put]
    rintro ⟨rfl, -⟩ _
    exact ⟨(Repository.doc_of_get hrow).trans (congrArg some hstarting)⟩
  · exact commits_throw _

theorem pendingOperations_reads :
    Gate.Reads (transact pendingOperations) (· = (h.store.deliveries.filter fun r =>
      r.state.Pending).map DeliveryRecord.operation) h :=
  Gate.Reads.transact ⟨rfl, rfl⟩

/-- `service_stop_snapshot` disarms every cell and changes nothing else. It lists what is
pending. -/
theorem serviceStopSnapshot_runs :
    Gate.Runs serviceStopSnapshot (fun v h' => h' = { h with core := { h.core with armed := ∅ } } ∧
        v.pendingOperations = (h.store.deliveries.filter fun r =>
          r.state.Pending).map DeliveryRecord.operation)
      (fun _ h' => h' = h ∨ h' = { h with core := { h.core with armed := ∅ } }) h := by
  refine Gate.Reads.requireStopping.bind (fun _ => .inl rfl) fun _ _ => ?_
  refine Gate.Reads.core.bind (fun _ => .inl rfl) ?_
  rintro _ rfl
  refine Always.bind (Gate.Runs.setCore ?_)
  refine pendingOperations_reads.bind (fun _ => .inr rfl) fun pending hpending => ?_
  refine Gate.Reads.nativeShutdown.bind (fun _ => .inr rfl) fun native _ => ?_
  refine Gate.Reads.clockNow.bind (fun _ => .inr rfl) fun now _ => ?_
  refine Gate.Reads.clockHealthy.bind (fun _ => .inr rfl) fun healthy _ => ?_
  refine Gate.Reads.journalHead.bind (fun _ => .inr rfl) fun retained _ => ?_
  exact Always.pure ⟨rfl, hpending⟩

end RxSolutions.Host
