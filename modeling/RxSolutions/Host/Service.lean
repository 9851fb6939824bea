import RxSolutions.Host.Gate

/-!
# Lifecycle records the gate reads

The gate asks the service records three things: whether a replaced binding still
waits for its process configuration, on which installation it was started, and which
binding change it runs on.
-/

namespace RxSolutions.Host

open Domain Durable Program

/-- `require_configured`: refuse a cell whose replaced binding is not configured yet. -/
def requireConfigured (cell : Name) : Tx Unit := do
  match ← Tx.get (.hostBindingRequired cell) with
  | some row =>
    ensure (row.document.pending = false)
      (.invalid "binding replacement awaits P process configuration")
  | none => pure ()

/-- `confirm_configured`: the awaited configuration lifts the barrier. -/
def confirmConfigured (cell : Name) (configuration : Digest) (request : Id) : Tx Unit := do
  match ← Tx.get (.hostBindingRequired cell) with
  | some row =>
    if row.document.pending then
      ensure (row.document.configuration = configuration)
        (.invalid "P configuration differs from committed binding target")
      Tx.put (.hostBindingRequired cell) (some row.revision)
        { row.document with pending := false, acknowledgedBy := some request }
    else pure ()
  | none => pure ()

/-- `service_identity`: the installation this boot was started on. -/
def serviceIdentity (boot : Id) : Tx (Option Digest) := do
  match ← Tx.get .serviceLifecycle with
  | none => return none
  | some row =>
    match row.document with
    | .starting (some current) _ identity _ =>
      if current = boot then return some identity else return none
    | .starting none _ _ _ => return none
    | .stopped _ => return none

/-- `pending`: the active binding change. -/
def activePreparation : Tx (Option Preparation) := do
  return (← Tx.get .maintenanceActive).map Row.document

/-- `read_commit`. -/
def readCommit (request : Id) : Tx (Option CommitRecord) := do
  return (← Tx.get (.maintenanceCommit request)).map Row.document

/-- `meta`. -/
def hostMeta : Tx HostMeta := do
  return (← Tx.fetch .hostMeta (.integrity "Host metadata missing")).document

/-- `binding_observation`: the committed binding change this boot runs on. -/
def bindingObservation (binding : Digest) (boot : Id) :
    Tx (Option HostConfiguration.BindingCommit) := do
  let some active ← activePreparation | return none
  if active.state ≠ .committed then return none
  let record ← orThrow (← readCommit active.request)
    (.integrity "committed binding record missing")
  ensure (record.phase = .committed) (.integrity "binding commit phase differs")
  if (← serviceIdentity boot) ≠ some record.afterIdentity ∨ binding ≠ record.afterBindingDigest then
    return none
  let journals ← hostMeta
  ensure (journals.deliveryJournal = record.deliveryJournal ∧
      journals.evidenceJournal = record.evidenceJournal)
    (.integrity "binding commit journal continuity differs")
  return some {
    schema := "rx.host-binding-commit-observation.v1"
    request := record.request
    planDigest := record.planDigest
    cell := record.cell
    beforeConfiguration := record.beforeConfiguration
    afterConfiguration := record.afterConfiguration
    beforeInstallationIdentity := record.beforeIdentity
    afterInstallationIdentity := record.afterIdentity
    deliveryJournal := record.deliveryJournal
    evidenceJournal := record.evidenceJournal
    bindingDigest := binding }

/-- `bind_service_boot`: tie the running boot to its startup marker. -/
def bindServiceBoot (attempt boot : Id) : Tx Unit := do
  let row ← Tx.fetch .serviceLifecycle (.integrity "service startup missing")
  match row.document with
  | .starting hostBoot current identity startup =>
    ensure (current = attempt ∧ hostBoot.all (· = boot))
      (.integrity "service boot binding changed")
    Tx.put .serviceLifecycle (some row.revision) (.starting (some boot) current identity startup)
  | .stopped _ => throw (.invalid "service is not starting")

/-! ## Frames -/

section Frames

variable {s : Store}

theorem requireConfigured_commits {cell : Name} :
    (requireConfigured cell).Commits (fun _ s' => s' = s) s := by
  simp only [requireConfigured, commits_bind, Tx.commits_get]
  cases s.get (.hostBindingRequired cell) <;> simp

theorem confirmConfigured_commits {cell : Name} {configuration : Digest} {request : Id} :
    (confirmConfigured cell configuration request).Commits
      (fun _ s' => Repository.Frame (fun k => k.booked = true) s s') s := by
  simp only [confirmConfigured, commits_bind, Tx.commits_get]
  cases s.get (.hostBindingRequired cell) with
  | none => exact .refl _ s
  | some row =>
    dsimp only
    split
    · simp only [commits_bind, commits_ensure, Tx.commits_put]
      exact fun _ _ => .write (by rfl) _
    · exact .refl _ s

theorem serviceIdentity_commits {boot : Id} :
    (serviceIdentity boot).Commits (fun _ s' => s' = s) s := by
  simp only [serviceIdentity, commits_bind, Tx.commits_get]
  repeat' split
  all_goals rfl

theorem bindingObservation_commits {binding : Digest} {boot : Id} :
    (bindingObservation binding boot).Commits (fun _ s' => s' = s) s := by
  simp only [bindingObservation, activePreparation, readCommit, hostMeta, commits_bind,
    Tx.commits_get, commits_pure]
  split
  · split
    · rfl
    · simp only [commits_bind, commits_orThrow, commits_ensure, Tx.commits_get, commits_pure]
      intro record _ _
      refine serviceIdentity_commits.mono ?_
      rintro _ _ rfl
      split
      · rfl
      · simp only [commits_bind, Tx.commits_fetch, commits_ensure, commits_pure]
        exact fun _ _ _ => trivial
  · rfl

end Frames

end RxSolutions.Host
