import RxSolutions.Host.Configuration
import RxSolutions.Host.Ideal
import RxSolutions.Host.Lifecycle

/-!
# Startup, sealed stops and offline binding changes

The service marks its startup in the store before it opens the gate, and seals the state
it leaves when it stops. While it is down, a tool prepares a change of the bindings against
that seal, cancels it, or commits it in stages: a reservation in the store, a native
generation beside it, the descriptor `installation.json`, and a last transaction.

A tool is a program over the store and the files. Each of its effects may be where it ends:
the process dies there, or the operation fails. What it did before stays.
-/

namespace RxSolutions.Host

open Domain Durable Program

/-! ## What a binding change is about -/

/-- The package of a device, by its digests. -/
structure DevicePackage where
  manifest : Digest
  signature : Digest
  catalog : ArtifactRef
  deriving DecidableEq

/-- What a plan says about the host. -/
structure HostTarget where
  requiredIntents : List Intent
  requiredConditions : Finset Name
  devicePackages : List DevicePackage
  otherAffectedCells : Finset Name
  deriving DecidableEq

/-- The approved change of the bindings of a cell. -/
structure Plan where
  schema : Name
  installation : Id
  cell : Name
  deviceContextDigest : Digest
  processReviewDigest : Digest
  beforeConfiguration : ArtifactRef
  afterConfiguration : ArtifactRef
  definition : ArtifactRef
  envelope : ArtifactRef
  environment : Name
  scopes : Finset Name
  hosts : List (Name × HostTarget)
  deriving DecidableEq

/-- A startup configuration with the bindings it pins, and the identity of both. -/
structure Loaded where
  config : Configuration
  bindings : List Binding
  identity : Digest

/-- `generation.json` of a native generation. -/
structure Generation where
  request : Id
  proposedIdentity : Digest
  native : Option NativeInstallation
  deriving DecidableEq

/-- A stored row with its key. -/
abbrev Record := (k : Key) × Row k.Doc

/-- Digests of the service without collisions. -/
class ServiceIdeal where
  startupDigest : Configuration ↪ Digest
  stateDigest : Multiset Record ↪ Digest
  requestDigest : Plan × Digest × Digest × Configuration ↪ Digest
  planDigest : Plan ↪ Digest
  generationDigest : Generation ↪ Digest

/-- The operational records: neither of the service lifecycle nor of maintenance. The source
sorts them by key, so their order does not matter. -/
def Store.records (s : Store) : Multiset Record :=
  (s.rows.entries.filter fun r => !r.1.service : List Record)

/-- `operational_digest`. -/
def Store.operationalDigest [ServiceIdeal] (s : Store) : Digest :=
  ServiceIdeal.stateDigest s.records

/-- The content a request to change the bindings is identified by. -/
def changeDigest [ServiceIdeal] (plan : Plan) (current proposed : Loaded) : Digest :=
  ServiceIdeal.requestDigest (plan, current.identity, proposed.identity, proposed.config)

/-! ## Startup and stop -/

/-- The change is neither committed nor cancelled. -/
def PreparationState.Unresolved (s : PreparationState) : Prop := s = .prepared ∨ s = .committing

instance (s : PreparationState) : Decidable s.Unresolved :=
  inferInstanceAs (Decidable (s = .prepared ∨ s = .committing))

/-- `begin_startup`: mark that the service starts, unless a binding change is unresolved. -/
def beginStartup (identity startup : Digest) (attempt : Id) : Tx Unit := do
  let active ← activePreparation
  ensure (∀ p ∈ active, ¬ p.state.Unresolved)
    (.unavailable "Host binding preparation must be resolved before startup")
  let old ← Tx.get .serviceLifecycle
  Tx.put .serviceLifecycle (old.map Row.revision) (.starting none attempt identity startup)
  Tx.put (.serviceStart attempt) none (.starting none attempt identity startup)

/-- The stored generation of a cell fits its binding. -/
def checkCell (b : Binding) : Tx Unit := do
  let state := (← Tx.fetch (.cell b.cell) (.integrity "Host cell state missing")).document
  ensure (state.epoch ≠ 0 ∧ state.scopes.keys = b.scopeIds.toFinset ∧ state.scopes.Positive)
    (.integrity "Host cell generation differs")

/-- The transaction of a startup: the journals and cells are those of the installation. -/
def startupTransaction [ServiceIdeal] (loaded : Loaded) (descriptor : Installation)
    (attempt : Id) : Tx Unit := do
  let journals := (← Tx.fetch .hostMeta (.integrity "Host journal metadata missing")).document
  ensure (journals.deliveryJournal = descriptor.deliveryJournal ∧
      journals.evidenceJournal = descriptor.evidenceJournal)
    (.integrity "Host journal generation differs")
  forM loaded.bindings checkCell
  beginStartup loaded.identity (ServiceIdeal.startupDigest loaded.config) attempt

/-- The transaction of `seal_stop`. -/
def sealLifecycle (identity startup : Digest) (attempt : Id) (stateDigest : Digest)
    (tail : Counter) (snapshot : StopSnapshot) : Tx StopSeal := do
  let row ← Tx.fetch .serviceLifecycle (.integrity "startup marker absent")
  match row.document with
  | .starting _ current installed configured =>
    ensure (current = attempt ∧ installed = identity ∧ configured = startup)
      (.integrity "Host startup attempt changed")
    let journals ← hostMeta
    let sealed : StopSeal := {
      attempt := attempt
      installationIdentity := identity
      startupConfigurationDigest := startup
      deliveryJournal := journals.deliveryJournal
      evidenceJournal := journals.evidenceJournal
      deliverySequence := journals.deliverySeq
      journalTail := tail
      stateDigest := stateDigest
      snapshot := snapshot }
    Tx.put .serviceLifecycle (some row.revision) (.stopped sealed)
    Tx.put (.serviceStop attempt) none sealed
    return sealed
  | .stopped _ => throw (.integrity "Host startup attempt changed")

/-- `seal_service_stop` after its snapshot was taken, under the lock again. -/
def sealServiceStop [ServiceIdeal] (identity startup : Digest) (attempt : Id)
    (snapshot : StopSnapshot) : Gate StopSeal := do
  requireStopping
  require ((← core).boot = snapshot.hostBoot) .guard
  require (snapshot.admissionOpen = false ∧ snapshot.safeToDrop = true)
    (.store (.invalid "current closed-admission native drop proof required"))
  let stateDigest ← transact do return (← MonadState.get).operationalDigest
  let tail ← journalHead
  transact (sealLifecycle identity startup attempt stateDigest tail snapshot)

/-! ## Tools -/

/-- The files beside the store: the descriptor, and `generation.json` of each native
generation by its path. -/
structure Files where
  descriptor : Installation
  generations : String → Option Generation

/-- What a tool works on. -/
structure Installed where
  store : Store
  files : Files

/-- How the environment ends a tool at one of its effects. -/
inductive Ending
  /-- The process dies. -/
  | died
  /-- The operation fails, and the tool reports the error. -/
  | failed (detail : String)
  deriving DecidableEq

/-- What the environment answers to one effect of a tool. Each effect reads its own field. -/
structure Reply where
  ended : Option Ending
  checked : Except String Unit
  inspection : Except String Bool
  native : Except String (Option NativeInstallation)

/-- How a tool ends without a result: the environment ends it, or it refuses what it finds. -/
inductive Halt
  | ended (how : Ending)
  | refused (reason : String)
  | store (error : StoreError)
  deriving DecidableEq

/-- A tool at work, and the answers it will get. -/
structure OfflineState where
  installed : Installed
  replies : ℕ → Reply
  tick : ℕ

/-- Programs of a tool. -/
abbrev Offline (α : Type) := Program OfflineState Halt α

namespace Offline

variable {α : Type}

/-- The next answer. The tool may end here. -/
def reply : Offline Reply := do
  let s ← get
  set { s with tick := s.tick + 1 }
  match (s.replies s.tick).ended with
  | some how => throw (.ended how)
  | none => return s.replies s.tick

/-- Refuse for `reason` unless `p` holds. -/
def check (p : Prop) [Decidable p] (reason : String) : Offline Unit := ensure p (.refused reason)

/-- An answer that may be an error. -/
def replied (r : Except String α) : Offline α :=
  match r with
  | .ok a => pure a
  | .error e => throw (.refused e)

/-- What is found on the file system: real directories and files, and nobody else holds the
runtime lock. -/
def checkFiles : Offline Unit := do replied (← reply).checked

/-- `binding_change::inspect`: whether the proposed software matches the plan. -/
def inspect (_plan : Plan) (_current _proposed : Loaded) : Offline Bool := do
  replied (← reply).inspection

/-- `initialize_metadata`. -/
def initializeMetadata (_backend : Backend) : Offline (Option NativeInstallation) := do
  replied (← reply).native

/-- `transact` of the store: commit all writes of the body, or none if it fails. -/
def transact (t : Tx α) : Offline α := do
  let _ ← reply
  let s ← get
  match t s.installed.store with
  | (.ok v, store) =>
    set { s with installed := { s.installed with store := store } }
    return v
  | (.error e, _) => throw (.store e)

/-- `read_installation`. -/
def readInstallation : Offline Installation := do
  let _ ← reply
  return (← get).installed.files.descriptor

/-- The generation at a path, if there is one. -/
def findGeneration (path : String) : Offline (Option Generation) := do
  let _ ← reply
  return (← get).installed.files.generations path

/-- Read a generation that must be there. -/
def readGeneration (path : String) : Offline Generation := do
  orThrow (← findGeneration path) (.refused "native generation missing")

/-- Replace the descriptor by renaming a complete file over it. -/
def persist (descriptor : Installation) : Offline Unit := do
  let _ ← reply
  modify fun s => { s with installed.files.descriptor := descriptor }

/-- `publish_installation` of a staged generation: a rename that replaces nothing. -/
def publishGeneration (path : String) (generation : Generation) : Offline Unit := do
  check (← findGeneration path).isNone "native generation exists"
  modify fun s => { s with
    installed.files.generations := Function.update s.installed.files.generations path generation }

end Offline

/-- The maintenance protocol of a descriptor. -/
def Installation.Maintained (d : Installation) : Prop :=
  d.maintenanceProtocol = some "rx.host-maintenance.v1" ∧ d.schema = "rx.host-installation.v2"

instance (d : Installation) : Decidable d.Maintained :=
  inferInstanceAs (Decidable (_ ∧ _))

/-- The journals of the store are those of the descriptor. -/
def sameJournals (descriptor : Installation) : Tx Unit := do
  let journals ← hostMeta
  ensure (journals.deliveryJournal = descriptor.deliveryJournal ∧
      journals.evidenceJournal = descriptor.evidenceJournal)
    (.integrity "Host journal generation differs")

open Offline in
/-- `run_with` up to `begin_startup`. -/
def runStartup [ServiceIdeal] (loaded : Loaded) (attempt : Id) : Offline Unit := do
  checkFiles
  let descriptor ← readInstallation
  check (((descriptor.schema = "rx.host-installation.v1" ∧ descriptor.maintenanceProtocol = none) ∨
      descriptor.Maintained) ∧ descriptor.identity = loaded.identity ∧
      descriptor.installation = loaded.config.installation ∧ descriptor.host = loaded.config.host)
    "Host installation identity differs"
  Offline.transact (startupTransaction loaded descriptor attempt)

/-! ## Preparing and cancelling a change -/

open Offline in
/-- `stopped_store`. -/
def stoppedStore (loaded : Loaded) : Offline Unit := do
  checkFiles
  let descriptor ← readInstallation
  check (descriptor.Maintained ∧ descriptor.identity = loaded.identity ∧
      descriptor.installation = loaded.config.installation ∧ descriptor.host = loaded.config.host)
    "current Host installation differs"
  Offline.transact (sameJournals descriptor)

/-- What a preparation records of a change. -/
def Preparation.of [ServiceIdeal] (plan : Plan) (current proposed : Loaded) (request : Id)
    (stop : StopSeal) : Preparation where
  request := request
  requestDigest := changeDigest plan current proposed
  state := .prepared
  planDigest := ServiceIdeal.planDigest plan
  currentIdentity := current.identity
  proposedIdentity := proposed.identity
  proposedBindingsDigest := proposed.config.bindings.sha256
  proposedConfiguration := proposed.config
  stop := stop
  installationChanged := false
  activationAuthorized := false

/-- The stop of the service was sealed over the state that is there now, with nothing pending. -/
def StopSeal.Fresh [ServiceIdeal] (s : StopSeal) (current : Loaded) (journals : HostMeta)
    (stateDigest : Digest) (tail : Counter) : Prop :=
  s.startupConfigurationDigest = ServiceIdeal.startupDigest current.config ∧
  s.installationIdentity = current.identity ∧
  s.deliveryJournal = journals.deliveryJournal ∧ s.evidenceJournal = journals.evidenceJournal ∧
  s.deliverySequence = journals.deliverySeq ∧ s.journalTail = tail ∧
  s.stateDigest = stateDigest ∧ s.snapshot.pendingOperations = []

instance [ServiceIdeal] (s : StopSeal) (current : Loaded) (journals : HostMeta)
    (stateDigest : Digest) (tail : Counter) :
    Decidable (s.Fresh current journals stateDigest tail) :=
  inferInstanceAs (Decidable (_ ∧ _ ∧ _ ∧ _ ∧ _ ∧ _ ∧ _ ∧ _))

/-- The transaction of `prepare`. -/
def prepareTransaction [ServiceIdeal] (plan : Plan) (current proposed : Loaded) (request : Id)
    (stateDigest : Digest) (tail : Counter) : Tx Preparation := do
  match ← Tx.get (.maintenanceRequest request) with
  | some row =>
    ensure (row.document.requestDigest = changeDigest plan current proposed) .keyConflict
    return row.document
  | none =>
    let active ← activePreparation
    ensure (∀ p ∈ active, ¬ p.state.Unresolved)
      (.unavailable "another Host binding preparation is pending")
    match (← Tx.fetch .serviceLifecycle (.invalid "no durable normal-stop proof")).document with
    | .starting _ _ _ _ => throw (.invalid "Host startup was not followed by a sealed stop")
    | .stopped stop =>
      let journals ← hostMeta
      ensure (stop.Fresh current journals stateDigest tail)
        (.invalid "Host stop proof/state is stale or reconciliation is required")
      let p := Preparation.of plan current proposed request stop
      let old ← Tx.get .maintenanceActive
      Tx.put .maintenanceActive (old.map Row.revision) p
      Tx.put (.maintenanceRequest request) none p
      Tx.put (.maintenancePrepared request) none p
      return p

open Offline in
/-- `prepare_inner`. -/
def prepareInner [ServiceIdeal] (plan : Plan) (current proposed : Loaded) (request : Id) :
    Offline Preparation := do
  check (← inspect plan current proposed)
    "proposed Host configuration does not match the plan"
  stoppedStore current
  let stateDigest ← Offline.transact do return (← MonadState.get).operationalDigest
  let tail ← Offline.transact do return (← MonadState.get).journalHead
  Offline.transact (prepareTransaction plan current proposed request stateDigest tail)

/-- The transaction of `cancel`. -/
def cancelTransaction (request : Id) : Tx Preparation := do
  let row ← Tx.fetch (.maintenanceRequest request) (.invalid "Host preparation absent")
  if row.document.state = .cancelled then return row.document
  else
    ensure (row.document.state = .prepared)
      (.invalid "binding commit cannot be cancelled; recover its original request")
    let active ← Tx.fetch .maintenanceActive (.integrity "active preparation missing")
    ensure (active.document.request = request ∧
        active.document.requestDigest = row.document.requestDigest)
      (.integrity "Host preparation identity differs")
    let p := { row.document with state := .cancelled }
    Tx.put (.maintenanceRequest request) (some row.revision) p
    Tx.put .maintenanceActive (some active.revision) p
    Tx.put (.maintenanceCancelled request) none p
    return p

/-- `cancel`. -/
def cancel (current : Loaded) (request : Id) : Offline Preparation := do
  stoppedStore current
  Offline.transact (cancelTransaction request)

/-! ## Committing a change -/

open Offline in
/-- `existing_store`: the installation may already be the changed one. -/
def existingStore (loaded : Loaded) : Offline Installation := do
  checkFiles
  let descriptor ← readInstallation
  check (descriptor.Maintained ∧ descriptor.installation = loaded.config.installation ∧
      descriptor.host = loaded.config.host) "Host maintenance identity differs"
  checkFiles
  Offline.transact (sameJournals descriptor)
  return descriptor

/-- The scopes of a binding stay the same. -/
def sameScopes (proposed : Loaded) (old : Binding) : Offline Unit := do
  let next ← orThrow (proposed.bindings.find? fun b => b.cell = old.cell)
    (.refused "cell cohort changed")
  Offline.check (old.scopeIds.toFinset = next.scopeIds.toFinset)
    "scope topology change needs a separate migration"

/-- The bindings in cell order, the last one of each cell. -/
def bindingsByCell (bindings : List Binding) : List Binding :=
  (bindings.foldl (fun found b => b :: found.filter fun c => c.cell ≠ b.cell) []).insertionSort
    fun a b => a.cell ≤ b.cell

/-- Where the native generation of a change is put. -/
def generationPath (request : Id) : String := "native-generations/" ++ request

/-- What is reserved for a change: the installation stays as it is. -/
def CommitRecord.of (plan : Plan) (current proposed : Loaded) (request : Id)
    (fingerprint planDigest binding : Digest) (descriptor : Installation) : CommitRecord where
  schema := "rx.host.binding-commit.v1"
  request := request
  requestDigest := fingerprint
  planDigest := planDigest
  cell := plan.cell
  beforeConfiguration := plan.beforeConfiguration.sha256
  afterConfiguration := plan.afterConfiguration.sha256
  afterBindingDigest := binding
  beforeIdentity := current.identity
  afterIdentity := proposed.identity
  phase := .reserved
  nativeGeneration := generationPath request
  deliveryJournal := descriptor.deliveryJournal
  evidenceJournal := descriptor.evidenceJournal
  activationAuthorized := false
  generationDigest := none
  beforeDescriptor := descriptor
  afterDescriptor := none

/-- The first transaction of `commit`. -/
def reserve [Ideal] (plan : Plan) (current proposed : Loaded) (request : Id) (fingerprint : Digest)
    (descriptor : Installation) (stateDigest : Digest) (tail : Counter) : Tx CommitRecord := do
  let row ← Tx.fetch (.maintenanceRequest request) (.invalid "binding preparation missing")
  let active ← orThrow (← activePreparation) (.invalid "active preparation missing")
  ensure (row.document.state = .prepared ∧ active.request = request ∧
      row.document.requestDigest = fingerprint ∧ row.document.stop.stateDigest = stateDigest ∧
      row.document.stop.journalTail = tail)
    (.invalid "binding preparation or normal-stop state changed")
  let canonical ← Tx.checked ((bindingsByCell proposed.bindings).mapM Binding.canonical)
    fun e => .invalid ("invalid input: " ++ e)
  let value := CommitRecord.of plan current proposed request fingerprint row.document.planDigest
    (Ideal.bindingsDigest canonical) descriptor
  let p := { row.document with state := .committing }
  Tx.put (.maintenanceRequest request) (some row.revision) p
  let activeRow ← Tx.fetch .maintenanceActive (.integrity "active preparation disappeared")
  Tx.put .maintenanceActive (some activeRow.revision) p
  Tx.put (.maintenanceCommit request) none value
  return value

/-- The service has not run since the stop that was sealed as `stop`. -/
def Lifecycle.StoppedAt (l : Lifecycle) (stop : StopSeal) : Prop :=
  match l with
  | .stopped s => s.attempt = stop.attempt
  | .starting _ _ _ _ => False

instance (l : Lifecycle) (stop : StopSeal) : Decidable (l.StoppedAt stop) :=
  match l with
  | .stopped s => inferInstanceAs (Decidable (s.attempt = stop.attempt))
  | .starting _ _ _ _ => inferInstanceAs (Decidable False)

/-- The second transaction of `commit`: the change is still the one that was prepared. -/
def verifyStopped (request : Id) (fingerprint stateDigest : Digest) (tail : Counter) : Tx Unit := do
  let p := (← Tx.fetch (.maintenanceRequest request)
    (.integrity "original preparation missing")).document
  let active ← orThrow (← activePreparation) (.integrity "active commit missing")
  let lifecycle := (← Tx.fetch .serviceLifecycle (.integrity "stop state missing")).document
  ensure (p.state = .committing ∧ active.state = .committing ∧ active.request = request ∧
      p.requestDigest = fingerprint ∧ p.stop.stateDigest = stateDigest ∧
      p.stop.journalTail = tail ∧ lifecycle.StoppedAt p.stop)
    (.invalid "original stopped state changed during binding commit")

/-- The descriptor a change leads to with its native generation. -/
def CommitRecord.target (c : CommitRecord) (g : Generation) : Installation :=
  { c.beforeDescriptor with
    identity := g.proposedIdentity
    native := g.native
    nativeDirectory := some c.nativeGeneration }

/-- The record of a change whose native generation is in place. -/
def CommitRecord.ready [ServiceIdeal] (c : CommitRecord) (g : Generation) : CommitRecord :=
  { c with
    generationDigest := some (ServiceIdeal.generationDigest g)
    afterDescriptor := some (c.target g)
    phase := .nativeReady }

/-- Replace the record of a change. -/
def replaceCommit (request : Id) (record : CommitRecord) : Tx Unit := do
  let row ← Tx.fetch (.maintenanceCommit request) (.integrity "commit record missing")
  Tx.put (.maintenanceCommit request) (some row.revision) record

open Offline in
/-- The part of `commit` from `Reserved` to `NativeReady`. -/
def stageNative [ServiceIdeal] (proposed : Loaded) (request : Id) (record : CommitRecord) :
    Offline CommitRecord := do
  checkFiles
  match ← findGeneration record.nativeGeneration with
  | some _ => pure ()
  | none =>
    let native ← initializeMetadata proposed.config.backend
    publishGeneration record.nativeGeneration
      { request := request, proposedIdentity := proposed.identity, native := native }
  checkFiles
  let generation ← readGeneration record.nativeGeneration
  check (generation.request = request ∧ generation.proposedIdentity = proposed.identity)
    "native generation belongs to another transition"
  Offline.transact (replaceCommit request (record.ready generation))
  return record.ready generation

/-- A reserved change gets its native generation; a later phase has it. -/
def ensureNative [ServiceIdeal] (proposed : Loaded) (request : Id) (record : CommitRecord) :
    Offline CommitRecord :=
  if record.phase = .reserved then stageNative proposed request record else pure record

open Offline in
/-- Install the changed descriptor, unless it is installed. -/
def publishDescriptor (record : CommitRecord) : Offline Unit := do
  let installed ← readInstallation
  let after ← orThrow record.afterDescriptor (.refused "proposed descriptor missing")
  if installed = after then pure ()
  else
    check (installed = record.beforeDescriptor)
      "installation changed outside the original binding commit"
    persist after

/-- The last transaction of `commit`. -/
def finishCommit (plan : Plan) (request : Id) (record : CommitRecord) : Tx Unit := do
  let row ← Tx.fetch (.maintenanceRequest request) (.integrity "preparation missing")
  ensure (row.document.state = .committing ∧ row.document.requestDigest = record.requestDigest)
    (.integrity "commit preparation changed")
  let p := { row.document with state := .committed, installationChanged := true }
  Tx.put (.maintenanceRequest request) (some row.revision) p
  let active ← Tx.fetch .maintenanceActive (.integrity "active preparation missing")
  Tx.put .maintenanceActive (some active.revision) p
  replaceCommit request { record with phase := .committed }
  let old ← Tx.get (.hostBindingRequired plan.cell)
  Tx.put (.hostBindingRequired plan.cell) (old.map Row.revision)
    { configuration := plan.afterConfiguration.sha256, pending := true, acknowledgedBy := none }

open Offline in
/-- `commit` from a reserved change on. -/
def completeCommit [ServiceIdeal] (plan : Plan) (proposed : Loaded) (request : Id)
    (fingerprint : Digest) (record : CommitRecord) : Offline CommitRecord := do
  let stateDigest ← Offline.transact do return (← MonadState.get).operationalDigest
  let tail ← Offline.transact do return (← MonadState.get).journalHead
  Offline.transact (verifyStopped request fingerprint stateDigest tail)
  let record ← ensureNative proposed request record
  let generation ← readGeneration record.nativeGeneration
  check (record.generationDigest = some (ServiceIdeal.generationDigest generation))
    "staged native generation changed"
  publishDescriptor record
  Offline.transact (finishCommit plan request record)
  return { record with phase := .committed }

open Offline in
/-- `commit_inner`. -/
def commitInner [Ideal] [ServiceIdeal] (plan : Plan) (current proposed : Loaded) (request : Id) :
    Offline CommitRecord := do
  check (∀ b ∈ current.bindings ++ proposed.bindings, b.environment = .simulation)
    "binding commit currently requires simulation qualification scope"
  check (← inspect plan current proposed) "proposed binding does not match approved plan"
  forM current.bindings (sameScopes proposed)
  let fingerprint := changeDigest plan current proposed
  let descriptor ← existingStore current
  match ← Offline.transact (readCommit request) with
  | some old =>
    check (old.requestDigest = fingerprint) "original binding commit request differs"
    if old.phase = .committed then
      check (old.afterDescriptor = some descriptor)
        "committed binding is no longer installed; no rollback performed"
      return old
    else completeCommit plan proposed request fingerprint old
  | none =>
    check (descriptor.identity = current.identity) "current Host descriptor differs"
    let stateDigest ← Offline.transact do return (← MonadState.get).operationalDigest
    let tail ← Offline.transact do return (← MonadState.get).journalHead
    let record ← Offline.transact
      (reserve plan current proposed request fingerprint descriptor stateDigest tail)
    completeCommit plan proposed request fingerprint record

/-! ## Collision-free digests exist -/

deriving instance Countable for
  HostMeta, CellState, ReceiptState, DeliveryRecord, StoredGrant, GateReceipt, VoidRecord,
  ResourceFence, Accepted, Destination, PublicationCursor

deriving instance Countable for HostConfiguration.AppliedContext, HostConfiguration.Status,
  HostConfiguration.Effect, HostConfiguration.Quiescence, HostConfiguration.Receipt

deriving instance Countable for HostQualification.Status, HostQualification.Receipt

deriving instance Countable for NativeShutdown, StopSnapshot, StopSeal, Lifecycle, PinnedFile,
  Backend, TlsFiles, Publication, Configuration, NativeInstallation, Installation,
  PreparationState, Preparation, Phase, CommitRecord, BindingRequirement

deriving instance Countable for DevicePackage, HostTarget, Plan, Generation, Key, Row

instance countableDoc (k : Key) : Countable k.Doc := by
  cases k <;> (unfold Key.Doc; infer_instance)

/-- What is assumed of the digests of the service is consistent. -/
theorem ServiceIdeal.nonempty : Nonempty ServiceIdeal := by
  have h := exists_embedding
  have : Countable (Multiset Record) := Quotient.countable
  exact ⟨{
    startupDigest := (h Configuration).some
    stateDigest := (h (Multiset Record)).some
    requestDigest := (h (Plan × Digest × Digest × Configuration)).some
    planDigest := (h Plan).some
    generationDigest := (h Generation).some }⟩

end RxSolutions.Host
