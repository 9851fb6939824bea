import RxSolutions.Domain.Intent

/-!
# Process configuration requests and receipts

The platform asks a host to accept a process configuration for all its cells at
once; the host answers with a receipt and reports it together with a snapshot of
its own state. The lists of cells, intents and conditions stand for sets: a request
is digested with these lists sorted.
-/

namespace RxSolutions.Domain.HostConfiguration

/-- What a request asks for one cell. -/
structure CellTarget where
  cell : Name
  expectedContext : Option Digest
  beforeConfiguration : Digest
  afterConfiguration : Digest
  recipe : ArtifactRef
  definition : Digest
  envelope : Digest
  environment : Name
  requiredIntents : List Digest
  requiredConditions : List Name
  epoch : Counter
  scopes : Counters
  fenceRequest : Id
  deriving DecidableEq

/-- A request to apply configurations to cells. -/
structure Request where
  schema : Name
  id : Id
  change : Id
  preparation : Counter
  planDigest : Digest
  host : Name
  expectedHostBoot : Id
  expectedDeliveryJournal : Id
  bindingDigest : Digest
  cells : List CellTarget
  deriving DecidableEq

/-- The per-cell part of `Request::validate`. -/
def CellTarget.wellFormed (c : CellTarget) : Bool :=
  decide (0 < c.epoch ∧ c.scopes.keys.Nonempty ∧ c.scopes.keys.card ≤ 128 ∧ c.scopes.Positive ∧
    (c.environment = "SIMULATION" ∨ c.environment = "PHYSICAL") ∧ 0 < c.recipe.sizeBytes ∧
    c.requiredIntents.length ≤ 4096 ∧ c.requiredIntents.Nodup ∧
    c.requiredConditions.length ≤ 128 ∧ c.requiredConditions.Nodup)

namespace Request

/-- The shape of a request. -/
def validate (r : Request) : Except String Unit :=
  if r.schema = "rx.host-process-configuration-request.v1" ∧ 0 < r.preparation ∧ r.cells ≠ [] ∧
      r.cells.length ≤ 64 ∧ (r.cells.map CellTarget.cell).Nodup then
    if r.cells.all CellTarget.wellFormed then .ok () else .error "configuration target shape"
  else .error "configuration request shape"

/-- The request with the lists that stand for sets sorted. -/
def canonical (r : Request) : Request :=
  { r with
    cells := (r.cells.insertionSort fun a b => a.cell ≤ b.cell).map fun c =>
      { c with
        requiredIntents := sorted c.requiredIntents
        requiredConditions := sorted c.requiredConditions } }

/-- The digest of a request that is valid. -/
def digest (sha : Request ↪ Digest) : Request → Except String Digest :=
  checkedDigest validate canonical sha

end Request

/-- The configuration a host has applied to a cell. -/
structure AppliedContext where
  cell : Name
  configuration : Digest
  change : Id
  request : Id
  receiptSequence : Counter
  bindingDigest : Digest
  deriving DecidableEq

/-- A cell as the host sees it. -/
structure CellObservation where
  cell : Name
  definition : Digest
  envelope : Digest
  environment : Name
  epoch : Counter
  scopes : Counters
  blocked : Finset Id
  applied : Option AppliedContext
  deriving DecidableEq

/-- The binding generation the running host was started on. -/
structure BindingCommit where
  schema : Name
  request : Id
  planDigest : Digest
  cell : Name
  beforeConfiguration : Digest
  afterConfiguration : Digest
  beforeInstallationIdentity : Digest
  afterInstallationIdentity : Digest
  deliveryJournal : Id
  evidenceJournal : Id
  bindingDigest : Digest
  deriving DecidableEq

/-- A host and its cells. -/
structure Snapshot where
  evidenceJournal : Option Id
  installationIdentity : Option Digest
  bindingCommit : Option BindingCommit
  schema : Name
  host : Name
  hostBoot : Id
  deliveryJournal : Id
  bindingDigest : Digest
  cells : List CellObservation
  deriving DecidableEq

/-- Whether the configurations have been applied. -/
inductive Status
  | appliedUnqualified | notApplied
  deriving DecidableEq, Repr

/-- What a request has changed. -/
inductive Effect
  | installed | alreadyPresent | none
  deriving DecidableEq, Repr

/-- Fresh evidence that no native command is pending. -/
structure Quiescence where
  deviceSession : Id
  observedAt : TimePoint
  uncertaintyNs : Counter
  resources : List Name
  deriving DecidableEq

/-- The stored answer to a request. -/
structure Receipt where
  schema : Name
  request : Request
  requestDigest : Digest
  hostBoot : Id
  journal : Id
  sequence : Counter
  status : Status
  effect : Effect
  reason : Option Name
  quiescence : Option Quiescence
  recordedAt : TimePoint
  deriving DecidableEq

/-- `Receipt::validate`. -/
def Receipt.validate (sha : Request ↪ Digest) (r : Receipt) : Except String Unit := do
  if r.schema ≠ "rx.host-process-configuration-receipt.v1" then
    throw "configuration receipt shape/identity"
  let digest ← r.request.digest sha
  if digest = r.requestDigest ∧ 0 < r.sequence ∧ r.hostBoot = r.request.expectedHostBoot ∧
      r.journal = r.request.expectedDeliveryJournal ∧
      (r.status = .appliedUnqualified →
        r.effect ≠ .none ∧ r.reason = Option.none ∧ r.quiescence.isSome) ∧
      (r.status = .notApplied → r.effect = .none ∧ r.reason.isSome) then
    .ok ()
  else .error "configuration receipt shape/identity"

/-- The answer with the host as it is now. -/
structure Observation where
  schema : Name
  snapshot : Snapshot
  receipt : Option Receipt
  contextMatchesCurrentHost : Bool
  activationAuthorized : Bool
  deriving DecidableEq

/-- Whether a receipt describes what the snapshot shows as applied. -/
def Receipt.matchesSnapshot (r : Receipt) (s : Snapshot) : Bool :=
  decide (r.status = .appliedUnqualified ∧ r.hostBoot = s.hostBoot ∧
    r.journal = s.deliveryJournal ∧ r.request.bindingDigest = s.bindingDigest) &&
  r.request.cells.all fun t => s.cells.any fun c =>
    decide (c.cell = t.cell ∧ c.epoch = t.epoch ∧ c.scopes = t.scopes) &&
    c.applied.any fun a =>
      decide (a.configuration = t.afterConfiguration ∧ a.bindingDigest = s.bindingDigest ∧
        a.request = r.request.id ∧ a.receiptSequence = r.sequence ∧ a.change = r.request.change)

/-- The correlation `Observation::validate` asks of a binding commit. -/
def BindingCommit.correlates (b : BindingCommit) (s : Snapshot) : Bool :=
  decide (b.schema = "rx.host-binding-commit-observation.v1" ∧
    s.installationIdentity = some b.afterInstallationIdentity ∧
    s.evidenceJournal = some b.evidenceJournal ∧ b.deliveryJournal = s.deliveryJournal ∧
    b.bindingDigest = s.bindingDigest) &&
  s.cells.any fun c => c.cell = b.cell

/-- The shape `Observation::validate` asks of each observed cell. -/
def CellObservation.wellFormed (c : CellObservation) : Bool :=
  decide (0 < c.epoch ∧ c.scopes.keys.Nonempty ∧ c.scopes.Positive) &&
  c.applied.all fun a => decide (a.cell = c.cell ∧ 0 < a.receiptSequence)

/-- `Observation::validate`. -/
def Observation.validate (sha : Request ↪ Digest) (o : Observation) : Except String Unit := do
  let s := o.snapshot
  if ¬ (o.schema = "rx.host-process-configuration-observation.v1" ∧
      s.schema = "rx.host-process-configuration-snapshot.v1" ∧ ¬ o.activationAuthorized ∧
      s.cells ≠ [] ∧ s.cells.length ≤ 64 ∧ (s.cells.map CellObservation.cell).Nodup) then
    throw "Host configuration observation shape"
  if ¬ s.bindingCommit.all (·.correlates s) then
    throw "Host binding commit observation correlation differs"
  if ¬ s.cells.all CellObservation.wellFormed then
    throw "Host context snapshot shape"
  match o.receipt with
  | none => pure ()
  | some r => do
    r.validate sha
    if r.request.host ≠ s.host then throw "receipt Host differs"
  if (o.receipt.any fun r => r.matchesSnapshot s) ≠ o.contextMatchesCurrentHost then
    throw "Host context currency claim differs"

end RxSolutions.Domain.HostConfiguration
