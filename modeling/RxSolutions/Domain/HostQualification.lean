import RxSolutions.Domain.HostConfiguration

/-!
# Qualification requests and receipts

A qualification covers a cohort of cells and is accepted or refused as a whole. As
for process configurations, the lists of a request stand for sets and are sorted
before the request is digested.
-/

namespace RxSolutions.Domain.HostQualification

/-- What a request asks for one cell. -/
structure CellTarget where
  cell : Name
  configuration : Digest
  contextRequest : Id
  contextSequence : Counter
  definition : Digest
  envelope : Digest
  environment : Name
  qualification : Id
  qualificationRevision : Counter
  dependencies : List Digest
  limitations : ArtifactRef
  allowedIntents : List Digest
  purposes : List Name
  epoch : Counter
  scopes : Counters
  fenceRequest : Id
  requiredBlocks : List Id
  deriving DecidableEq

/-- A request to qualify a host for cells. -/
structure Request where
  schema : Name
  id : Id
  host : Name
  expectedHostBoot : Id
  deliveryJournal : Id
  bindingDigest : Digest
  change : Id
  review : Id
  reviewRevision : Counter
  reviewDigest : Digest
  decisionRevision : Counter
  policyDigest : Digest
  applicationDigest : Digest
  cells : List CellTarget
  deriving DecidableEq

/-- The per-cell part of `Request::validate`. -/
def CellTarget.wellFormed (c : CellTarget) : Bool :=
  decide (0 < c.contextSequence ∧ 0 < c.qualificationRevision ∧ 0 < c.epoch ∧
    c.scopes.keys.Nonempty ∧ c.scopes.keys.card ≤ 128 ∧ c.scopes.Positive ∧
    c.requiredBlocks ≠ [] ∧ c.requiredBlocks.length ≤ 512 ∧ c.requiredBlocks.Nodup ∧
    (c.environment = "SIMULATION" ∨ c.environment = "PHYSICAL") ∧
    0 < c.limitations.sizeBytes ∧ c.allowedIntents.length ≤ 4096 ∧ c.allowedIntents.Nodup ∧
    c.dependencies.length ≤ 1024 ∧ c.dependencies.Nodup ∧
    c.configuration ∈ c.dependencies ∧ c.definition ∈ c.dependencies ∧
    c.envelope ∈ c.dependencies ∧
    c.purposes ≠ [] ∧ c.purposes.length ≤ 3 ∧ c.purposes.Nodup ∧
    ∀ p ∈ c.purposes, p = "PRODUCTION" ∨ p = "SETUP" ∨ p = "RECOVERY")

namespace Request

/-- The shape of a request. -/
def validate (r : Request) : Except String Unit :=
  if r.schema = "rx.host-qualification-request.v1" ∧ 0 < r.reviewRevision ∧
      0 < r.decisionRevision ∧ r.cells ≠ [] ∧ r.cells.length ≤ 64 ∧
      (r.cells.map CellTarget.cell).Nodup then
    if r.cells.all CellTarget.wellFormed then .ok ()
    else .error "qualification target bounds/dependencies"
  else .error "qualification request identity/scope"

/-- The request with the lists that stand for sets sorted. -/
def canonical (r : Request) : Request :=
  { r with
    cells := (r.cells.insertionSort fun a b => a.cell ≤ b.cell).map fun c =>
      { c with
        dependencies := sorted c.dependencies
        allowedIntents := sorted c.allowedIntents
        requiredBlocks := sorted c.requiredBlocks
        purposes := sorted c.purposes } }

/-- The digest of a request that is valid. -/
def digest (sha : Request ↪ Digest) : Request → Except String Digest :=
  checkedDigest validate canonical sha

end Request

/-- Whether the qualification has been accepted. -/
inductive Status
  | accepted | notAccepted
  deriving DecidableEq, Repr

/-- The stored answer to a request. -/
structure Receipt where
  schema : Name
  request : Request
  requestDigest : Digest
  hostBoot : Id
  journal : Id
  sequence : Counter
  status : Status
  reason : Option Name
  quiescence : Option HostConfiguration.Quiescence
  recordedAt : TimePoint
  deriving DecidableEq

/-- `Receipt::validate`. -/
def Receipt.validate (sha : Request ↪ Digest) (r : Receipt) : Except String Unit := do
  if r.schema ≠ "rx.host-qualification-receipt.v1" then
    throw "qualification receipt integrity"
  let digest ← r.request.digest sha
  if digest = r.requestDigest ∧ r.hostBoot = r.request.expectedHostBoot ∧
      r.journal = r.request.deliveryJournal ∧ 0 < r.sequence ∧
      (r.status = .accepted → r.reason = none ∧ r.quiescence.isSome) ∧
      (r.status = .notAccepted → r.reason.isSome) then
    .ok ()
  else .error "qualification receipt integrity"

/-- What a host reports of the qualification it holds for a cell. -/
structure AcceptedCell where
  cell : Name
  request : Id
  qualification : Id
  qualificationRevision : Counter
  acceptanceSequence : Counter
  hostBoot : Id
  epoch : Counter
  scopes : Counters
  configuration : Digest
  contextRequest : Id
  contextSequence : Counter
  bindingDigest : Digest
  deriving DecidableEq

/-- The answer with the host as it is now. -/
structure Observation where
  schema : Name
  snapshot : HostConfiguration.Snapshot
  receipt : Option Receipt
  accepted : List AcceptedCell
  receiptMatchesCurrentHost : Bool
  activationAuthorized : Bool
  deriving DecidableEq

namespace Observation

/-- `Observation::current`: the receipt is an acceptance that every cell still shows. -/
def current (o : Observation) : Bool :=
  o.receipt.any fun r =>
    decide (r.status = .accepted ∧ r.hostBoot = o.snapshot.hostBoot ∧
      r.journal = o.snapshot.deliveryJournal ∧
      r.request.bindingDigest = o.snapshot.bindingDigest ∧
      r.request.cells.length = o.snapshot.cells.length) &&
    r.request.cells.all fun t =>
      (o.snapshot.cells.any fun c =>
        decide (c.cell = t.cell ∧ c.epoch = t.epoch ∧ c.scopes = t.scopes ∧
          c.definition = t.definition ∧ c.envelope = t.envelope ∧
          c.environment = t.environment) &&
        c.applied.any fun p =>
          decide (p.configuration = t.configuration ∧ p.request = t.contextRequest ∧
            p.receiptSequence = t.contextSequence ∧
            p.bindingDigest = r.request.bindingDigest)) &&
      (o.accepted.any fun a =>
        decide (a.cell = t.cell ∧ a.request = r.request.id ∧ a.acceptanceSequence = r.sequence ∧
          a.qualification = t.qualification ∧
          a.qualificationRevision = t.qualificationRevision ∧ a.hostBoot = r.hostBoot ∧
          a.epoch = t.epoch ∧ a.scopes = t.scopes ∧ a.configuration = t.configuration ∧
          a.contextRequest = t.contextRequest ∧ a.contextSequence = t.contextSequence ∧
          a.bindingDigest = r.request.bindingDigest))

/-- `Observation::validate`. -/
def validate (shaConfiguration : HostConfiguration.Request ↪ Digest) (sha : Request ↪ Digest)
    (o : Observation) : Except String Unit := do
  let baseline : HostConfiguration.Observation :=
    { schema := "rx.host-process-configuration-observation.v1"
      snapshot := o.snapshot
      receipt := none
      contextMatchesCurrentHost := false
      activationAuthorized := false }
  baseline.validate shaConfiguration
  if ¬ (o.schema = "rx.host-qualification-observation.v1" ∧ ¬ o.activationAuthorized ∧
      o.accepted.length ≤ 64 ∧ (o.accepted.map AcceptedCell.cell).Nodup ∧
      ∀ c ∈ o.accepted, 0 < c.acceptanceSequence ∧ 0 < c.qualificationRevision ∧
        ∃ s ∈ o.snapshot.cells, s.cell = c.cell) then
    throw "qualification observation shape"
  match o.receipt with
  | none => pure ()
  | some r => do
    r.validate sha
    if r.request.host ≠ o.snapshot.host then throw "qualification receipt Host differs"
  if o.receiptMatchesCurrentHost ≠ o.current then
    throw "qualification currency claim differs"

end Observation

end RxSolutions.Domain.HostQualification
