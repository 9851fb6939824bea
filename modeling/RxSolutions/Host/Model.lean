import Mathlib.Data.Finset.Sort
import RxSolutions.Domain.HostQualification

/-!
# Records of the host command gate

The data the gate works on: bindings and permits, the delivery record of an
operation, grants, gate receipts and tombstones, and what it exchanges with the
native adapter.
-/

namespace RxSolutions.Host

open Domain

/-- Where a cell runs. -/
inductive Environment
  | simulation | physical
  deriving DecidableEq, Repr

/-- The wire name of an environment. -/
def Environment.name : Environment → Name
  | .simulation => "SIMULATION"
  | .physical => "PHYSICAL"

/-- What a permit is for. -/
inductive Purpose
  | production | setup | recovery
  deriving DecidableEq, Repr

/-- The wire name of a purpose. -/
def Purpose.name : Purpose → Name
  | .production => "PRODUCTION"
  | .setup => "SETUP"
  | .recovery => "RECOVERY"

/-- An authenticated peer and its session. -/
structure Caller where
  peer : Name
  session : Id
  deriving DecidableEq, Repr

/-- What a host was approved to do for one cell. -/
structure Binding where
  host : Name
  platform : Name
  cell : Name
  definition : ArtifactRef
  envelope : ArtifactRef
  qualification : Id
  qualificationRevision : Counter
  allowedIntents : List Intent
  scopeIds : List Name
  conditionIds : List Name
  environment : Environment
  purposes : Finset Purpose
  deriving DecidableEq

/-- The mandate or the recovery step that a permit is issued under. -/
inductive PermitParent
  | mandate (id : Id)
  | recovery (case : Id) (plan : Digest) (step : Name) (visit : Counter)
  deriving DecidableEq

/-- The journals of a host and their last numbers. -/
structure HostMeta where
  deliveryJournal : Id
  evidenceJournal : Id
  deliverySeq : Counter
  deriving DecidableEq

/-- The durable fence of a cell: its epoch, its scope counters and its open blocks. -/
structure CellState where
  epoch : Counter
  scopes : Counters
  blocked : Finset Id
  deriving DecidableEq

/-- How far the delivery of an operation has come. -/
inductive ReceiptState
  | prepared | sendEntered | nativeRejected | nativeAccepted | resultCaptured | voidedBeforeSend
  deriving DecidableEq, Repr

/-- Native work of the operation may be under way. -/
def ReceiptState.InFlight (s : ReceiptState) : Prop := s = .sendEntered ∨ s = .nativeAccepted

instance (s : ReceiptState) : Decidable s.InFlight :=
  inferInstanceAs (Decidable (s = .sendEntered ∨ s = .nativeAccepted))

/-- The operation is not finished: prepared, or possibly under way. -/
def ReceiptState.Pending (s : ReceiptState) : Prop := s = .prepared ∨ s.InFlight

instance (s : ReceiptState) : Decidable s.Pending :=
  inferInstanceAs (Decidable (s = .prepared ∨ s.InFlight))

/-- The delivery of one operation. -/
structure DeliveryRecord where
  operation : Id
  digest : Digest
  invocation : Option Id
  state : ReceiptState
  journalSeq : Counter
  preparedBoot : Id
  prepareUntil : TimePoint
  cell : Name
  intent : Intent
  permit : Id
  deviceSession : Id
  evidenceIds : List Id
  permitDigest : Digest
  deriving DecidableEq

/-- A grant as the host stores it. -/
structure StoredGrant where
  id : Id
  hostBoot : Id
  owner : Name
  session : Id
  resources : List Name
  fence : Counter
  expiresAt : TimePoint
  renewSeq : Counter
  ttlNs : Counter
  deriving DecidableEq

/-- The receipt of a delivery at some number of the journal. -/
structure GateReceipt where
  id : Id
  hostBoot : Id
  journal : Id
  sequence : Counter
  cell : Name
  state : CellState
  deriving DecidableEq

/-- The tombstone of an operation that must never reach the native adapter. -/
structure VoidRecord where
  operation : Id
  digest : Digest
  sequence : Counter
  deriving DecidableEq

/-- The highest epoch seen of a resource. -/
structure ResourceFence where
  resource : Name
  maximum : Counter
  deriving DecidableEq

/-- The permission to enter one operation once. -/
structure Permit where
  id : Id
  operation : Id
  digest : Digest
  cell : Name
  epoch : Counter
  scopes : Counters
  envelope : Digest
  qualification : Id
  qualificationRevision : Counter
  grant : Id
  hostBoot : Id
  conditions : Finset Name
  expiresAt : TimePoint
  purpose : Purpose
  parent : PermitParent
  sourceDigest : Option Digest
  deriving DecidableEq

/-- An operation to be carried out. -/
structure Request where
  operation : Id
  intent : Intent
  digest : Digest
  grant : Id
  permit : Permit
  deriving DecidableEq

/-! ## What the native adapter is given and answers -/

/-- What the device says about its safety, and until when. -/
structure Guard where
  deviceSession : Id
  validUntil : TimePoint
  satisfied : Finset Name
  deriving DecidableEq

/-- What the device says about a handover to local control. -/
structure LocalHandover where
  deviceSession : Id
  observedAt : TimePoint
  uncertaintyNs : Counter
  noPendingCommands : Bool
  controlAvailable : Bool
  supportStable : Bool
  deriving DecidableEq

/-- What the entry of an operation is bound to. -/
structure NativeDispatch where
  deviceSession : Id
  expiresAt : TimePoint
  deriving DecidableEq

/-- A device's final status of an operation. -/
structure NativeCapture where
  statusSchema : Name
  status : ℤ
  nativeId : Option String
  capturedAt : TimePoint
  deviceSession : Id
  deriving DecidableEq

/-- The evidence of how an operation ended. -/
structure EvidenceRecord where
  evidenceId : Id
  operation : Id
  invocation : Id
  profileDigest : Digest
  capture : NativeCapture
  deriving DecidableEq

/-- The qualification a host holds for a cell. -/
structure Accepted where
  request : Id
  sequence : Counter
  hostBoot : Id
  journal : Id
  bindingDigest : Digest
  deviceSession : Id
  target : HostQualification.CellTarget
  deriving DecidableEq

/-- What the identity digest of an accepted qualification is taken over. -/
structure QualificationIdentity where
  cell : Name
  qualification : Id
  qualificationRevision : Counter
  configuration : Digest
  definition : Digest
  envelope : Digest
  environment : Name
  limitations : ArtifactRef
  dependencies : List Digest
  allowedIntents : List Digest
  purposes : List Name
  review : Id
  reviewRevision : Counter
  reviewDigest : Digest
  decisionRevision : Counter
  policyDigest : Digest
  applicationDigest : Digest
  deriving DecidableEq

/-- Where evidence is published to. -/
structure Destination where
  platform : Name
  installation : Id
  storeGeneration : Id
  deriving DecidableEq

/-- How far the evidence journal has been published. -/
structure PublicationCursor where
  journal : Id
  through : Counter
  platformSequence : Counter
  deriving DecidableEq

/-! ## Errors -/

/-- Why the store refuses. -/
inductive StoreError
  | ownership (detail : String)
  | rejected
  | unavailable (detail : String)
  | integrity (detail : String)
  | revisionConflict
  | keyConflict
  | outboxConflict
  | invalid (detail : String)
  deriving DecidableEq, Repr

/-- Why a call of the host fails. -/
inductive HostError
  | store (error : StoreError)
  | invalid (detail : String)
  | conflict
  | forbidden
  | stale
  | guard
  | busy
  | notFound
  | voided
  | nativeUnknown (detail : String)
  deriving DecidableEq, Repr

/-! ## Idealised identifiers and digests -/

/-- What a fence or an arm request is fingerprinted by. -/
structure GateBody where
  cell : Name
  epoch : Counter
  scopes : Counters
  blocks : Finset Id
  deriving DecidableEq

/-- What a grant request is fingerprinted by. -/
structure GrantBody where
  peer : Name
  resources : List Name
  fence : Counter
  ttlNs : Counter
  deriving DecidableEq

/-- Canonical digests without collisions, and a source of identifiers that never
yields one twice, over the whole life of a store. -/
class Ideal where
  freshId : ℕ ↪ Id
  intentDigest : Intent ↪ Digest
  permitDigest : Permit ↪ Digest
  fenceDigest : GateBody ↪ Digest
  armDigest : GateBody ↪ Digest
  grantDigest : GrantBody ↪ Digest
  bindingsDigest : List Binding ↪ Digest
  configurationDigest : HostConfiguration.Request ↪ Digest
  qualificationDigest : HostQualification.Request ↪ Digest
  identityDigest : QualificationIdentity ↪ Digest

end RxSolutions.Host
