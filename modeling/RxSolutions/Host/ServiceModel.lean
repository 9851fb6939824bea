import RxSolutions.Host.Model

/-!
# Records of the host service and of binding maintenance

The service keeps its lifecycle (starting, or stopped with a seal over the state it
left) in the same store as the gate, and so does the offline tool that replaces the
bindings of a stopped host.
-/

namespace RxSolutions.Host

open Domain

/-- What the device says before the host is stopped. -/
structure NativeShutdown where
  deviceSession : Id
  observedAt : TimePoint
  uncertaintyNs : Counter
  resources : List Name
  noPendingCommands : Bool
  safeToDrop : Bool
  deriving DecidableEq

/-- What a host reports when it is about to be stopped. -/
structure StopSnapshot where
  hostBoot : Id
  admissionOpen : Bool
  pendingOperations : List Id
  retainedEvidence : Counter
  native : Option NativeShutdown
  safeToDrop : Bool
  physicalShutdownAssessed : Bool
  deriving DecidableEq

/-- What a service proves about the state it leaves when it stops normally. -/
structure StopSeal where
  attempt : Id
  installationIdentity : Digest
  startupConfigurationDigest : Digest
  deliveryJournal : Id
  evidenceJournal : Id
  deliverySequence : Counter
  journalTail : Counter
  stateDigest : Digest
  snapshot : StopSnapshot
  deriving DecidableEq

/-- Where the service stands: it has been started, or stopped under a seal. -/
inductive Lifecycle
  | starting (hostBoot : Option Id) (attempt : Id) (installationIdentity : Digest)
      (startupConfigurationDigest : Digest)
  | stopped (stopSeal : StopSeal)
  deriving DecidableEq

/-- A file by its digest. -/
structure PinnedFile where
  path : String
  sha256 : Digest
  deriving DecidableEq

/-- What carries out the operations. -/
inductive Backend
  | fileSimulation
  | pythonSkillSimulation (registration : PinnedFile)
  | pythonSkillPackage (directory : String) (manifestDigest : Digest) (policy : PinnedFile)
  | jtcPackage (directory : String) (manifestDigest : Digest) (policy : PinnedFile)
  | melsecPackage (directory : String) (manifestDigest : Digest) (policy : PinnedFile)
  | validatedDriver (profile : Name) (driverDigest : Digest) (endpoint : String)
  deriving DecidableEq

/-- The files of a TLS connection. -/
structure TlsFiles where
  certificate : PinnedFile
  key : PinnedFile
  ca : PinnedFile
  deriving DecidableEq

/-- Where the evidence is published. -/
structure Publication where
  uri : String
  serverName : String
  tls : TlsFiles
  storeGeneration : Id
  deriving DecidableEq

/-- The startup configuration of a host service. -/
structure Configuration where
  schema : Name
  installation : Id
  releaseDigest : Digest
  host : Name
  bind : String
  dataDirectory : String
  runtimeDirectory : String
  bindings : PinnedFile
  backend : Backend
  tls : TlsFiles
  allowedPlatformCertificates : List (Digest × Name)
  publisher : Option Publication
  publicationDrainMs : Counter
  deriving DecidableEq

/-- What the installation step recorded about the native adapter. -/
inductive NativeInstallation
  | pythonSkill (registrationDigest environmentDigest : Digest)
  | dynamixel (identity : Digest)
  | jtc (identity manifestDigest : Digest)
  | melsec (identity manifestDigest : Digest)
  deriving DecidableEq

/-- The descriptor `installation.json`. -/
structure Installation where
  nativeDirectory : Option String
  maintenanceProtocol : Option Name
  schema : Name
  identity : Digest
  installation : Id
  host : Name
  deliveryJournal : Id
  evidenceJournal : Id
  native : Option NativeInstallation
  deriving DecidableEq

/-- How far the preparation of a change has come. -/
inductive PreparationState
  | prepared | committing | committed | cancelled
  deriving DecidableEq, Repr

/-- A binding change a stopped host was prepared for. -/
structure Preparation where
  request : Id
  requestDigest : Digest
  state : PreparationState
  planDigest : Digest
  currentIdentity : Digest
  proposedIdentity : Digest
  proposedBindingsDigest : Digest
  proposedConfiguration : Configuration
  stop : StopSeal
  installationChanged : Bool
  activationAuthorized : Bool
  deriving DecidableEq

/-- How far a commit has come. -/
inductive Phase
  | reserved | nativeReady | committed
  deriving DecidableEq, Repr

/-- The commit of a prepared change. -/
structure CommitRecord where
  schema : Name
  request : Id
  requestDigest : Digest
  planDigest : Digest
  cell : Name
  beforeConfiguration : Digest
  afterConfiguration : Digest
  afterBindingDigest : Digest
  beforeIdentity : Digest
  afterIdentity : Digest
  phase : Phase
  nativeGeneration : String
  deliveryJournal : Id
  evidenceJournal : Id
  activationAuthorized : Bool
  generationDigest : Option Digest
  beforeDescriptor : Installation
  afterDescriptor : Option Installation
  deriving DecidableEq

/-- Whether a replaced binding still waits for its process configuration. -/
structure BindingRequirement where
  configuration : Digest
  pending : Bool
  acknowledgedBy : Option Id
  deriving DecidableEq

end RxSolutions.Host
