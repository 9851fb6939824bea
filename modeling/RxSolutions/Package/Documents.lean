import RxSolutions.Package.Model
import RxSolutions.Process.Encoding

/-!
# The documents of a process package

A candidate for a process package holds the source, the bindings, the input of the compiler, the
recipe and the requirements of the package, each as the canonical text of a JSON document.

Texts are kept apart from the documents that they spell here, since candidates are compared byte
by byte and a decoder accepts other texts than the canonical one.
-/

namespace RxSolutions.Process

open Domain Durable
open Markup (Json)

/-! ## Sources -/

/-- The body of a node, tagged with its kind. -/
def NodeBody.json : NodeBody → Json
  | .sequence children =>
    .object [("kind", .string "SEQUENCE"), ("children", stringsJson children)]
  | .parallelAll children =>
    .object [("kind", .string "PARALLEL_ALL"), ("children", stringsJson children)]
  | .branch condition whenTrue whenFalse =>
    .object [("kind", .string "BRANCH"), ("condition", .string condition),
      ("when_true", .string whenTrue), ("when_false", .string whenFalse)]
  | .repeat count child =>
    .object [("kind", .string "REPEAT"), ("count", counterJson count), ("child", .string child)]
  | .call flow => .object [("kind", .string "CALL"), ("flow", .string flow)]
  | .operation binding => .object [("kind", .string "OPERATION"), ("binding", .string binding)]
  | .wait condition timeoutNs =>
    .object [("kind", .string "WAIT"), ("condition", .string condition),
      ("timeout_ns", counterJson timeoutNs)]
  | .intervention procedure =>
    .object [("kind", .string "INTERVENTION"), ("procedure", artifactJson procedure)]

/-- A node as a document. -/
def Node.json (n : Node) : Json := .object [("id", .string n.id), ("body", n.body.json)]

/-- A flow as a document. -/
def Flow.json (f : Flow) : Json :=
  .object [("id", .string f.id), ("root", .string f.root),
    ("nodes", .array (f.nodes.map Node.json))]

/-- A process source as a document. -/
def ProcessSource.json (s : ProcessSource) : Json :=
  .object [("schema", .string s.schema), ("process", .string s.process),
    ("entry", .string s.entry), ("flows", .array (s.flows.map Flow.json)),
    ("conditions", mapJson conditionJson s.conditions)]

/-- The body of a node, read by its kind. -/
def NodeBody.read (j : Json) : Option NodeBody := do
  let kind ← (j.get? "kind").bind readString
  match kind with
  | "SEQUENCE" =>
    let at_ ← fields j ["kind", "children"]
    return .sequence (← (at_ "children").bind (readList readName))
  | "PARALLEL_ALL" =>
    let at_ ← fields j ["kind", "children"]
    return .parallelAll (← (at_ "children").bind (readList readName))
  | "BRANCH" =>
    let at_ ← fields j ["kind", "condition", "when_true", "when_false"]
    return .branch (← (at_ "condition").bind readName) (← (at_ "when_true").bind readName)
      (← (at_ "when_false").bind readName)
  | "REPEAT" =>
    let at_ ← fields j ["kind", "count", "child"]
    return .repeat (← (at_ "count").bind readCounterJson) (← (at_ "child").bind readName)
  | "CALL" =>
    let at_ ← fields j ["kind", "flow"]
    return .call (← (at_ "flow").bind readName)
  | "OPERATION" =>
    let at_ ← fields j ["kind", "binding"]
    return .operation (← (at_ "binding").bind readName)
  | "WAIT" =>
    let at_ ← fields j ["kind", "condition", "timeout_ns"]
    return .wait (← (at_ "condition").bind readName) (← (at_ "timeout_ns").bind readCounterJson)
  | "INTERVENTION" =>
    let at_ ← fields j ["kind", "procedure"]
    return .intervention (← (at_ "procedure").bind readArtifact)
  | _ => none

/-- A node, with no other member. -/
def Node.read (j : Json) : Option Node := do
  let at_ ← fields j ["id", "body"]
  return { id := ← (at_ "id").bind readName, body := ← (at_ "body").bind NodeBody.read }

/-- A flow, with no other member. -/
def Flow.read (j : Json) : Option Flow := do
  let at_ ← fields j ["id", "root", "nodes"]
  return {
    id := ← (at_ "id").bind readName
    root := ← (at_ "root").bind readName
    nodes := ← (at_ "nodes").bind (readList Node.read) }

/-- A process source, with no other member. -/
def ProcessSource.read (j : Json) : Option ProcessSource := do
  let at_ ← fields j ["schema", "process", "entry", "flows", "conditions"]
  return {
    schema := ← (at_ "schema").bind readName
    process := ← (at_ "process").bind readName
    entry := ← (at_ "entry").bind readName
    flows := ← (at_ "flows").bind (readList Flow.read)
    conditions := ← (at_ "conditions").bind (readMap (readCondition j.nesting)) }

end RxSolutions.Process

namespace RxSolutions.Package

open Domain Durable Process
open Markup (Json)

/-! ## Texts -/

/-- The libraries behind a document: how it is written as a text and read back, and its
digests. -/
class Canonical (Text : Type) where
  /-- The canonical text of a document. -/
  bytes : Json → Text
  /-- The number of bytes. -/
  length : Text → ℕ
  /-- The document of a text, by a parser that refuses a member named twice. -/
  parse : Text → Except String Json
  /-- The digest of a text. -/
  contentDigest : Text → Digest
  /-- The digest of a document under a domain. -/
  digest : String → Json → Digest

/-- The digest of all documents where they are not told apart. -/
def plainDigest : Digest := "0000000000000000000000000000000000000000000000000000000000000000"

/-- Documents in order as texts. Numbers are one byte long and every digest is the same. -/
abbrev documentTexts : Canonical Json where
  bytes := Json.ordered
  length := Json.size fun _ => 1
  parse j := if j.strict = true ∧ j.nesting < 128 then .ok j else .error "recursion limit exceeded"
  contentDigest _ := plainDigest
  digest _ _ := plainDigest

variable {Text : Type} [Canonical Text]

/-- The longest message. -/
def maxMessageBytes : ℕ := 1048576

/-- A typed value from a text of at most 1 MiB in canonical form. -/
def decodeJson {α : Type} (read : Json → Option α) (text : Text) : Except String α :=
  if maxMessageBytes < Canonical.length text then .error "invalid input: message exceeds 1 MiB"
  else match Canonical.parse text with
    | .error e => .error ("invalid input: " ++ e)
    | .ok j =>
      match read j with
      | none => .error "invalid input: another document is required"
      | some a => .ok a

/-! ## The input of the compiler -/

/-- The binding plan that a device source comes from. -/
structure BindingPlanRef where
  id : Id
  revision : Counter
  planDigest : Digest
  deriving DecidableEq, Repr

/-- The step of a binding plan that an action is built from. -/
structure DeviceSource where
  plan : BindingPlanRef
  binding : Name
  stepDigest : Digest
  actionDigest : Digest
  deriving DecidableEq, Repr

/-- All that a candidate is compiled from. -/
structure CompileInput where
  deviceSources : SortedMap Name DeviceSource
  schema : Name
  draft : Id
  cell : Name
  sourceRevision : Counter
  bindingRevision : Counter
  sourceDocumentDigest : Digest
  bindingsDigest : Digest
  catalogDigest : Digest
  /-- Any document; it is read as a source when the input is validated. -/
  source : Json
  bindings : SortedMap Name ActionBinding

/-- A reference to a plan as a document. -/
def BindingPlanRef.json (p : BindingPlanRef) : Json :=
  .object [("id", .string p.id), ("revision", counterJson p.revision),
    ("plan_digest", .string p.planDigest)]

/-- A device source as a document. -/
def DeviceSource.json (s : DeviceSource) : Json :=
  .object [("plan", s.plan.json), ("binding", .string s.binding),
    ("step_digest", .string s.stepDigest), ("action_digest", .string s.actionDigest)]

/-- Without provenance there is no member for it. -/
def CompileInput.json (i : CompileInput) : Json :=
  .object ((if i.deviceSources.entries = [] then []
      else [("device_sources", mapJson DeviceSource.json i.deviceSources)]) ++
    [("schema", .string i.schema), ("draft", .string i.draft), ("cell", .string i.cell),
      ("source_revision", counterJson i.sourceRevision),
      ("binding_revision", counterJson i.bindingRevision),
      ("source_document_digest", .string i.sourceDocumentDigest),
      ("bindings_digest", .string i.bindingsDigest),
      ("catalog_digest", .string i.catalogDigest), ("source", i.source),
      ("bindings", mapJson bindingJson i.bindings)])

/-! ## The recipe and the requirements -/

/-- What a package is to be made of. -/
structure Recipe where
  schema : Name
  package : Name
  version : Version
  publisher : Name
  contracts : ContractSet
  targets : List Target
  dependencies : List Dependency
  assets : List ArtifactRef
  deriving DecidableEq, Repr

/-- What a cell has to provide for a package. -/
structure ContextRequirements where
  schema : Name
  catalog : Digest
  profiles : List Digest
  siteConfigurations : List Digest
  calibrations : List Digest
  tools : List Digest
  transitions : List Digest
  streams : List Digest
  deriving DecidableEq, Repr

/-- The text of a kind in a document. -/
def PackageKind.text : PackageKind → String
  | .device => "DEVICE"
  | .process => "PROCESS"
  | .ui => "UI"

/-- The text of a system in a document. -/
def OperatingSystem.text : OperatingSystem → String
  | .linux => "LINUX"
  | .windows => "WINDOWS"

/-- The text of an architecture in a document. -/
def Architecture.text : Architecture → String
  | .amd64 => "AMD64"
  | .arm64 => "ARM64"

/-- The contracts as a document. -/
def ContractSet.json (c : ContractSet) : Json :=
  .object [("base", .string c.base), ("cell", .string c.cell),
    ("package_abi", .string c.packageAbi)]

/-- A target as a document. -/
def Target.json (t : Target) : Json :=
  .object [("os", .string t.os.text), ("architecture", .string t.architecture.text),
    ("ros_distribution", optionalJson t.rosDistribution)]

/-- A dependency as a document. -/
def Dependency.json (d : Dependency) : Json :=
  .object [("package", .string d.package), ("version", .string d.version.text),
    ("manifest_digest", .string d.manifestDigest), ("kind", .string d.kind.text)]

/-- A recipe as a document. -/
def Recipe.json (r : Recipe) : Json :=
  .object [("schema", .string r.schema), ("package", .string r.package),
    ("version", .string r.version.text), ("publisher", .string r.publisher),
    ("contracts", r.contracts.json), ("targets", .array (r.targets.map Target.json)),
    ("dependencies", .array (r.dependencies.map Dependency.json)),
    ("assets", .array (r.assets.map artifactJson))]

/-- The requirements as a document. -/
def ContextRequirements.json (c : ContextRequirements) : Json :=
  .object [("schema", .string c.schema), ("catalog", .string c.catalog),
    ("profiles", stringsJson c.profiles),
    ("site_configurations", stringsJson c.siteConfigurations),
    ("calibrations", stringsJson c.calibrations), ("tools", stringsJson c.tools),
    ("transitions", stringsJson c.transitions), ("streams", stringsJson c.streams)]

end RxSolutions.Package
