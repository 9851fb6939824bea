import RxSolutions.Durable.Checks
import RxSolutions.Process.Encoding

/-!
# The catalog of supported devices

A catalog declares profiles of devices, each with its role and its controllers. Both the host and
the bridge are built with the text of one catalog. The host decodes and validates it; the bridge
reads members of the document as it needs them.
-/

namespace RxSolutions.RosJtc

open Domain Durable
open Markup (Json)
open Process (counterJson stringsJson mapJson)

/-- A repository at a fixed commit. -/
structure RepositoryPin where
  repository : Name
  url : String
  commit : String

/-- A file of a repository, by its digest. -/
structure SourceFile where
  repository : Name
  commit : String
  path : String
  sha256 : Digest

/-- The part a device plays. -/
inductive ControlRole
  | manipulator
  | follower
  | leader
  | mobileBase
  | impedanceControl
  | policyControl
  deriving DecidableEq

/-- What a profile has been seen in. -/
inductive EvidenceLevel
  | sourceObserved
  | simulationFixture
  deriving DecidableEq

/-- The interfaces of a controller, listed or by group. -/
inductive InterfaceDeclaration
  | names (names : List String)
  | gpio (groups : SortedMap Name (List (List String)))

/-- A controller as its sources declare it. -/
structure ControllerDeclaration where
  name : String
  plugin : String
  jointOrder : List String
  commandInterfaces : InterfaceDeclaration
  stateInterfaces : InterfaceDeclaration

/-- A file of a simulation fixture. -/
structure FixtureFile where
  path : String
  sha256 : Digest

/-- What is known about one model of a device. -/
structure SupportProfile where
  supportId : Name
  model : Name
  role : ControlRole
  declaredUpdateHz : Counter
  sources : List SourceFile
  fixtureSources : List FixtureFile
  controllers : List ControllerDeclaration
  evidenceLevel : EvidenceLevel
  commissioningInputs : List Name
  notes : List String

/-- All models that are known. -/
structure DeviceCatalog where
  schema : Name
  repositories : List RepositoryPin
  profiles : List SupportProfile

/-! ## Validation -/

/-- `git_commit`. -/
def gitCommit (value : String) : Bool :=
  decide (value.toList.length = 40) && value.toList.all isHex

/-- `char::is_whitespace`. -/
def isWhitespace (c : Char) : Bool :=
  decide (9 ≤ c.toNat ∧ c.toNat ≤ 13 ∨ 0x2000 ≤ c.toNat ∧ c.toNat ≤ 0x200a ∨
    c.toNat ∈ [0x20, 0x85, 0xa0, 0x1680, 0x2028, 0x2029, 0x202f, 0x205f, 0x3000])

/-- A repository that is pinned to a commit. -/
def RepositoryPin.pinned (p : RepositoryPin) : Bool :=
  gitCommit p.commit && "https://".toList.isPrefixOf p.url.toList &&
    decide ("https://".utf8ByteSize < p.url.utf8ByteSize) &&
    p.url.toList.all fun c => !isWhitespace c

/-- The declared sources fit the level of evidence. -/
def SupportProfile.provenanceValid (p : SupportProfile) : Bool :=
  match p.evidenceLevel with
  | .sourceObserved => !p.sources.isEmpty && p.fixtureSources.isEmpty
  | .simulationFixture => p.sources.isEmpty && !p.fixtureSources.isEmpty

/-- What commissioning has to settle before a device may be used. -/
def commissioningRequired : List Name :=
  ["native-authority", "calibration", "startup-effects", "handover", "completion-evidence"]

/-- The source files of a profile, after the repository and path of those before. -/
def validateSources (repositories : List RepositoryPin) :
    List SourceFile → List (Name × String) → Except String Unit
  | [], _ => .ok ()
  | file :: files, seen =>
    match repositories.find? (·.repository = file.repository) with
    | none => .error "unknown source repository"
    | some pin =>
      if pin.commit ≠ file.commit ∨ (file.repository, file.path) ∈ seen then
        .error "source revision mismatch or duplicate source"
      else validateSources repositories files ((file.repository, file.path) :: seen)

/-- The controllers of a profile, after the names of those before. -/
def validateControllers : List ControllerDeclaration → List String → Except String Unit
  | [], _ => .ok ()
  | controller :: controllers, names =>
    if controller.name = "" ∨ controller.plugin = "" ∨ controller.name ∈ names ∨
        ¬ controller.jointOrder.Nodup then
      .error "invalid controller declaration"
    else validateControllers controllers (controller.name :: names)

/-- The checks on one profile. -/
def SupportProfile.validate (p : SupportProfile) (repositories : List RepositoryPin) :
    Except String Unit := do
  if p.provenanceValid = false ∨ p.controllers = [] ∨ p.declaredUpdateHz = 0 then
    throw (p.supportId ++ " lacks source/controller declaration")
  commissioningRequired.forM fun required =>
    if required ∈ p.commissioningInputs then .ok ()
    else .error (p.supportId ++ " lacks commissioning input " ++ required)
  validateSources repositories p.sources []
  if ¬ (p.fixtureSources.map (·.path)).Nodup then throw "duplicate simulation fixture source"
  validateControllers p.controllers []

/-- `DeviceCatalog::validate`. -/
def DeviceCatalog.validate (c : DeviceCatalog) : Except String Unit := do
  if c.schema ≠ "rx.device-support.v1" then throw "schema"
  if ¬ (c.repositories.map (·.repository)).Nodup then throw "duplicate source repository"
  if ¬ c.repositories.all RepositoryPin.pinned then throw "source pin"
  if c.profiles = [] ∨ ¬ (c.profiles.map (·.supportId)).Nodup then
    throw "missing or duplicate support profile"
  c.profiles.forM (·.validate c.repositories)

/-! ## The document -/

/-- The text of a role in a document. -/
def ControlRole.text : ControlRole → String
  | manipulator => "MANIPULATOR"
  | follower => "FOLLOWER"
  | leader => "LEADER"
  | mobileBase => "MOBILE_BASE"
  | impedanceControl => "IMPEDANCE_CONTROL"
  | policyControl => "POLICY_CONTROL"

/-- The text of a level in a document. -/
def EvidenceLevel.text : EvidenceLevel → String
  | sourceObserved => "SOURCE_OBSERVED"
  | simulationFixture => "SIMULATION_FIXTURE"

/-- The interfaces as a document. -/
def InterfaceDeclaration.json : InterfaceDeclaration → Json
  | .names items => stringsJson items
  | .gpio groups => mapJson (fun l => .array (l.map fun interfaces =>
      .object [("interfaces", stringsJson interfaces)])) groups

/-- A pin as a document. -/
def RepositoryPin.json (p : RepositoryPin) : Json :=
  .object [("repository", .string p.repository), ("url", .string p.url),
    ("commit", .string p.commit)]

/-- A source file as a document. -/
def SourceFile.json (f : SourceFile) : Json :=
  .object [("repository", .string f.repository), ("commit", .string f.commit),
    ("path", .string f.path), ("sha256", .string f.sha256)]

/-- A fixture file as a document. -/
def FixtureFile.json (f : FixtureFile) : Json :=
  .object [("path", .string f.path), ("sha256", .string f.sha256)]

/-- A controller as a document. -/
def ControllerDeclaration.json (c : ControllerDeclaration) : Json :=
  .object [("name", .string c.name), ("plugin", .string c.plugin),
    ("joint_order", stringsJson c.jointOrder), ("command_interfaces", c.commandInterfaces.json),
    ("state_interfaces", c.stateInterfaces.json)]

/-- A profile as a document. -/
def SupportProfile.json (p : SupportProfile) : Json :=
  .object ([("support_id", .string p.supportId), ("model", .string p.model),
    ("role", .string p.role.text), ("declared_update_hz", counterJson p.declaredUpdateHz),
    ("controllers", .array (p.controllers.map (·.json))),
    ("sources", .array (p.sources.map (·.json)))] ++
    -- left out when there are none
    (if p.fixtureSources = [] then []
      else [("fixture_sources", .array (p.fixtureSources.map (·.json)))]) ++
    [("evidence_level", .string p.evidenceLevel.text),
    ("commissioning_inputs", stringsJson p.commissioningInputs), ("notes", stringsJson p.notes)])

/-- The catalog as a document. -/
def DeviceCatalog.json (c : DeviceCatalog) : Json :=
  .object [("schema", .string c.schema), ("repositories", .array (c.repositories.map (·.json))),
    ("profiles", .array (c.profiles.map (·.json)))]

/-! ## What the programs are built with -/

/-- The text of the catalog that host and bridge include: the catalog that it spells and the digest
of its bytes; and, on the host's side, the comparison with the bundled fixture and the length of
each number in a canonical text. -/
structure Build where
  catalog : DeviceCatalog
  catalogSha256 : Digest
  fixture : DeviceCatalog → Except String Unit
  numberLength : ℚ → ℕ

/-- `builtin_catalog`. -/
def Build.builtinCatalog (b : Build) : Except String DeviceCatalog := do
  b.catalog.validate
  b.fixture b.catalog
  return b.catalog

/-! ## What validation tells -/

theorem nodup_of_validateControllers {controllers : List ControllerDeclaration}
    {names : List String} (h : validateControllers controllers names = .ok ()) :
    (controllers.map (·.name)).Nodup ∧ ∀ c ∈ controllers, c.name ∉ names := by
  induction controllers generalizing names with
  | nil => exact ⟨List.nodup_nil, fun _ hc => absurd hc List.not_mem_nil⟩
  | cons controller controllers ih =>
    rw [validateControllers] at h
    split_ifs at h with hbad
    simp only [not_or] at hbad
    obtain ⟨hnodup, hnew⟩ := ih h
    constructor
    · rw [List.map_cons, List.nodup_cons]
      refine ⟨?_, hnodup⟩
      intro hmem
      obtain ⟨c, hc, hname⟩ := List.mem_map.mp hmem
      exact hnew c hc (hname ▸ List.mem_cons_self)
    · intro c hc
      cases List.mem_cons.mp hc with
      | inl heq => exact heq ▸ hbad.2.2.1
      | inr hmem => exact fun hold => hnew c hmem (List.mem_cons_of_mem _ hold)

/-- In a valid catalog, support identifiers tell profiles apart, and names the controllers of a
profile. -/
theorem DeviceCatalog.distinct {c : DeviceCatalog} (h : c.validate = .ok ()) :
    (c.profiles.map (·.supportId)).Nodup ∧
      ∀ p ∈ c.profiles, (p.controllers.map (·.name)).Nodup := by
  simp only [DeviceCatalog.validate, Checks.guard_eq_ok, Checks.forM_eq_ok, not_or, not_not] at h
  obtain ⟨-, -, -, ⟨-, hprofiles⟩, hall⟩ := h
  refine ⟨hprofiles, ?_⟩
  intro p hp
  have hvalid := hall p hp
  simp only [SupportProfile.validate, Checks.guard_eq_ok, Checks.bind_eq_ok] at hvalid
  obtain ⟨-, _, -, _, -, -, hcontrollers⟩ := hvalid
  exact (nodup_of_validateControllers hcontrollers).1

theorem Build.builtinCatalog_eq_ok {b : Build} {c : DeviceCatalog}
    (h : b.builtinCatalog = .ok c) : c = b.catalog ∧ b.catalog.validate = .ok () := by
  simp only [Build.builtinCatalog, Checks.bind_eq_ok, Checks.pure_eq_ok] at h
  obtain ⟨_, hvalid, _, -, rfl⟩ := h
  exact ⟨rfl, hvalid⟩

end RxSolutions.RosJtc
