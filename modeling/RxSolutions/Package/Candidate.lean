import RxSolutions.Package.Documents
import RxSolutions.Process.Agreement

/-!
# Candidates for process packages

A candidate is assembled from the input of the compiler and a recipe: the process is compiled,
the permissions and artifacts that it needs are derived from the result, and the manifest is
built over the texts of the documents.
-/

namespace RxSolutions.Package

open Domain Durable Process
open Markup (Json)

/-- Why no candidate is made. -/
inductive Error
  | invalid (reason : String)
  | package (error : VerifyError)
  | compile (error : Compile.Error)
  deriving DecidableEq, Repr

section Inputs

variable (Text : Type) [Canonical Text]

/-- The digest of an action that a device source is checked against. -/
def deviceActionDigest (action : ActionBinding) : Digest :=
  Canonical.digest Text "RX-COMPILER-DEVICE-ACTION-v1" (bindingJson action)

/-- The digest of the bindings, with their device sources if there are any. -/
def bindingsDigest (bindings : SortedMap Name ActionBinding)
    (sources : SortedMap Name DeviceSource) : Digest :=
  if sources.entries = [] then
    Canonical.digest Text "RX-DRAFT-COMPILE-BINDINGS-v1" (mapJson bindingJson bindings)
  else
    Canonical.digest Text "RX-DRAFT-COMPILE-BINDINGS-v2"
      (.array [mapJson bindingJson bindings, mapJson DeviceSource.json sources])

/-- The provenance of the bindings; a plan is named in one way only. -/
def checkSources (bindings : SortedMap Name ActionBinding) : List (Name × DeviceSource) →
    SortedMap Id BindingPlanRef → Except String (SortedMap Id BindingPlanRef)
  | [], plans => .ok plans
  | (name, source) :: sources, plans =>
    if source.plan.revision = 0 then .error "device binding provenance differs"
    else match bindings.get? name with
      | none => .error "device provenance alias missing"
      | some action =>
        if deviceActionDigest Text action ≠ source.actionDigest ∨
            ∃ old ∈ plans.get? source.plan.id, old ≠ source.plan then
          .error "device binding provenance differs"
        else checkSources bindings sources (plans.insert source.plan.id source.plan)

/-- The checks of an input, and its source. -/
def CompileInput.validate (input : CompileInput) : Except String ProcessSource := do
  if ¬ ((input.schema = "rx.process-compile-input.v1" ∧ input.deviceSources.entries = []) ∨
        (input.schema = "rx.process-compile-input.v2" ∧ input.deviceSources.entries ≠ [])) ∨
      input.sourceRevision = 0 ∨ input.bindingRevision = 0 ∨
      128 < input.deviceSources.entries.length then
    throw "compile input schema/revision"
  if Canonical.digest Text "RX-PROCESS-DRAFT-DOCUMENT-v1" input.source ≠
        input.sourceDocumentDigest ∨
      Package.bindingsDigest Text input.bindings input.deviceSources ≠ input.bindingsDigest then
    throw "compile input integrity differs"
  let plans ← checkSources Text input.bindings input.deviceSources.entries .empty
  if 16 < plans.entries.length then throw "too many device binding plans"
  decodeJson ProcessSource.read (Canonical.bytes input.source : Text)

end Inputs

/-! ## What a process needs -/

mutual

/-- The schemas that a condition reads. -/
def conditionSchemas : Condition → SortedSet Name → SortedSet Name
  | .all children, out | .any children, out => conditionsSchemas children out
  | .eq _ schema _ _, out | .range _ schema _ _ _, out | .setContains _ schema _ _, out =>
    out.add schema

/-- The schemas that a list of conditions reads. -/
def conditionsSchemas : List Condition → SortedSet Name → SortedSet Name
  | [], out => out
  | c :: cs, out => conditionsSchemas cs (conditionSchemas c out)

end

/-- One document for each digest. -/
def insertAsset (assets : SortedMap Digest ArtifactRef) (asset : ArtifactRef) :
    Except Error (SortedMap Digest ArtifactRef) :=
  if ∃ old ∈ assets.get? asset.sha256, old ≠ asset then
    .error (.invalid "same asset digest with different metadata")
  else .ok (assets.insert asset.sha256 asset)

/-- The schemas and artifacts of a tree. -/
structure Required where
  schemas : SortedSet Name
  assets : SortedMap Digest ArtifactRef

/-- The schemas of a condition of the process. A name without a condition does not return. -/
def requiredFromCondition (process : ResolvedProcess) (condition : Name) (out : Required) :
    Except Error Required :=
  match process.conditions.get? condition with
  | none => .error (.invalid "no entry found for key")
  | some c => .ok { out with schemas := conditionSchemas c out.schemas }

mutual

/-- What a node and those below it need. -/
def requiredFromNode (process : ResolvedProcess) : CompiledNode → Required → Except Error Required
  | .sequence _ _ children, out | .parallelAll _ _ children, out =>
    requiredFromNodes process children out
  | .branch _ _ condition whenTrue whenFalse, out =>
    match requiredFromCondition process condition out with
    | .error e => .error e
    | .ok out =>
      match requiredFromNode process whenTrue out with
      | .error e => .error e
      | .ok out => requiredFromNode process whenFalse out
  | .wait _ _ condition _, out => requiredFromCondition process condition out
  | .intervention _ _ procedure, out =>
    match insertAsset out.assets procedure with
    | .error e => .error e
    | .ok assets => .ok { out with assets }
  | .operation .., out => .ok out

/-- What a list of nodes needs. -/
def requiredFromNodes (process : ResolvedProcess) :
    List CompiledNode → Required → Except Error Required
  | [], out => .ok out
  | child :: children, out =>
    match requiredFromNode process child out with
    | .error e => .error e
    | .ok out => requiredFromNodes process children out

end

/-- What the bindings of a process need, beside its tree. -/
structure Needs extends Required where
  permissions : SortedSet Permission
  profiles : SortedSet Digest
  sites : SortedSet Digest
  calibrations : SortedSet Digest
  tools : SortedSet Digest
  transitions : SortedSet Digest
  streams : SortedSet Digest

/-- Several artifacts, in order. -/
def insertAssets : List ArtifactRef → SortedMap Digest ArtifactRef →
    Except Error (SortedMap Digest ArtifactRef)
  | [], assets => .ok assets
  | asset :: rest, assets =>
    match insertAsset assets asset with
    | .error e => .error e
    | .ok assets => insertAssets rest assets

/-- The artifacts that the body of an intent refers to. -/
def bodyAssets : Body → List ArtifactRef
  | .trajectory trajectory _ _ => [trajectory]
  | .program program parameterSet => [program, parameterSet]
  | _ => []

/-- What one binding needs. -/
def requireAction (needs : Needs) (e : Name × ActionBinding) : Except Error Needs :=
  let intent := e.2.intent
  let needs := { needs with
    permissions := needs.permissions.add (.operationSubmit e.1)
    profiles := needs.profiles.add intent.profileDigest
    sites := needs.sites.add intent.siteConfigDigest
    calibrations := needs.calibrations.addAll intent.calibrationDigests }
  match insertAssets (bodyAssets intent.body) needs.assets with
  | .error error => .error error
  | .ok assets =>
    let needs := { needs with assets }
    match intent.body with
    | .trajectory _ _ toolDigest => .ok { needs with tools := needs.tools.add toolDigest }
    | .mode _ transitionProfile =>
      .ok { needs with transitions := needs.transitions.add transitionProfile }
    | .control _ sampleSchema streamProfile =>
      .ok { needs with
        streams := needs.streams.add streamProfile
        schemas := needs.schemas.add sampleSchema }
    | .program .. | .predicate .. | .lifecycle .. => .ok needs

/-- The needs of every binding, in the order of the names. -/
def requireActions : List (Name × ActionBinding) → Needs → Except Error Needs
  | [], needs => .ok needs
  | e :: es, needs =>
    match requireAction needs e with
    | .error error => .error error
    | .ok needs => requireActions es needs

/-- Everything that a process needs. -/
def needsOf (process : ResolvedProcess) : Except Error Needs := do
  let required ← requiredFromNode process process.root ⟨.empty, .empty⟩
  requireActions process.bindings.entries
    { toRequired := required
      permissions := SortedSet.add .empty .artifactRead
      profiles := .empty, sites := .empty, calibrations := .empty, tools := .empty
      transitions := .empty, streams := .empty }

/-- The permissions, with one for each schema. -/
def Needs.granted (needs : Needs) : SortedSet Permission :=
  needs.permissions.addAll (needs.schemas.elements.map .observationRead)

/-! ## Assembly -/

/-- A package that has not been signed. -/
structure Candidate (Text : Type) where
  manifest : Manifest
  files : SortedMap PackagePath Text
  deriving DecidableEq

/-- The files of a process package. -/
def sourcePath : PackagePath := "process/source.json"
/-- The bindings. -/
def bindingsPath : PackagePath := "process/bindings.json"
/-- The input it was compiled from. -/
def inputPath : PackagePath := "authoring/compile-input.json"
/-- The recipe. -/
def recipePath : PackagePath := "authoring/package-recipe.json"
/-- The requirements. -/
def contextPath : PackagePath := "process/context-requirements.json"

/-- The limit of a candidate. -/
def maxCandidateBytes : ℕ := 4 * 1024 * 1024

/-- The requirements that the needs amount to. -/
def contextOf (input : CompileInput) (needs : Needs) : ContextRequirements where
  schema := "rx.process-context-requirements.v1"
  catalog := input.catalogDigest
  profiles := needs.profiles.elements
  siteConfigurations := needs.sites.elements
  calibrations := needs.calibrations.elements
  tools := needs.tools.elements
  transitions := needs.transitions.elements
  streams := needs.streams.elements

variable {Text : Type} [Canonical Text]

/-- The documents of a candidate and the paths they are at. -/
def filesOf (source : ProcessSource) (input : CompileInput) (recipe : Recipe)
    (context : ContextRequirements) : SortedMap PackagePath Text :=
  SortedMap.empty.overlay
    [(sourcePath, source.json), (bindingsPath, mapJson bindingJson input.bindings),
      (inputPath, input.json), (recipePath, recipe.json), (contextPath, context.json)]
    fun document => some (Canonical.bytes document)

/-- The manifest over the files. -/
def manifestOf (recipe : Recipe) (needs : Needs) (files : SortedMap PackagePath Text) :
    Manifest where
  schema := "rx.package.v1"
  package := recipe.package
  version := recipe.version
  publisher := recipe.publisher
  contracts := recipe.contracts
  targets := recipe.targets
  entry := .process sourcePath
  permissions := needs.granted.elements
  dependencies := recipe.dependencies
  assets := recipe.assets
  files := files.entries.map fun e =>
    { path := e.1
      sha256 := Canonical.contentDigest e.2
      sizeBytes := Canonical.length e.2
      executable := false }

/-- The rules of the package verifier, under the recipe's own contracts and first target. -/
def validateCandidateManifest (m : Manifest) : Except VerifyError Unit :=
  match m.targets with
  | [] => .error (.invalid "index out of bounds")
  | target :: _ => validateManifest m
    { additionalPackageAbis := ∅
      contracts := m.contracts
      target
      maxFiles := 32
      maxContentBytes := maxCandidateBytes }

/-- The artifacts that a recipe declares, by digest. -/
def declaredAssets (recipe : Recipe) : SortedMap Digest ArtifactRef :=
  SortedMap.empty.overlay (recipe.assets.map fun asset => (asset.sha256, asset)) some

variable [Hashing]

/-- Compile the input and make a candidate of it. -/
def assemble (input : CompileInput) (recipe : Recipe) : Except Error (Candidate Text) := do
  if recipe.schema ≠ "rx.process-package-recipe.v1" ∨ 128 < recipe.version.text.utf8ByteSize ∨
      recipe.version.build ≠ "" ∨ recipe.targets = [] ∨ 8 < recipe.targets.length ∨
      128 < recipe.dependencies.length ∨ 1024 < recipe.assets.length then
    throw (.invalid "recipe shape")
  let source ← (input.validate Text).mapError .invalid
  let resolved ← (compile source input.bindings).mapError .compile
  if resolved.bindings.entries.length ≠ input.bindings.entries.length then
    throw (.invalid "unused input binding")
  let needs ← needsOf resolved
  if (declaredAssets recipe).entries.length ≠ recipe.assets.length ∨
      ∃ e ∈ needs.assets.entries, (declaredAssets recipe).get? e.1 ≠ some e.2 then
    throw (.invalid "required artifact references are not declared exactly")
  let files := filesOf source input recipe (contextOf input needs)
  if maxCandidateBytes < (files.entries.map fun e => Canonical.length e.2).sum then
    throw (.invalid "process package candidate exceeds 4 MiB")
  let manifest := manifestOf recipe needs files
  (validateCandidateManifest manifest).mapError .package
  return { manifest, files }

/-- The checks of an assembly, and the candidate it returns. -/
structure Assembled (input : CompileInput) (recipe : Recipe) (source : ProcessSource)
    (p : ResolvedProcess) (needs : Needs) (c : Candidate Text) : Prop where
  shape : ¬ (recipe.schema ≠ "rx.process-package-recipe.v1" ∨
    128 < recipe.version.text.utf8ByteSize ∨ recipe.version.build ≠ "" ∨ recipe.targets = [] ∨
    8 < recipe.targets.length ∨ 128 < recipe.dependencies.length ∨ 1024 < recipe.assets.length)
  validated : input.validate Text = .ok source
  compiled : compile source input.bindings = .ok p
  used : p.bindings.entries.length = input.bindings.entries.length
  needed : needsOf p = .ok needs
  distinct : (declaredAssets recipe).entries.length = recipe.assets.length
  declared : ∀ e ∈ needs.assets.entries, (declaredAssets recipe).get? e.1 = some e.2
  files : c.files = filesOf source input recipe (contextOf input needs)
  small : (c.files.entries.map fun e => Canonical.length e.2).sum ≤ maxCandidateBytes
  manifest : c.manifest = manifestOf recipe needs c.files
  valid : validateCandidateManifest c.manifest = .ok ()

theorem assemble_eq_ok {input : CompileInput} {recipe : Recipe} {c : Candidate Text} :
    assemble input recipe = .ok c ↔ ∃ source p needs, Assembled input recipe source p needs c := by
  simp only [assemble, Checks.guard_eq_ok, Checks.bind_eq_ok, Checks.mapError_eq_ok,
    Checks.pure_eq_ok]
  constructor
  · rintro ⟨hshape, source, hsource, p, hp, hused, needs, hneeds, hdeclared, hsmall, _, hvalid, rfl⟩
    rw [not_or, not_not] at hdeclared
    refine ⟨source, p, needs, hshape, hsource, hp, not_not.mp hused, hneeds, hdeclared.1, ?_, rfl,
      not_lt.mp hsmall, rfl, hvalid⟩
    intro e he
    by_contra hne
    exact hdeclared.2 ⟨e, he, hne⟩
  · rintro ⟨source, p, needs, h⟩
    obtain ⟨manifest, files⟩ := c
    obtain rfl : files = _ := h.files
    have hmanifest := h.manifest
    dsimp only at hmanifest
    subst hmanifest
    refine ⟨h.shape, source, h.validated, p, h.compiled, not_not.mpr h.used, needs, h.needed, ?_,
      not_lt.mpr h.small, (), h.valid, rfl⟩
    rintro (hne | ⟨e, he, hne⟩)
    · exact hne h.distinct
    · exact hne (h.declared e he)

/-- The procedure of an intervention. -/
def clearing : ArtifactRef := ⟨plainDigest, "rx.procedure.v1", 10⟩

/-- A flow that loads, waits until the part is there and has the cell cleared. -/
def loadAndCheck : ProcessSource where
  schema := "rx.process-source.v1"
  process := "example"
  entry := "main"
  flows := [⟨"main", "all", [⟨"all", .sequence ["load", "check", "clear"]⟩,
    ⟨"load", .operation "load"⟩, ⟨"check", .wait "loaded" 1000⟩,
    ⟨"clear", .intervention clearing⟩]⟩]
  conditions := SortedMap.empty.insert "loaded" (.setContains "parts" "rx.parts.v1" "unit" "part")

/-- An input with this process. -/
def loadInput : CompileInput where
  deviceSources := .empty
  schema := "rx.process-compile-input.v1"
  draft := "00000000-0000-4000-8000-000000000001"
  cell := "cell/sim"
  sourceRevision := 2
  bindingRevision := 1
  sourceDocumentDigest := plainDigest
  bindingsDigest := plainDigest
  catalogDigest := plainDigest
  source := loadAndCheck.json
  bindings := loadBindings

/-- A recipe that declares the procedure. -/
def loadRecipe : Recipe where
  schema := "rx.process-package-recipe.v1"
  package := "test/package"
  version := ⟨0, 1, 0, "", ""⟩
  publisher := "test-only"
  contracts := ⟨plainDigest, plainDigest, "rx.package-abi.v1"⟩
  targets := [⟨.linux, .arm64, none⟩]
  dependencies := []
  assets := [clearing]

end RxSolutions.Package
