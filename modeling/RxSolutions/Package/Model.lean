import Mathlib.Data.Prod.Lex
import RxSolutions.Domain.Intent

/-!
# Package manifests

A package is a manifest and the files that it lists. The manifest says what the package is for,
which permissions it asks for and which documents and packages it relies on. Its collections
stand for sets: they are compared, digested and signed in ascending order.
-/

namespace RxSolutions.Package

open Domain

/-- A relative path with slashes; its syntax is enforced when it is made. -/
abbrev PackagePath := String

/-- What a package is for. -/
inductive PackageKind
  | device | process | ui
  deriving DecidableEq, Repr

/-- The systems that a package can be made for. -/
inductive OperatingSystem
  | linux | windows
  deriving DecidableEq, Repr

/-- The processors that a package can be made for. -/
inductive Architecture
  | amd64 | arm64
  deriving DecidableEq, Repr

/-- A system that a package runs on. -/
structure Target where
  os : OperatingSystem
  architecture : Architecture
  rosDistribution : Option Name
  deriving DecidableEq, Repr

namespace Target

/-- No distribution is no requirement. -/
def supports (target environment : Target) : Prop :=
  target.os = environment.os ∧ target.architecture = environment.architecture ∧
    (target.rosDistribution = none ∨ target.rosDistribution = environment.rosDistribution)

instance (target environment : Target) : Decidable (target.supports environment) :=
  inferInstanceAs (Decidable (_ ∧ _ ∧ (_ ∨ _)))

end Target

/-- What a package may do. -/
inductive Permission
  | artifactRead
  | observationRead (schema : Name)
  | operationSubmit (operation : Name)
  | nativeEndpoint (role : Name)
  | uiPanelRead (topic : Name)
  deriving DecidableEq, Repr

namespace Permission

/-- The kinds of package that may ask for a permission. -/
def allowedFor : Permission → PackageKind → Bool
  | .artifactRead, _ => true
  | .observationRead _, kind => kind = .device || kind = .process
  | .operationSubmit _, kind => kind = .process
  | .nativeEndpoint _, kind => kind = .device
  | .uiPanelRead _, kind => kind = .ui

/-- Permissions are ordered by their kind, as it is declared, and then by what they name. -/
def rank : Permission → ℕ ×ₗ Name
  | .artifactRead => toLex (0, "")
  | .observationRead schema => toLex (1, schema)
  | .operationSubmit operation => toLex (2, operation)
  | .nativeEndpoint role => toLex (3, role)
  | .uiPanelRead topic => toLex (4, topic)

theorem rank_injective : Function.Injective rank := by
  intro p q h
  have hpair : ofLex p.rank = ofLex q.rank := congrArg ofLex h
  cases p <;> cases q <;> simp [rank] at hpair ⊢
  all_goals exact hpair

instance : LinearOrder Permission := LinearOrder.lift' rank rank_injective

end Permission

/-- A file of a package, by its digest and size. -/
structure FileEntry where
  path : PackagePath
  sha256 : Digest
  sizeBytes : Counter
  executable : Bool
  deriving DecidableEq, Repr

/-- A semantic version. -/
structure Version where
  major : Counter
  minor : Counter
  patch : Counter
  pre : String
  build : String
  deriving DecidableEq, Repr

/-- The text of a version. -/
def Version.text (v : Version) : String :=
  toString v.major ++ "." ++ toString v.minor ++ "." ++ toString v.patch ++
    (if v.pre = "" then "" else "-" ++ v.pre) ++ (if v.build = "" then "" else "+" ++ v.build)

/-- A package that another one needs, pinned by its manifest. -/
structure Dependency where
  package : Name
  version : Version
  manifestDigest : Digest
  kind : PackageKind
  deriving DecidableEq, Repr

/-- The contracts that a package is made against. -/
structure ContractSet where
  base : Digest
  cell : Digest
  packageAbi : Name
  deriving DecidableEq, Repr

/-- The files that a package is used through. -/
inductive EntryPoint
  | device (family : PackagePath) (profiles : List PackagePath) (adapter : PackagePath)
  | deviceReference (family : PackagePath) (profiles : List PackagePath) (adapter : PackagePath)
  | process (source : PackagePath)
  | ui (panel : PackagePath)
  deriving DecidableEq, Repr

namespace EntryPoint

/-- The kind of package an entry point belongs to. -/
def kind : EntryPoint → PackageKind
  | .device .. | .deviceReference .. => .device
  | .process _ => .process
  | .ui _ => .ui

/-- The files that an entry point names. -/
def paths : EntryPoint → List PackagePath
  | .device family profiles adapter | .deviceReference family profiles adapter =>
    family :: profiles ++ [adapter]
  | .process source => [source]
  | .ui panel => [panel]

end EntryPoint

/-- What a package says about itself. -/
structure Manifest where
  schema : Name
  package : Name
  version : Version
  publisher : Name
  contracts : ContractSet
  targets : List Target
  entry : EntryPoint
  permissions : List Permission
  dependencies : List Dependency
  assets : List ArtifactRef
  files : List FileEntry
  deriving DecidableEq, Repr

/-! ## Checks -/

/-- The errors of the package verifier that its structural checks return. -/
inductive VerifyError
  | invalid (reason : String)
  | untrusted
  | incompatible
  deriving DecidableEq, Repr

/-- What the structural checks read of a policy. -/
structure VerificationPolicy where
  additionalPackageAbis : Finset Name
  contracts : ContractSet
  target : Target
  maxFiles : ℕ
  maxContentBytes : Counter

/-- `to_ascii_lowercase`. -/
def lowercase (s : String) : String := s.map Char.toLower

/-- The path up to each of its components. -/
def pathPrefixes (path : PackagePath) : List String :=
  (path.toList.splitOn '/').inits.tail.map fun components =>
    String.ofList (List.intercalate ['/'] components)

/-- Paths that differ, however they are spelled, and are not those of the manifest itself, with
sizes that add up to no more than a limit. -/
def checkPaths (limit : Counter) : List FileEntry → Finset String → Counter →
    Except VerifyError (Finset String)
  | [], paths, _ => .ok paths
  | entry :: entries, paths, total =>
    if lowercase entry.path ∈ paths then .error (.invalid "case-colliding or duplicate path")
    else if lowercase entry.path = "manifest.json" ∨ lowercase entry.path = "manifest.sig.json" then
      .error (.invalid "reserved manifest filename")
    else match checkedAdd total entry.sizeBytes with
      | none => .error (.invalid "content size overflow")
      | some total =>
        if limit < total then .error (.invalid "content size limit")
        else checkPaths limit entries (insert (lowercase entry.path) paths) total

/-- Every directory is spelled in one way. -/
def checkSpelling : List String → List (String × String) → Except VerifyError Unit
  | [], _ => .ok ()
  | part :: parts, spelling =>
    match spelling.lookup (lowercase part) with
    | some old =>
      if old ≠ part then .error (.invalid "case-aliased path hierarchy")
      else checkSpelling parts spelling
    | none => checkSpelling parts ((lowercase part, part) :: spelling)

/-- The checks of the entry point against the inventory. -/
def checkEntry (m : Manifest) : Except VerifyError Unit :=
  match m.entry with
  | .device _ profiles adapter =>
    if profiles = [] ∨ ¬ profiles.Nodup ∨
        ¬ ∃ f ∈ m.files, f.path = adapter ∧ f.executable = true then
      .error (.invalid "device profile/adapter entry")
    else .ok ()
  | .deviceReference _ profiles _ =>
    if profiles = [] ∨ ¬ profiles.Nodup then .error (.invalid "device reference profiles")
    else if ∃ f ∈ m.files, f.executable = true then .error .untrusted
    else .ok ()
  | .process _ | .ui _ =>
    if ∃ f ∈ m.files, f.executable = true then .error .untrusted else .ok ()

/-- The schema of a manifest goes with its entry point. -/
def validVersion (m : Manifest) : Bool :=
  match m.entry with
  | .deviceReference .. =>
    m.schema = "rx.package.v2" && m.contracts.packageAbi = "rx.package-abi.v2"
  | _ => m.schema = "rx.package.v1"

/-- Structural and target checks; signatures, files and trust are checked elsewhere. -/
def validateManifest (m : Manifest) (policy : VerificationPolicy) : Except VerifyError Unit := do
  if 8 < policy.additionalPackageAbis.card ∨
      policy.contracts.packageAbi ∈ policy.additionalPackageAbis then
    throw (.invalid "additional package ABI policy")
  if ¬ validVersion m ∨ m.version.build ≠ "" then throw (.invalid "manifest schema or version")
  if m.contracts.base ≠ policy.contracts.base ∨ m.contracts.cell ≠ policy.contracts.cell ∨
      (m.contracts.packageAbi ≠ policy.contracts.packageAbi ∧
        m.contracts.packageAbi ∉ policy.additionalPackageAbis) ∨
      ¬ ∃ target ∈ m.targets, target.supports policy.target then
    throw .incompatible
  if m.targets = [] ∨ ¬ m.targets.Nodup ∨ m.files = [] ∨ policy.maxFiles < m.files.length ∨
      4096 < policy.maxFiles ∨ ¬ m.permissions.Nodup then
    throw (.invalid "empty/duplicate or excessive manifest collection")
  if ∃ p ∈ m.permissions, p.allowedFor m.entry.kind = false then throw .untrusted
  let paths ← checkPaths policy.maxContentBytes m.files ∅ 0
  checkSpelling (m.files.flatMap fun f => pathPrefixes f.path) []
  if ∃ f ∈ m.files, ∃ directory ∈ (pathPrefixes (lowercase f.path)).dropLast,
      directory ∈ paths then
    throw (.invalid "file/directory path collision")
  if ¬ m.entry.paths.Nodup then throw (.invalid "entrypoint role collision")
  if ∃ path ∈ m.entry.paths, ¬ ∃ f ∈ m.files, f.path = path then
    throw (.invalid "entry point absent from inventory")
  checkEntry m
  if (∃ d ∈ m.dependencies, d.package = m.package) ∨
      ¬ (m.dependencies.map (·.package)).Nodup then
    throw (.invalid "self or duplicate dependency")
  if ¬ (m.assets.map (·.sha256)).Nodup then throw (.invalid "duplicate asset")

end RxSolutions.Package
