import Mathlib.Data.List.Sort
import RxSolutions.Domain.Types

/-!
# Intents

An intent is what an operation asks a device to do. Its digest is taken over the
normalised form, in which the lists that stand for sets are sorted, so two intents
with the same digest name the same resources.
-/

namespace RxSolutions.Domain

/-- The kinds of intent. -/
inductive Kind
  | finiteAction | ensureState | modeTransition | controlSession | lifecycleTransition
  deriving DecidableEq, Repr

/-- The verbs of a lifecycle intent. -/
inductive LifecycleVerb
  | prepare | activate | deactivate | shutdown
  deriving DecidableEq, Repr

/-- What an intent of each kind carries. -/
inductive Body
  | trajectory (trajectory : ArtifactRef) (jointGroup : Name) (toolDigest : Digest)
  | program (program parameterSet : ArtifactRef)
  | predicate (predicateId : Name) (target : TypedValue) (settleMs : Counter)
  | mode (modeId : Name) (transitionProfile : Digest)
  | control (sourceId sampleSchema : Name) (streamProfile : Digest)
  | lifecycle (transition : LifecycleVerb) (targetLevel : Name) (supportEvidence : List Id)
  deriving DecidableEq

/-- What an operation is to do, and under which rules. -/
structure Intent where
  kind : Kind
  target : Name
  profileDigest : Digest
  siteConfigDigest : Digest
  calibrationDigests : List Digest
  resourceSet : List Name
  executionTimeoutMs : Counter
  prepareValidityMs : Counter
  completionRule : Name
  cancelRule : Name
  body : Body
  deriving DecidableEq

/-- The bodies an intent kind may have. -/
def Kind.matches : Kind → Body → Bool
  | .finiteAction, .trajectory .. | .finiteAction, .program .. => true
  | .ensureState, .predicate .. => true
  | .modeTransition, .mode .. => true
  | .controlSession, .control .. => true
  | .lifecycleTransition, .lifecycle .. => true
  | _, _ => false

/-- Names (or digests, or identifiers) in ascending order. -/
def sorted (l : List String) : List String := l.insertionSort (· ≤ ·)

variable {l : List String}

@[simp] theorem mem_sorted {a : String} : a ∈ sorted l ↔ a ∈ l :=
  List.mem_insertionSort _

theorem sorted_perm (l : List String) : (sorted l).Perm l := List.perm_insertionSort _ l

@[simp] theorem nodup_sorted : (sorted l).Nodup ↔ l.Nodup :=
  (sorted_perm l).nodup_iff

@[simp] theorem sorted_eq_nil : sorted l = [] ↔ l = [] := by
  rw [← List.length_eq_zero_iff, (sorted_perm l).length_eq, List.length_eq_zero_iff]

@[simp] theorem sorted_sorted (l : List String) : sorted (sorted l) = sorted l :=
  (List.pairwise_insertionSort _ l).insertionSort_eq

/-! ## Digests of requests -/

section Checked

variable {α : Type} {validate : α → Except String Unit} {canonical : α → α} {sha : α ↪ Digest}
  {a b : α} {d : Digest}

/-- The digest of a request that passes its check, taken over its canonical form. -/
def checkedDigest (validate : α → Except String Unit) (canonical : α → α) (sha : α ↪ Digest)
    (a : α) : Except String Digest := do
  validate a
  return sha (canonical a)

theorem checkedDigest_eq_ok (h : checkedDigest validate canonical sha a = .ok d) :
    sha (canonical a) = d := by
  unfold checkedDigest at h
  cases hvalid : validate a with
  | error e => rw [hvalid] at h; cases h
  | ok u => rw [hvalid] at h; exact Except.ok.inj h

/-- Requests with one digest have one canonical form. -/
theorem canonical_eq_of_checkedDigest_eq (h : checkedDigest validate canonical sha a = .ok d)
    (h' : checkedDigest validate canonical sha b = .ok d) : canonical a = canonical b :=
  sha.injective ((checkedDigest_eq_ok h).trans (checkedDigest_eq_ok h').symm)

end Checked

/-! ## Intents -/

namespace Intent

/-- `Intent::normalized`: check the intent's shape and sort the lists that stand for sets. -/
def normalized (i : Intent) : Except String Intent := do
  if i.executionTimeoutMs = 0 then throw "execution_timeout_ms must be positive"
  if i.prepareValidityMs = 0 then throw "prepare_validity_ms must be positive"
  if i.resourceSet = [] then throw "empty resource set"
  if ¬ i.resourceSet.Nodup then throw "duplicate resource_set"
  if ¬ i.calibrationDigests.Nodup then throw "duplicate calibration_digests"
  if ¬ i.kind.matches i.body then throw "kind/body mismatch"
  let result := { i with
    resourceSet := sorted i.resourceSet
    calibrationDigests := sorted i.calibrationDigests }
  match i.body with
  | .lifecycle transition targetLevel supportEvidence =>
    if ¬ supportEvidence.Nodup then throw "duplicate support_evidence"
    return { result with body := .lifecycle transition targetLevel (sorted supportEvidence) }
  | _ => return result

/-- `Intent::digest` over a collision-free digest of normalised intents. -/
def digest (sha : Intent ↪ Digest) (i : Intent) : Except String Digest := do
  return sha (← i.normalized)

theorem normalized_resourceSet {i n : Intent} (h : i.normalized = .ok n) :
    n.resourceSet = sorted i.resourceSet := by
  simp only [normalized, bind, Except.bind, pure, Except.pure, throw, throwThe,
    MonadExceptOf.throw] at h
  repeat' split at h
  all_goals first | (cases h; rfl) | cases h

theorem matches_sorted (kind : Kind) (transition : LifecycleVerb) (level : Name)
    (evidence : List Id) : kind.matches (.lifecycle transition level (sorted evidence)) =
      kind.matches (.lifecycle transition level evidence) := by
  cases kind <;> rfl

/-- A normal form is its own normal form. -/
theorem normalized_idem {i n : Intent} (h : i.normalized = .ok n) : n.normalized = .ok n := by
  simp only [normalized, bind, Except.bind, pure, Except.pure, throw, throwThe,
    MonadExceptOf.throw] at h
  repeat' split at h
  all_goals first
    | cases h; done
    | (cases h; simp_all [normalized, pure, Except.pure, matches_sorted])

theorem normalized_of_digest {sha : Intent ↪ Digest} {i : Intent} {d : Digest}
    (h : i.digest sha = .ok d) : ∃ n, i.normalized = .ok n ∧ sha n = d := by
  unfold digest at h
  cases hn : i.normalized with
  | error e => rw [hn] at h; cases h
  | ok n => rw [hn] at h; exact ⟨n, rfl, Except.ok.inj h⟩

/-- Intents with one digest use the same resources. -/
theorem mem_resourceSet_of_digest_eq {sha : Intent ↪ Digest} {i j : Intent} {d : Digest}
    (hi : i.digest sha = .ok d) (hj : j.digest sha = .ok d) {r : Name} :
    r ∈ i.resourceSet ↔ r ∈ j.resourceSet := by
  obtain ⟨n, hn, hd⟩ := normalized_of_digest hi
  obtain ⟨m, hm, hd'⟩ := normalized_of_digest hj
  obtain rfl : n = m := sha.injective (hd.trans hd'.symm)
  rw [← mem_sorted, ← normalized_resourceSet hn, normalized_resourceSet hm, mem_sorted]

end Intent

end RxSolutions.Domain
