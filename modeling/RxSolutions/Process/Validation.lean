import RxSolutions.Process.Compile
import RxSolutions.Process.Tree

/-!
# Validation of resolved processes

A resolved process that comes from outside is checked by a walk over its tree that has its
own bounds and its own reading of resources. The walk accepts exactly the well-formed
processes.
-/

namespace RxSolutions.Process

open Domain Durable

variable [Hashing]

/-- The identities and the bindings seen so far. -/
structure Seen where
  ids : Finset Name
  used : Finset Name

/-- The checks of a node's place and identity. -/
def claim (p : ResolvedProcess) (node : CompiledNode) (depth : ℕ) (seen : Seen) :
    Except String Seen :=
  if 64 < depth ∨ 4096 ≤ seen.ids.card ∨ node.id ∈ seen.ids then
    .error "compiled node count/depth/identity"
  else if node.id ≠ nodeId p.process node.source then
    .error "compiled node/source identity mismatch"
  else .ok { seen with ids := insert node.id seen.ids }

/-- The checks of a node without children, and its resources. -/
def visitLeaf (p : ResolvedProcess) (seen : Seen) :
    CompiledNode → Except String (Finset Name × Seen)
  | .operation _ _ binding =>
    match p.bindings.get? binding with
    | none => .error "compiled binding missing"
    | some action =>
      match action.intent.normalized with
      | .error e => .error ("invalid input: " ++ e)
      | .ok _ => .ok (action.intent.resourceSet.toFinset,
          { seen with used := insert binding seen.used })
  | .wait _ _ condition timeoutNs =>
    if timeoutNs = 0 ∨ p.conditions.get? condition = none then .error "wait definition"
    else .ok (∅, seen)
  | .sequence .. | .parallelAll .. | .branch .. | .intervention .. => .ok (∅, seen)

mutual

/-- Visit a node and those below it, and collect their resources. -/
def visit (p : ResolvedProcess) :
    CompiledNode → ℕ → Seen → Except String (Finset Name × Seen)
  | .sequence id source children, depth, seen =>
    match claim p (.sequence id source children) depth seen with
    | .error e => .error e
    | .ok seen =>
      if children.isEmpty then .error "empty compiled control"
      else visitAll p false children (depth + 1) ∅ seen
  | .parallelAll id source children, depth, seen =>
    match claim p (.parallelAll id source children) depth seen with
    | .error e => .error e
    | .ok seen =>
      if children.isEmpty then .error "empty compiled control"
      else visitAll p true children (depth + 1) ∅ seen
  | .branch id source condition whenTrue whenFalse, depth, seen =>
    match claim p (.branch id source condition whenTrue whenFalse) depth seen with
    | .error e => .error e
    | .ok seen =>
      if p.conditions.get? condition = none then .error "branch condition missing"
      else match visit p whenTrue (depth + 1) seen with
        | .error e => .error e
        | .ok (a, seen) =>
          match visit p whenFalse (depth + 1) seen with
          | .error e => .error e
          | .ok (b, seen) => .ok (a ∪ b, seen)
  | .operation id source binding, depth, seen =>
    match claim p (.operation id source binding) depth seen with
    | .error e => .error e
    | .ok seen => visitLeaf p seen (.operation id source binding)
  | .wait id source condition timeoutNs, depth, seen =>
    match claim p (.wait id source condition timeoutNs) depth seen with
    | .error e => .error e
    | .ok seen => visitLeaf p seen (.wait id source condition timeoutNs)
  | .intervention id source procedure, depth, seen =>
    match claim p (.intervention id source procedure) depth seen with
    | .error e => .error e
    | .ok seen => visitLeaf p seen (.intervention id source procedure)

/-- The checks of the children of a node. -/
def visitAll (p : ResolvedProcess) (parallel : Bool) :
    List CompiledNode → ℕ → Finset Name → Seen → Except String (Finset Name × Seen)
  | [], _, resources, seen => .ok (resources, seen)
  | child :: children, depth, resources, seen =>
    match visit p child depth seen with
    | .error e => .error e
    | .ok (subset, seen) =>
      if parallel ∧ ¬ Disjoint resources subset then .error "parallel resource overlap"
      else visitAll p parallel children depth (resources ∪ subset) seen

end

/-- The texts of the faults of a condition. -/
def shapeTexts : ShapeTexts := ⟨"condition limit", "empty condition", "condition range"⟩

/-- The shape checks of all conditions. -/
def checkConditions : List (Name × Condition) → Except String Unit
  | [] => .ok ()
  | (_, c) :: entries =>
    match conditionShape shapeTexts c 0 0 with
    | .error e => .error e
    | .ok _ => checkConditions entries

/-- Whether a resolved process is well formed. -/
def validate (p : ResolvedProcess) : Except String Unit :=
  if p.schema ≠ "rx.resolved-process.v1" then .error "resolved process schema"
  else match visit p p.root 0 ⟨∅, ∅⟩ with
    | .error e => .error e
    | .ok (_, seen) =>
      if (p.bindings.entries.map (·.1)).toFinset ≠ seen.used then
        .error "unused or missing action bindings"
      else checkConditions p.conditions.entries

/-! ## What the checks mean -/

open CompiledNode

/-- What the body of a node must satisfy. -/
def BodyFine (p : ResolvedProcess) : CompiledNode → Prop
  | .sequence _ _ children => children ≠ []
  | .parallelAll _ _ children => children ≠ [] ∧ children.Pairwise fun a b =>
      Disjoint (a.resourceSet p.bindings) (b.resourceSet p.bindings)
  | .branch _ _ condition _ _ => p.conditions.get? condition ≠ none
  | .operation _ _ binding =>
    ∃ action, p.bindings.get? binding = some action ∧ ∃ i, action.intent.normalized = .ok i
  | .wait _ _ condition timeoutNs => timeoutNs ≠ 0 ∧ p.conditions.get? condition ≠ none
  | .intervention .. => True

/-- What a node must satisfy by itself. -/
structure Fine (p : ResolvedProcess) (n : CompiledNode) : Prop where
  id : n.id = nodeId p.process n.source
  body : BodyFine p n

/-- What was seen, with some nodes more. -/
def Seen.add (seen : Seen) (ns : List CompiledNode) : Seen :=
  ⟨seen.ids ∪ idsOf ns, seen.used ∪ usedBy ns⟩

section Walk

variable {p : ResolvedProcess} {t : CompiledNode} {ts : List CompiledNode} {levels depth : ℕ}
  {ids res acc : Finset Name} {seen seen' : Seen}

omit [Hashing] in
@[simp] theorem Seen.add_nil (seen : Seen) : seen.add [] = seen := by
  simp [Seen.add, idsOf, usedBy]

omit [Hashing] in
theorem Seen.add_append (seen : Seen) (a b : List CompiledNode) :
    seen.add (a ++ b) = (seen.add a).add b := by
  simp [Seen.add, idsOf, usedBy, Finset.union_assoc]

theorem claim_eq_ok : claim p t depth seen = .ok seen' ↔
    depth ≤ 64 ∧ Fits seen.ids [t] ∧ t.id = nodeId p.process t.source ∧
      seen' = { seen with ids := insert t.id seen.ids } := by
  rw [fits_singleton]
  unfold claim
  constructor
  · intro h
    split at h
    · cases h
    rename_i hplace
    simp only [not_or, not_lt, not_le] at hplace
    split at h
    · cases h
    rename_i hid
    exact ⟨hplace.1, ⟨hplace.2.2, hplace.2.1⟩, not_not.mp hid, (Except.ok.inj h).symm⟩
  · rintro ⟨hdepth, ⟨hfresh, hroom⟩, hid, rfl⟩
    rw [if_neg (by simp [hfresh]; omega), if_neg (not_not.mpr hid)]

/-- What `visit` must establish for a tree. -/
def Visited (p : ResolvedProcess) (t : CompiledNode) : Prop :=
  ∀ depth seen res seen', visit p t depth seen = .ok (res, seen') ↔
    Forest (Fine p) (65 - depth) seen.ids [t] ∧ res = t.resourceSet p.bindings ∧
      seen' = seen.add t.nodes

theorem visitAll_eq_ok {parallel : Bool} (ih : ∀ t ∈ ts, Visited p t)
    (hroom : seen.ids.card ≤ 4096) :
    visitAll p parallel ts depth acc seen = .ok (res, seen') ↔
      Forest (Fine p) (65 - depth) seen.ids ts ∧ (parallel = true → Apart p.bindings acc ts) ∧
      res = acc ∪ resourcesOf p.bindings ts ∧ seen' = seen.add (ts.flatMap nodes) := by
  induction ts generalizing acc seen with
  | nil =>
    simp only [visitAll, Except.ok.injEq, Prod.mk.injEq, List.flatMap_nil, Seen.add_nil]
    simp [forest_nil hroom, Apart, resourcesOf, eq_comm]
  | cons t ts rest =>
    have ht := ih t List.mem_cons_self
    have rest := fun acc seen => @rest acc seen fun c hc => ih c (List.mem_cons_of_mem _ hc)
    have hunion : resourcesOf p.bindings (t :: ts) =
        t.resourceSet p.bindings ∪ resourcesOf p.bindings ts := rfl
    rw [visitAll, forest_cons, apart_cons, hunion, List.flatMap_cons, Seen.add_append,
      ← Finset.union_assoc]
    constructor
    · intro h
      split at h
      · cases h
      rename_i subset seen₁ hvisit
      obtain ⟨hsound, rfl, rfl⟩ := (ht depth seen subset seen₁).mp hvisit
      split at h
      · cases h
      rename_i hparallel
      obtain ⟨hsounds, hapart, rfl, rfl⟩ := (rest _ _ hsound.card_le).mp h
      exact ⟨⟨hsound, hsounds⟩, fun hp => ⟨by simpa [hp] using hparallel, hapart hp⟩, rfl, rfl⟩
    · rintro ⟨⟨hsound, hsounds⟩, hapart, rfl, rfl⟩
      have hvisit := (ht depth seen _ _).mpr ⟨hsound, rfl, rfl⟩
      have hparallel : ¬ (parallel = true ∧ ¬ Disjoint acc (t.resourceSet p.bindings)) :=
        fun h => h.2 (hapart h.1).1
      simp only [hvisit, if_neg hparallel]
      exact (rest _ _ hsound.card_le).mpr ⟨hsounds, fun hp => (hapart hp).2, rfl, rfl⟩

/-- The checks of a node after its identity was claimed. -/
def visitBody (p : ResolvedProcess) (depth : ℕ) (seen : Seen) :
    CompiledNode → Except String (Finset Name × Seen)
  | .sequence _ _ children =>
    if children.isEmpty then .error "empty compiled control"
    else visitAll p false children (depth + 1) ∅ seen
  | .parallelAll _ _ children =>
    if children.isEmpty then .error "empty compiled control"
    else visitAll p true children (depth + 1) ∅ seen
  | .branch _ _ condition whenTrue whenFalse =>
    if p.conditions.get? condition = none then .error "branch condition missing"
    else visitAll p false [whenTrue, whenFalse] (depth + 1) ∅ seen
  | t => visitLeaf p seen t

theorem visit_eq (t : CompiledNode) (depth : ℕ) (seen : Seen) :
    visit p t depth seen = claim p t depth seen >>= fun seen => visitBody p depth seen t := by
  cases t with
  | branch id source condition whenTrue whenFalse =>
    simp only [visit, visitBody, visitAll]
    cases claim p (.branch id source condition whenTrue whenFalse) depth seen with
    | error e => rfl
    | ok seen =>
      simp only [bind, Except.bind]
      split
      · rfl
      · cases visit p whenTrue (depth + 1) seen with
        | error e => rfl
        | ok a =>
          simp only [Bool.false_eq_true, false_and, if_false]
          cases visit p whenFalse (depth + 1) a.2 <;> simp
  | sequence id source children | parallelAll id source children
  | operation id source binding | wait id source condition timeoutNs
  | intervention id source procedure =>
    rw [visit]
    split <;> simp_all [bind, Except.bind, visitBody]

omit [Hashing] in
/-- What was seen after a whole tree, from what was seen at its root. -/
theorem Seen.add_nodes (seen : Seen) (t : CompiledNode) :
    seen.add t.nodes = (Seen.mk (insert t.id seen.ids) (seen.used ∪ usedBy [t])).add
      (t.children.flatMap nodes) := by
  rw [nodes_eq, ← List.singleton_append, Seen.add_append, ← union_idsOf_singleton]
  rfl

/-- A node that is no operation adds nothing to the resources and bindings. -/
theorem visitBody_control {levels : ℕ} (hbinding : t.binding? = none) {P : Prop} :
    (P ∧ Forest (Fine p) levels seen.ids t.children) ∧
      res = t.ownResources p.bindings ∪ resourcesOf p.bindings t.children ∧
      seen' = (Seen.mk seen.ids (seen.used ∪ usedBy [t])).add (t.children.flatMap nodes) ↔
    P ∧ Forest (Fine p) levels seen.ids t.children ∧ res = ∅ ∪ resourcesOf p.bindings t.children ∧
      seen' = seen.add (t.children.flatMap nodes) := by
  rw [ownResources_eq_empty hbinding, usedBy_eq_empty hbinding, Finset.union_empty, and_assoc]

theorem visitBody_eq_ok (ih : ∀ c ∈ t.children, Visited p c) (hroom : seen.ids.card ≤ 4096) :
    visitBody p depth seen t = .ok (res, seen') ↔
      (BodyFine p t ∧ Forest (Fine p) (65 - (depth + 1)) seen.ids t.children) ∧
      res = t.resourceSet p.bindings ∧
      seen' = (Seen.mk seen.ids (seen.used ∪ usedBy [t])).add (t.children.flatMap nodes) := by
  have hall := fun parallel =>
    @visitAll_eq_ok _ p t.children (depth + 1) res ∅ seen seen' parallel ih hroom
  have hnil : Forest (Fine p) (65 - (depth + 1)) seen.ids [] := forest_nil hroom
  rw [resourceSet_eq]
  generalize 65 - (depth + 1) = levels at hall hnil ⊢
  cases t with
  | sequence id source cs =>
    rw [visitBody_control rfl]
    simp only [visitBody, BodyFine, CompiledNode.children] at hall ⊢
    cases cs with
    | nil => simp
    | cons c cs => simpa using hall false
  | parallelAll id source cs =>
    rw [visitBody_control rfl]
    simp only [visitBody, BodyFine, CompiledNode.children] at hall ⊢
    cases cs with
    | nil => simp
    | cons c cs => simpa [and_left_comm, apart_empty] using hall true
  | branch id source condition whenTrue whenFalse =>
    rw [visitBody_control rfl]
    simp only [visitBody, BodyFine, CompiledNode.children] at hall ⊢
    by_cases hcondition : p.conditions.get? condition = none
    · simp [hcondition]
    · simpa [hcondition] using hall false
  | operation id source binding =>
    simp only [visitBody, visitLeaf, BodyFine, CompiledNode.children]
    cases haction : p.bindings.get? binding with
    | none => simp
    | some action =>
      cases hnormal : action.intent.normalized with
      | error e => simp [hnormal]
      | ok i =>
        simp [hnil, hnormal, ownResources, binding?, label, haction, resourcesOf, usedBy,
          eq_comm, Finset.union_comm]
  | wait id source condition timeoutNs =>
    rw [visitBody_control rfl]
    simp only [visitBody, visitLeaf, BodyFine, CompiledNode.children]
    by_cases hwait : timeoutNs = 0 ∨ p.conditions.get? condition = none
    · simp only [if_pos hwait, reduceCtorEq, false_iff]
      tauto
    · rw [if_neg hwait]
      rw [not_or] at hwait
      simp [hnil, hwait, resourcesOf, eq_comm]
  | intervention id source procedure =>
    rw [visitBody_control rfl]
    simp [visitBody, visitLeaf, BodyFine, CompiledNode.children, hnil, resourcesOf, eq_comm]

/-- The walk accepts exactly the sound trees, and returns their resources. -/
theorem visit_eq_ok (p : ResolvedProcess) (t : CompiledNode) : Visited p t := by
  induction t with
  | h t ih =>
  intro depth seen res seen'
  rw [visit_eq, Seen.add_nodes, forest_root, Checks.bind_eq_ok]
  constructor
  · rintro ⟨seen₁, hclaim, h⟩
    obtain ⟨hdepth, hfits, hid, rfl⟩ := claim_eq_ok.mp hclaim
    obtain ⟨⟨hbody, hsound⟩, hres, hseen⟩ := (visitBody_eq_ok ih hfits.card_insert_le).mp h
    exact ⟨⟨hdepth, ⟨hfits, hid, hbody⟩, hsound⟩, hres, hseen⟩
  · rintro ⟨⟨hdepth, ⟨hfits, hfine⟩, hsound⟩, hres, hseen⟩
    exact ⟨_, claim_eq_ok.mpr ⟨hdepth, hfits, hfine.id, rfl⟩,
      (visitBody_eq_ok ih hfits.card_insert_le).mpr ⟨⟨hfine.body, hsound⟩, hres, hseen⟩⟩

end Walk

/-! ## Well-formed processes -/

/-- What a resolved process must satisfy. -/
structure ResolvedProcess.WellFormed (p : ResolvedProcess) : Prop where
  schema : p.schema = "rx.resolved-process.v1"
  within : p.root.Within 65
  fits : Fits ∅ p.root.nodes
  fine : ∀ n ∈ p.root.nodes, Fine p n
  bindings : ∀ binding, p.bindings.get? binding ≠ none ↔ binding ∈ usedBy p.root.nodes
  conditions : ∀ name c, p.conditions.get? name = some c →
    ∃ n, conditionShape shapeTexts c 0 0 = .ok n

theorem ResolvedProcess.WellFormed.forest {p : ResolvedProcess} (h : p.WellFormed) :
    Forest (Fine p) 65 ∅ [p.root] :=
  forest_singleton.mpr ⟨h.within, h.fits, h.fine⟩

omit [Hashing] in
theorem checkConditions_eq_ok {entries : List (Name × Condition)} :
    checkConditions entries = .ok () ↔
      ∀ e ∈ entries, ∃ n, conditionShape shapeTexts e.2 0 0 = .ok n := by
  induction entries with
  | nil => simp [checkConditions]
  | cons e entries ih =>
    rw [checkConditions, List.forall_mem_cons]
    cases hshape : conditionShape shapeTexts e.2 0 0 with
    | error e => simp
    | ok n => simpa using ih

/-- The checks accept exactly the well-formed processes. -/
theorem validate_eq_ok {p : ResolvedProcess} : validate p = .ok () ↔ p.WellFormed := by
  have hvisit := visit_eq_ok p p.root 0 ⟨∅, ∅⟩
  have hadd : (Seen.mk ∅ ∅).add p.root.nodes = ⟨idsOf p.root.nodes, usedBy p.root.nodes⟩ := by
    simp [Seen.add]
  have hconditions : (∀ e ∈ p.conditions.entries, ∃ n, conditionShape shapeTexts e.2 0 0 = .ok n) ↔
      ∀ name c, p.conditions.get? name = some c → ∃ n, conditionShape shapeTexts c 0 0 = .ok n := by
    simp only [Prod.forall, SortedMap.mem_entries]
  unfold validate
  constructor
  · intro h
    split at h
    · cases h
    rename_i hschema
    split at h
    · cases h
    rename_i res seen hwalk
    obtain ⟨hsound, -, rfl⟩ := (hvisit res seen).mp hwalk
    rw [hadd] at h
    split at h
    · cases h
    rename_i hkeys
    obtain ⟨hwithin, hfits, hfine⟩ := forest_singleton.mp hsound
    refine ⟨not_not.mp hschema, hwithin, hfits, hfine, fun binding => ?_,
      hconditions.mp (checkConditions_eq_ok.mp h)⟩
    rw [← SortedMap.mem_keys, ← List.mem_toFinset, not_not.mp hkeys]
  · intro h
    have hkeys : (p.bindings.entries.map (·.1)).toFinset = usedBy p.root.nodes := by
      ext binding
      rw [List.mem_toFinset, SortedMap.mem_keys, h.bindings]
    rw [if_neg (not_not.mpr h.schema), (hvisit _ _).mpr ⟨h.forest, rfl, rfl⟩, hadd]
    simp only [hkeys, ne_eq, not_true_eq_false, if_false]
    exact checkConditions_eq_ok.mpr (hconditions.mpr h.conditions)

end RxSolutions.Process
