import RxSolutions.Package.Candidate
import RxSolutions.Process.Evaluation

/-!
# The permissions of a process package

The assembler walks the compiled tree and then its bindings, collecting schemas, artifacts and
permissions. What it collects is exactly what the nodes of the tree use, and whatever the planner
suggests is at one of those nodes.
-/

namespace RxSolutions.Process

open Domain Durable

/-- A schema that occurs in a condition. -/
inductive Condition.Mentions (schema : Name) : Condition → Prop
  | eq {fact unit expected} : Mentions schema (.eq fact schema unit expected)
  | range {fact unit min max} : Mentions schema (.range fact schema unit min max)
  | setContains {fact unit expected} : Mentions schema (.setContains fact schema unit expected)
  | all {children c} (mem : c ∈ children) (part : Mentions schema c) :
      Mentions schema (.all children)
  | any {children c} (mem : c ∈ children) (part : Mentions schema c) :
      Mentions schema (.any children)

namespace CompiledNode

/-- A condition that a node waits for or decides on. -/
def Evaluates (p : ResolvedProcess) (n : CompiledNode) (c : Condition) : Prop :=
  ∃ name, (n.label = .branch name ∨ ∃ timeoutNs, n.label = .wait name timeoutNs) ∧
    p.conditions.get? name = some c

/-- The action of an operation. -/
def Performs (p : ResolvedProcess) (n : CompiledNode) (action : ActionBinding) : Prop :=
  ∃ binding, n.label = .operation binding ∧ p.bindings.get? binding = some action

/-- The permissions that a node uses. -/
def Uses (p : ResolvedProcess) (n : CompiledNode) : Package.Permission → Prop
  | .operationSubmit binding => n.label = .operation binding
  | .observationRead schema => (∃ c, n.Evaluates p c ∧ c.Mentions schema) ∨
      ∃ action sourceId streamProfile, n.Performs p action ∧
        action.intent.body = .control sourceId schema streamProfile
  | .artifactRead | .nativeEndpoint _ | .uiPanelRead _ => False

/-- The procedures, trajectories, programs and parameters that a node refers to. -/
def RefersTo (p : ResolvedProcess) (n : CompiledNode) (artifact : ArtifactRef) : Prop :=
  n.label = .intervention artifact ∨ ∃ action, n.Performs p action ∧
    ((∃ jointGroup toolDigest, action.intent.body = .trajectory artifact jointGroup toolDigest) ∨
      (∃ other, action.intent.body = .program artifact other) ∨
      ∃ other, action.intent.body = .program other artifact)

end CompiledNode

end RxSolutions.Process

namespace RxSolutions.Package

open Domain Durable Process CompiledNode

/-! ## Schemas of a condition -/

theorem mentions_all {schema : Name} {cs : List Condition} :
    (Condition.all cs).Mentions schema ↔ ∃ c ∈ cs, c.Mentions schema := by
  constructor
  · intro h
    cases h with
    | all mem part => exact ⟨_, mem, part⟩
  · exact fun ⟨_, mem, part⟩ => .all mem part

theorem mentions_any {schema : Name} {cs : List Condition} :
    (Condition.any cs).Mentions schema ↔ ∃ c ∈ cs, c.Mentions schema := by
  constructor
  · intro h
    cases h with
    | any mem part => exact ⟨_, mem, part⟩
  · exact fun ⟨_, mem, part⟩ => .any mem part

mutual

theorem mem_conditionSchemas {schema : Name} : ∀ (c : Condition) (out : SortedSet Name),
    schema ∈ (conditionSchemas c out).elements ↔ c.Mentions schema ∨ schema ∈ out.elements
  | .all cs, out => by rw [conditionSchemas, mem_conditionsSchemas cs, mentions_all]
  | .any cs, out => by rw [conditionSchemas, mem_conditionsSchemas cs, mentions_any]
  | .eq fact s unit expected, out => by
    have hiff : (Condition.eq fact s unit expected).Mentions schema ↔ schema = s :=
      ⟨fun h => by cases h; rfl, fun h => h ▸ .eq⟩
    rw [conditionSchemas, SortedSet.mem_add, hiff]
  | .range fact s unit min max, out => by
    have hiff : (Condition.range fact s unit min max).Mentions schema ↔ schema = s :=
      ⟨fun h => by cases h; rfl, fun h => h ▸ .range⟩
    rw [conditionSchemas, SortedSet.mem_add, hiff]
  | .setContains fact s unit expected, out => by
    have hiff : (Condition.setContains fact s unit expected).Mentions schema ↔ schema = s :=
      ⟨fun h => by cases h; rfl, fun h => h ▸ .setContains⟩
    rw [conditionSchemas, SortedSet.mem_add, hiff]

theorem mem_conditionsSchemas {schema : Name} : ∀ (cs : List Condition) (out : SortedSet Name),
    schema ∈ (conditionsSchemas cs out).elements ↔
      (∃ c ∈ cs, c.Mentions schema) ∨ schema ∈ out.elements
  | [], out => by simp [conditionsSchemas]
  | c :: cs, out => by
    rw [conditionsSchemas, mem_conditionsSchemas cs, mem_conditionSchemas c]
    simp only [List.mem_cons, exists_eq_or_imp]
    exact or_left_comm.trans or_assoc.symm

end

/-! ## Artifacts -/

/-- Every artifact that is held is still held. -/
def Keeps (assets assets' : SortedMap Digest ArtifactRef) : Prop :=
  ∀ digest asset, assets.get? digest = some asset → assets'.get? digest = some asset

/-- The artifact is held under its digest. -/
def Holds (assets : SortedMap Digest ArtifactRef) (asset : ArtifactRef) : Prop :=
  assets.get? asset.sha256 = some asset

theorem Keeps.trans {a b c : SortedMap Digest ArtifactRef} (hab : Keeps a b) (hbc : Keeps b c) :
    Keeps a c :=
  fun digest asset h => hbc digest asset (hab digest asset h)

variable {asset : ArtifactRef}

theorem Keeps.holds {a b : SortedMap Digest ArtifactRef} (h : Keeps a b) (ha : Holds a asset) :
    Holds b asset :=
  h _ _ ha

theorem insertAsset_eq_ok {assets assets' : SortedMap Digest ArtifactRef}
    (h : insertAsset assets asset = .ok assets') : Keeps assets assets' ∧ Holds assets' asset := by
  unfold insertAsset at h
  split at h
  · cases h
  rename_i hsame
  cases h
  constructor
  · intro digest old hold
    rw [SortedMap.get?_insert]
    split
    · rename_i heq
      -- what was held under the digest is the artifact itself
      by_contra hne
      apply hsame
      refine ⟨old, heq ▸ hold, fun hold' => hne ?_⟩
      rw [hold']
    · exact hold
  · rw [Holds, SortedMap.get?_insert, if_pos rfl]

theorem insertAssets_eq_ok {l : List ArtifactRef} {assets assets' : SortedMap Digest ArtifactRef}
    (h : insertAssets l assets = .ok assets') :
    Keeps assets assets' ∧ ∀ asset ∈ l, Holds assets' asset := by
  induction l generalizing assets with
  | nil =>
    cases h
    exact ⟨fun _ _ h => h, by simp⟩
  | cons asset l ih =>
    rw [insertAssets] at h
    split at h
    · cases h
    rename_i mid hfirst
    obtain ⟨hkeeps, hholds⟩ := insertAsset_eq_ok hfirst
    obtain ⟨hkeeps', hrest⟩ := ih h
    exact ⟨hkeeps.trans hkeeps', List.forall_mem_cons.mpr ⟨hkeeps'.holds hholds, hrest⟩⟩

/-! ## The walk over the tree -/

/-- What a walk over some nodes added. -/
structure Collected (p : ResolvedProcess) (ns : List CompiledNode) (out out' : Required) :
    Prop where
  schemas : ∀ schema, schema ∈ out'.schemas.elements ↔
    (∃ n ∈ ns, ∃ c, n.Evaluates p c ∧ c.Mentions schema) ∨ schema ∈ out.schemas.elements
  keeps : Keeps out.assets out'.assets
  procedures : ∀ n ∈ ns, ∀ a, n.label = .intervention a → Holds out'.assets a

variable {p : ResolvedProcess} {t : CompiledNode} {out out' out'' : Required}

theorem collected_nil (out : Required) : Collected p [] out out :=
  ⟨by simp, fun _ _ h => h, by simp⟩

theorem Collected.append {a b : List CompiledNode} (ha : Collected p a out out')
    (hb : Collected p b out' out'') : Collected p (a ++ b) out out'' where
  schemas schema := by
    rw [hb.schemas, ha.schemas]
    simp only [List.mem_append, or_and_right, exists_or]
    exact or_left_comm.trans or_assoc.symm
  keeps := ha.keeps.trans hb.keeps
  procedures n hn asset hlabel := by
    obtain hn | hn := List.mem_append.mp hn
    · exact hb.keeps.holds (ha.procedures n hn asset hlabel)
    · exact hb.procedures n hn asset hlabel

/-- A node that neither evaluates a condition nor calls for anyone adds nothing. -/
theorem collected_plain (hplain : t.label = .sequence ∨ t.label = .parallelAll ∨
    ∃ b, t.label = .operation b) (out : Required) : Collected p [t] out out where
  schemas schema := by
    have hnone : ¬ ∃ c, t.Evaluates p c ∧ c.Mentions schema := by
      rintro ⟨c, ⟨name, hname, -⟩, -⟩
      obtain h | h | ⟨b, h⟩ := hplain <;> simp [h] at hname
    simp [hnone]
  keeps _ _ h := h
  procedures n hn a hlabel := by
    rw [List.mem_singleton.mp hn] at hlabel
    obtain h | h | ⟨b, h⟩ := hplain <;> simp [h] at hlabel

theorem collected_condition {name : Name} (hlabel : t.label = .branch name ∨
    ∃ timeoutNs, t.label = .wait name timeoutNs)
    (h : requiredFromCondition p name out = .ok out') : Collected p [t] out out' := by
  unfold requiredFromCondition at h
  split at h
  · cases h
  rename_i c hc
  cases h
  have hevaluates : ∀ c', t.Evaluates p c' ↔ c' = c := by
    intro c'
    constructor
    · rintro ⟨name', hname', hc'⟩
      obtain rfl : name' = name := by
        obtain h | ⟨_, h⟩ := hlabel <;> obtain h' | ⟨_, h'⟩ := hname' <;> simp_all
      exact Option.some.inj (hc'.symm.trans hc)
    · rintro rfl
      exact ⟨name, hlabel, hc⟩
  constructor
  · intro schema
    simp [mem_conditionSchemas, hevaluates]
  · exact fun _ _ h => h
  · intro n hn a ha
    rw [List.mem_singleton.mp hn] at ha
    obtain h | ⟨_, h⟩ := hlabel <;> simp [h] at ha

theorem requiredFromNodes_eq_ok {ts : List CompiledNode}
    (ih : ∀ t ∈ ts, ∀ out out', requiredFromNode p t out = .ok out' →
      Collected p t.nodes out out')
    (h : requiredFromNodes p ts out = .ok out') : Collected p (ts.flatMap nodes) out out' := by
  induction ts generalizing out with
  | nil =>
    cases h
    exact collected_nil _
  | cons t ts rest =>
    rw [requiredFromNodes] at h
    split at h
    · cases h
    rename_i mid hmid
    have hfirst := ih t List.mem_cons_self out mid hmid
    exact hfirst.append (rest (fun c hc => ih c (List.mem_cons_of_mem _ hc)) h)

/-- The walk collects what the nodes of the tree read and call for. -/
theorem requiredFromNode_eq_ok (t : CompiledNode) (out out' : Required)
    (h : requiredFromNode p t out = .ok out') : Collected p t.nodes out out' := by
  induction t generalizing out out' with
  | h t ih =>
  rw [nodes_eq]
  cases t with
  | sequence id source children =>
    rw [requiredFromNode] at h
    exact (collected_plain (Or.inl rfl) out).append (requiredFromNodes_eq_ok ih h)
  | parallelAll id source children =>
    rw [requiredFromNode] at h
    exact (collected_plain (Or.inr (Or.inl rfl)) out).append (requiredFromNodes_eq_ok ih h)
  | operation id source binding =>
    cases h
    exact collected_plain (Or.inr (Or.inr ⟨binding, rfl⟩)) out
  | wait id source condition timeoutNs =>
    rw [requiredFromNode] at h
    exact collected_condition (Or.inr ⟨timeoutNs, rfl⟩) h
  | intervention id source procedure =>
    rw [requiredFromNode] at h
    split at h
    · cases h
    rename_i assets hassets
    cases h
    obtain ⟨hkeeps, hholds⟩ := insertAsset_eq_ok hassets
    refine ⟨fun schema => ?_, hkeeps, fun n hn a ha => ?_⟩
    · simp [Evaluates, CompiledNode.label, CompiledNode.children]
    · rw [List.mem_singleton.mp hn] at ha
      cases ha
      exact hholds
  | branch id source condition whenTrue whenFalse =>
    rw [requiredFromNode] at h
    split at h
    · cases h
    rename_i first hfirst
    have hroot := collected_condition (t := .branch id source condition whenTrue whenFalse)
      (Or.inl rfl) hfirst
    split at h
    · cases h
    rename_i second hsecond
    have hchildren : requiredFromNodes p [whenTrue, whenFalse] first = .ok out' := by
      simp only [requiredFromNodes, hsecond, h]
    exact hroot.append (requiredFromNodes_eq_ok ih hchildren)

/-! ## The loop over the bindings -/

/-- What some bindings added. -/
structure Gathered (es : List (Name × ActionBinding)) (needs needs' : Needs) : Prop where
  permissions : ∀ q, q ∈ needs'.permissions.elements ↔
    (∃ e ∈ es, q = .operationSubmit e.1) ∨ q ∈ needs.permissions.elements
  schemas : ∀ schema, schema ∈ needs'.schemas.elements ↔
    (∃ e ∈ es, ∃ sourceId streamProfile,
      e.2.intent.body = .control sourceId schema streamProfile) ∨ schema ∈ needs.schemas.elements
  keeps : Keeps needs.assets needs'.assets
  assets : ∀ e ∈ es, ∀ a ∈ bodyAssets e.2.intent.body, Holds needs'.assets a

theorem requireAction_eq_ok {needs needs' : Needs} {e : Name × ActionBinding}
    (h : requireAction needs e = .ok needs') : Gathered [e] needs needs' := by
  unfold requireAction at h
  dsimp only at h
  split at h
  · cases h
  rename_i assets hassets
  obtain ⟨hkeeps, hholds⟩ := insertAssets_eq_ok hassets
  cases hbody : e.2.intent.body with
  | trajectory | program | predicate | mode | control | lifecycle =>
    simp only [hbody] at h hholds
    cases h
    constructor
    case permissions => simp
    case schemas => simp [hbody, eq_comm]
    case keeps => exact hkeeps
    case assets => simpa [hbody] using hholds

/-- The loop collects what the bindings need. -/
theorem requireActions_eq_ok {es : List (Name × ActionBinding)} {needs needs' : Needs}
    (h : requireActions es needs = .ok needs') : Gathered es needs needs' := by
  induction es generalizing needs with
  | nil =>
    cases h
    exact ⟨by simp, by simp, fun _ _ h => h, by simp⟩
  | cons e es ih =>
    rw [requireActions] at h
    split at h
    · cases h
    rename_i mid hmid
    have hfirst := requireAction_eq_ok hmid
    have hrest := ih h
    constructor
    · intro q
      rw [hrest.permissions, hfirst.permissions]
      simp only [List.mem_cons, List.mem_nil_iff, or_false, exists_eq_left, exists_eq_or_imp]
      exact or_left_comm.trans or_assoc.symm
    · intro schema
      rw [hrest.schemas, hfirst.schemas]
      simp only [List.mem_cons, List.mem_nil_iff, or_false, exists_eq_left, exists_eq_or_imp]
      exact or_left_comm.trans or_assoc.symm
    · exact hfirst.keeps.trans hrest.keeps
    · intro e' he' a ha
      obtain rfl | he' := List.mem_cons.mp he'
      · exact hrest.keeps.holds (hfirst.assets e' List.mem_cons_self a ha)
      · exact hrest.assets e' he' a ha

/-! ## Assembled packages -/

theorem mem_declaredAssets {recipe : Recipe} {digest : Digest}
    (h : (declaredAssets recipe).get? digest = some asset) : asset ∈ recipe.assets := by
  obtain ⟨a, ha, heq⟩ := List.mem_map.mp (SortedMap.mem_of_overlay h)
  cases heq
  exact ha

/-- What the bindings and the tree of a process need. -/
theorem needsOf_eq_ok {needs : Needs} (h : needsOf p = .ok needs) :
    ∃ required initial, requiredFromNode p p.root ⟨.empty, .empty⟩ = .ok required ∧
      initial.toRequired = required ∧ initial.permissions.elements = [Permission.artifactRead] ∧
        requireActions p.bindings.entries initial = .ok needs := by
  rw [needsOf, Checks.bind_eq_ok] at h
  obtain ⟨required, hrequired, hactions⟩ := h
  exact ⟨required, _, hrequired, rfl, rfl, hactions⟩

/-- The artifacts that the nodes of a process refer to are collected. -/
theorem holds_of_refersTo {needs : Needs} (h : needsOf p = .ok needs) {n : CompiledNode}
    (hn : n ∈ p.root.nodes) {artifact : ArtifactRef} (hrefers : n.RefersTo p artifact) :
    Holds needs.assets artifact := by
  obtain ⟨required, initial, hrequired, rfl, -, hactions⟩ := needsOf_eq_ok h
  have htree := requiredFromNode_eq_ok p.root _ _ hrequired
  have hbindings := requireActions_eq_ok hactions
  obtain hlabel | ⟨action, ⟨binding, -, hget⟩, hbody⟩ := hrefers
  · exact hbindings.keeps.holds (htree.procedures n hn artifact hlabel)
  · apply hbindings.assets (binding, action) (SortedMap.mem_entries.mpr hget)
    obtain ⟨_, _, hbody⟩ | ⟨_, hbody⟩ | ⟨_, hbody⟩ := hbody <;> simp [hbody, bodyAssets]

section Wellformed

variable [Hashing] (hwell : p.WellFormed)

include hwell

/-- The bindings of a process are those of its operations. -/
theorem mem_bindings_iff {binding : Name} {action : ActionBinding}
    (h : p.bindings.get? binding = some action) :
    ∃ n ∈ p.root.nodes, n.label = .operation binding := by
  have hused := (hwell.bindings binding).mp (by simp [h])
  obtain ⟨n, hn, hbinding⟩ := List.mem_filterMap.mp (List.mem_toFinset.mp hused)
  exact ⟨n, hn, binding?_eq_some.mp hbinding⟩

theorem exists_binding {n : CompiledNode} (hn : n ∈ p.root.nodes) {binding : Name}
    (hlabel : n.label = .operation binding) : ∃ action, p.bindings.get? binding = some action := by
  apply Option.ne_none_iff_exists'.mp
  apply (hwell.bindings binding).mpr
  exact List.mem_toFinset.mpr (List.mem_filterMap.mpr ⟨n, hn, binding?_eq_some.mpr hlabel⟩)

/-- The permissions of a process are those its nodes use, and to read artifacts. -/
theorem mem_granted {needs : Needs} (h : needsOf p = .ok needs) (q : Permission) :
    q ∈ needs.granted.elements ↔ q = .artifactRead ∨ ∃ n ∈ p.root.nodes, n.Uses p q := by
  obtain ⟨required, initial, hrequired, rfl, hinitial, hactions⟩ := needsOf_eq_ok h
  have htree := requiredFromNode_eq_ok p.root _ _ hrequired
  have hbindings := requireActions_eq_ok hactions
  have hschemas : ∀ schema, schema ∈ needs.schemas.elements ↔
      ∃ n ∈ p.root.nodes, n.Uses p (.observationRead schema) := by
    intro schema
    rw [hbindings.schemas, htree.schemas]
    simp only [SortedSet.elements_empty, List.not_mem_nil, or_false]
    constructor
    · rintro (⟨e, he, sourceId, streamProfile, hbody⟩ | ⟨n, hn, hreads⟩)
      · have hget := SortedMap.mem_entries.mp he
        obtain ⟨n, hn, hlabel⟩ := mem_bindings_iff hwell hget
        exact ⟨n, hn, Or.inr ⟨e.2, sourceId, streamProfile, ⟨e.1, hlabel, hget⟩, hbody⟩⟩
      · exact ⟨n, hn, Or.inl hreads⟩
    · rintro ⟨n, hn, hreads | ⟨action, sourceId, streamProfile, ⟨binding, -, hget⟩, hbody⟩⟩
      · exact Or.inr ⟨n, hn, hreads⟩
      · exact Or.inl ⟨(binding, action), SortedMap.mem_entries.mpr hget, sourceId, streamProfile,
          hbody⟩
  have hsubmits : ∀ binding, (∃ e ∈ p.bindings.entries, binding = e.1) ↔
      ∃ n ∈ p.root.nodes, n.label = .operation binding := by
    intro binding
    constructor
    · rintro ⟨e, he, rfl⟩
      exact mem_bindings_iff hwell (SortedMap.mem_entries.mp he)
    · rintro ⟨n, hn, hlabel⟩
      obtain ⟨action, haction⟩ := exists_binding hwell hn hlabel
      exact ⟨(binding, action), SortedMap.mem_entries.mpr haction, rfl⟩
  rw [Needs.granted, SortedSet.mem_addAll, hbindings.permissions, hinitial, List.mem_map]
  cases q with
  | artifactRead => simp
  | operationSubmit binding => simpa [Uses] using hsubmits binding
  | observationRead schema => simpa [Uses] using hschemas schema
  | nativeEndpoint | uiPanelRead => simp [Uses]

end Wellformed

section Planning

variable [Hashing]

/-- A permission to read the schemas of the condition of a node. -/
def ReadsCondition (p : ResolvedProcess) (permissions : List Permission) (n : CompiledNode) :
    Prop :=
  ∃ c, n.Evaluates p c ∧ ∀ schema, c.Mentions schema → .observationRead schema ∈ permissions

/-- A package asks for the permissions its process can use and for no others, and declares the
artifacts it refers to; so what the planner suggests for any view is covered. -/
theorem assemble_permissions_exact {Text : Type} [Canonical Text] (input : CompileInput)
    (recipe : Recipe) (c : Candidate Text) (h : assemble input recipe = .ok c) :
    ∃ source p, input.validate Text = .ok source ∧ compile source input.bindings = .ok p ∧
      c.manifest.permissions.Nodup ∧
      (∀ permission, permission ∈ c.manifest.permissions ↔
        permission = .artifactRead ∨ ∃ n ∈ p.root.nodes, n.Uses p permission) ∧
      (∀ n ∈ p.root.nodes, ∀ artifact, n.RefersTo p artifact → artifact ∈ c.manifest.assets) ∧
      ∀ packageDigest view f, plan { p with packageDigest } view = .ok f →
        (∀ id ∈ f.operations, ∃ n ∈ p.root.nodes, n.id = id ∧ ∃ binding,
          n.label = .operation binding ∧ .operationSubmit binding ∈ c.manifest.permissions) ∧
        (∀ id ∈ f.decisions, ∃ n ∈ p.root.nodes, n.id = id ∧ (∃ condition,
          n.label = .branch condition) ∧ ReadsCondition p c.manifest.permissions n) ∧
        ∀ id ∈ f.waits, ∃ n ∈ p.root.nodes, n.id = id ∧ (∃ condition timeoutNs,
          n.label = .wait condition timeoutNs) ∧ ReadsCondition p c.manifest.permissions n := by
  obtain ⟨source, p, needs, hassembled⟩ := assemble_eq_ok.mp h
  have hwell := compile_wellFormed hassembled.compiled
  have hpermissions : ∀ permission, permission ∈ c.manifest.permissions ↔
      permission = .artifactRead ∨ ∃ n ∈ p.root.nodes, n.Uses p permission := by
    intro permission
    rw [hassembled.manifest]
    exact mem_granted hwell hassembled.needed permission
  -- a node with a condition finds it, and its schemas are permitted
  have hreads : ∀ n ∈ p.root.nodes, ∀ name, (n.label = .branch name ∨
      ∃ timeoutNs, n.label = .wait name timeoutNs) →
      ReadsCondition p c.manifest.permissions n := by
    intro n hn name hlabel
    have hfound : p.conditions.get? name ≠ none := by
      have hbody := (hwell.fine n hn).body
      cases n <;> simp_all [CompiledNode.label, BodyFine]
    obtain ⟨condition, hcondition⟩ := Option.ne_none_iff_exists'.mp hfound
    refine ⟨condition, ⟨name, hlabel, hcondition⟩, fun schema hschema => ?_⟩
    apply (hpermissions _).mpr
    exact Or.inr ⟨n, hn, Or.inl ⟨condition, ⟨name, hlabel, hcondition⟩, hschema⟩⟩
  refine ⟨source, p, hassembled.validated, hassembled.compiled, ?_, hpermissions, ?_, ?_⟩
  · rw [hassembled.manifest]
    exact needs.granted.nodup_elements
  · intro n hn artifact hrefers
    rw [hassembled.manifest]
    have hholds := holds_of_refersTo hassembled.needed hn hrefers
    exact mem_declaredAssets (hassembled.declared _ (SortedMap.mem_entries.mpr hholds))
  · intro packageDigest view f hplan
    have hevaluated : evaluate view p.root = .ok f := (planned_of_plan hplan).evaluated
    refine ⟨fun id hid => ?_, fun id hid => ?_, fun id hid => ?_⟩
    · obtain ⟨n, hn, heq, ⟨binding, hlabel⟩, -⟩ := mem_operations hevaluated hid
      exact ⟨n, hn, heq, binding, hlabel, (hpermissions _).mpr (Or.inr ⟨n, hn, hlabel⟩)⟩
    · obtain ⟨n, hn, heq, condition, hlabel⟩ := mem_decisions hevaluated hid
      exact ⟨n, hn, heq, ⟨condition, hlabel⟩, hreads n hn condition (Or.inl hlabel)⟩
    · obtain ⟨n, hn, heq, condition, timeoutNs, hlabel⟩ := mem_waits hevaluated hid
      exact ⟨n, hn, heq, ⟨condition, timeoutNs, hlabel⟩,
        hreads n hn condition (Or.inr ⟨timeoutNs, hlabel⟩)⟩

end Planning

theorem assemble_permissions_exact_loadInput : ∃ (c : Candidate Markup.Json) (p : ResolvedProcess),
    @assemble _ documentTexts plainHashing loadInput loadRecipe = .ok c ∧
      (∀ permission, permission ∈ c.manifest.permissions ↔
        permission = .artifactRead ∨ ∃ n ∈ p.root.nodes, n.Uses p permission) ∧
      (∀ n ∈ p.root.nodes, ∀ artifact, n.RefersTo p artifact → artifact ∈ c.manifest.assets) ∧
      c.manifest.permissions =
        [.artifactRead, .observationRead "rx.parts.v1", .operationSubmit "load"] ∧
      c.manifest.assets = [clearing] := by
  have hok : ((@assemble _ documentTexts plainHashing loadInput loadRecipe).toOption.map fun c =>
      (c.manifest.permissions, c.manifest.assets)) =
      some ([.artifactRead, .observationRead "rx.parts.v1", .operationSubmit "load"],
        [clearing]) := by
    decide +kernel
  cases hc : @assemble _ documentTexts plainHashing loadInput loadRecipe with
  | error e => rw [hc] at hok; cases hok
  | ok c =>
    rw [hc] at hok
    obtain ⟨hgranted, hassets⟩ := Prod.mk.inj (Option.some.inj hok)
    obtain ⟨_, p, _, _, _, hpermissions, hrefers, _⟩ :=
      @assemble_permissions_exact plainHashing _ documentTexts loadInput loadRecipe c hc
    exact ⟨c, p, rfl, hpermissions, hrefers, hgranted, hassets⟩

end RxSolutions.Package
