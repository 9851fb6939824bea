import RxSolutions.Process.Validation

/-!
# Linking a resolved tree to its source

An independent check that a resolved tree is the expansion of a source: a walk with an
explicit stack that compares each node with the source node at its place. It accepts the
trees that match their source, and such a tree is determined by the source.
-/

namespace RxSolutions.Process

open Domain Durable CompiledNode

/-- A place in the expansion of a source: a node of a flow, under a path. -/
structure Position where
  flow : Flow
  id : Name
  path : List String

/-- The label of an expanded node. -/
def NodeBody.label : NodeBody → Label
  | .sequence _ | .repeat .. | .call _ => .sequence
  | .parallelAll _ => .parallelAll
  | .branch condition .. => .branch condition
  | .operation binding => .operation binding
  | .wait condition timeoutNs => .wait condition timeoutNs
  | .intervention procedure => .intervention procedure

/-- The places below a node, in order. -/
def spawn (flows : SortedMap Name Flow) (flow : Flow) (path : List String) (node : Node) :
    Option (List Position) :=
  match node.body with
  | .sequence children | .parallelAll children =>
    some (children.map fun child => ⟨flow, child, path⟩)
  | .branch _ whenTrue whenFalse => some [⟨flow, whenTrue, path⟩, ⟨flow, whenFalse, path⟩]
  | .repeat count child =>
    some ((List.range count).map fun i => ⟨flow, child, repeatPath node.id path i⟩)
  | .call callee =>
    (flows.get? callee).map fun called =>
      [⟨called, called.root, callPath flow.id node.id path⟩]
  | .operation _ | .wait .. | .intervention _ => some []

/-- The tree is the expansion of the place. -/
inductive Matches (flows : SortedMap Name Flow) : Position → CompiledNode → Prop
  | intro (pos : Position) (t : CompiledNode) (node : Node) (below : List Position)
      (hfind : pos.flow.find pos.id = some node)
      (hsource : t.source = ⟨pos.flow.id, node.id, pos.path⟩)
      (hlabel : t.label = node.body.label)
      (hspawn : spawn flows pos.flow pos.path node = some below)
      (hchildren : List.Forall₂ (Matches flows) below t.children) : Matches flows pos t

variable {flows : SortedMap Name Flow} {pos : Position} {t t' : CompiledNode}

/-- A tree is determined by the place it expands and the identities of its nodes. -/
theorem Matches.unique {identify : SourceLocation → Name} (h : Matches flows pos t)
    (h' : Matches flows pos t') (hids : ∀ n ∈ t.nodes, n.id = identify n.source)
    (hids' : ∀ n ∈ t'.nodes, n.id = identify n.source) : t = t' := by
  induction t generalizing pos t' with
  | h t ih =>
  obtain ⟨_, _, node, below, hfind, hsource, hlabel, hspawn, hchildren⟩ := h
  obtain ⟨_, _, node', below', hfind', hsource', hlabel', hspawn', hchildren'⟩ := h'
  obtain rfl : node = node' := Option.some.inj (hfind.symm.trans hfind')
  obtain rfl : below = below' := Option.some.inj (hspawn.symm.trans hspawn')
  have hsame : t.source = t'.source := hsource.trans hsource'.symm
  have hid : t.id = t'.id := by
    rw [hids t (mem_nodes_self t), hids' t' (mem_nodes_self t'), hsame]
  apply ext_of hid hsame (hlabel.trans hlabel'.symm)
  -- the children expand the same places, one by one
  have hcs : ∀ n ∈ t.children.flatMap nodes, n.id = identify n.source := by
    intro n hn
    obtain ⟨c, hc, hn⟩ := List.mem_flatMap.mp hn
    exact hids n (mem_nodes_of_child hc hn)
  have hcs' : ∀ n ∈ t'.children.flatMap nodes, n.id = identify n.source := by
    intro n hn
    obtain ⟨c, hc, hn⟩ := List.mem_flatMap.mp hn
    exact hids' n (mem_nodes_of_child hc hn)
  clear hspawn hspawn' hids hids' hlabel hlabel' hsource hsource'
  generalize t.children = cs at ih hchildren hcs
  generalize t'.children = cs' at hchildren' hcs'
  induction hchildren generalizing cs' with
  | nil =>
    cases hchildren'
    rfl
  | cons hc _ rest =>
    cases hchildren' with
    | cons hc' hrest' =>
      simp only [List.flatMap_cons, List.forall_mem_append] at hcs hcs'
      congr 1
      · exact ih _ List.mem_cons_self hc hc' hcs.1 hcs'.1
      · exact rest (fun c hc => ih c (List.mem_cons_of_mem _ hc)) hcs.2 _ hrest' hcs'.2

/-! ## The walk -/

/-- The checks of one node against its place, and what is left to check below it. -/
def linkStep (flows : SortedMap Name Flow) (pos : Position) (t : CompiledNode) :
    Except String (List (Position × CompiledNode)) :=
  match pos.flow.find pos.id with
  | none => .error "source node missing"
  | some node =>
    if t.source.flow ≠ pos.flow.id ∨ t.source.node ≠ node.id ∨
        t.source.instantiation ≠ pos.path then
      .error "source location differs from expansion position"
    else match node.body, t with
      | .sequence expected, .sequence _ _ actual | .parallelAll expected, .parallelAll _ _ actual =>
        if expected.length ≠ actual.length then .error "control child count differs"
        else .ok ((expected.map fun child => ⟨pos.flow, child, pos.path⟩).zip actual)
      | .branch c a b, .branch _ _ condition whenTrue whenFalse =>
        if c = condition then
          .ok [(⟨pos.flow, a, pos.path⟩, whenTrue), (⟨pos.flow, b, pos.path⟩, whenFalse)]
        else .error "compiled behavior differs from source node"
      | .repeat count child, .sequence _ _ children =>
        if count ≠ children.length then .error "repeat expansion count differs"
        else .ok (((List.range children.length).map fun i =>
          ⟨pos.flow, child, repeatPath node.id pos.path i⟩).zip children)
      | .call callee, .sequence _ _ [child] =>
        match flows.get? callee with
        | none => .error "called flow missing"
        | some next => .ok [(⟨next, next.root, callPath pos.flow.id node.id pos.path⟩, child)]
      | .operation expected, .operation _ _ binding =>
        if expected = binding then .ok [] else .error "compiled behavior differs from source node"
      | .wait expected limit, .wait _ _ condition timeoutNs =>
        if expected = condition ∧ limit = timeoutNs then .ok []
        else .error "compiled behavior differs from source node"
      | .intervention expected, .intervention _ _ procedure =>
        if expected = procedure then .ok [] else .error "compiled behavior differs from source node"
      | _, _ => .error "compiled behavior differs from source node"

/-- The loop over the stack, with the number of nodes it may still look at. -/
def link (flows : SortedMap Name Flow) :
    ℕ → List (Position × CompiledNode) → Finset Name → Except String (Finset Name)
  | _, [], used => .ok used
  | 0, _ :: _, _ => .error "expanded source link limit"
  | n + 1, (pos, t) :: pending, used =>
    match linkStep flows pos t with
    | .error e => .error e
    | .ok pushed => link flows n (pushed.reverse ++ pending) (insert pos.flow.id used)

/-- A check that returns a value returns it when it passes. -/
theorem guard_eq_ok {α : Type*} {condition : Prop} [Decidable condition] {why : String} {a b : α} :
    (if condition then Except.ok a else .error why) = .ok b ↔ condition ∧ b = a := by
  split <;> simp_all [eq_comm]

theorem linkStep_eq_ok {pushed : List (Position × CompiledNode)} :
    linkStep flows pos t = .ok pushed ↔
      ∃ node below, pos.flow.find pos.id = some node ∧
        t.source = ⟨pos.flow.id, node.id, pos.path⟩ ∧ t.label = node.body.label ∧
        spawn flows pos.flow pos.path node = some below ∧ below.length = t.children.length ∧
        pushed = below.zip t.children := by
  unfold linkStep
  cases hfind : pos.flow.find pos.id with
  | none => simp
  | some node =>
    have hsource : t.source = ⟨pos.flow.id, node.id, pos.path⟩ ↔ ¬ (t.source.flow ≠ pos.flow.id ∨
        t.source.node ≠ node.id ∨ t.source.instantiation ≠ pos.path) := by
      cases t.source
      simp
    by_cases hplace : t.source.flow ≠ pos.flow.id ∨ t.source.node ≠ node.id ∨
        t.source.instantiation ≠ pos.path
    · simp [hplace, hsource]
    · simp only [hplace, hsource, if_false, Option.some.injEq, exists_and_left, exists_eq_left',
        not_false_eq_true, true_and]
      obtain ⟨name, body⟩ := node
      -- all pairs of a source body and another kind of node are refused on both sides
      cases body <;> cases t <;> simp [NodeBody.label, label, spawn, CompiledNode.children]
      case sequence.sequence => exact guard_eq_ok
      case parallelAll.parallelAll => exact guard_eq_ok
      case branch.branch => rw [guard_eq_ok, eq_comm]
      case operation.operation => rw [guard_eq_ok, eq_comm]
      case wait.wait => rw [guard_eq_ok, eq_comm, @eq_comm _ _ (_ : Counter)]
      case intervention.intervention => rw [guard_eq_ok, eq_comm]
      case «repeat».sequence count child id source children =>
        rw [guard_eq_ok]
        constructor
        · rintro ⟨rfl, rfl⟩
          exact ⟨rfl, rfl⟩
        · rintro ⟨rfl, rfl⟩
          exact ⟨rfl, rfl⟩
      case call.sequence callee id source children =>
        cases children with
        | nil => cases hcallee : flows.get? callee <;> simp
        | cons child rest =>
          cases rest with
          | nil => cases hcallee : flows.get? callee <;> simp [hcallee, eq_comm]
          | cons => cases hcallee : flows.get? callee <;> simp

/-- A tree matches a place when the checks of its root pass and its children match. -/
theorem matches_iff : Matches flows pos t ↔
    ∃ pushed, linkStep flows pos t = .ok pushed ∧ ∀ x ∈ pushed, Matches flows x.1 x.2 := by
  constructor
  · rintro ⟨_, _, node, below, hfind, hsource, hlabel, hspawn, hchildren⟩
    refine ⟨_, linkStep_eq_ok.mpr ⟨node, below, hfind, hsource, hlabel, hspawn,
      hchildren.length_eq, rfl⟩, ?_⟩
    rintro ⟨a, b⟩ hx
    exact (List.forall₂_iff_zip.mp hchildren).2 hx
  · rintro ⟨pushed, hstep, hall⟩
    obtain ⟨node, below, hfind, hsource, hlabel, hspawn, hlength, rfl⟩ := linkStep_eq_ok.mp hstep
    refine .intro pos t node below hfind hsource hlabel hspawn ?_
    exact List.forall₂_iff_zip.mpr ⟨hlength, fun hx => hall _ hx⟩

/-- What is pushed are the children of the node. -/
theorem map_snd_linkStep {pushed : List (Position × CompiledNode)}
    (h : linkStep flows pos t = .ok pushed) : pushed.map (·.2) = t.children := by
  obtain ⟨node, below, -, -, -, -, hlength, rfl⟩ := linkStep_eq_ok.mp h
  exact List.map_snd_zip hlength.ge

/-- The flows that some nodes come from. -/
def flowsOf (ns : List CompiledNode) : Finset Name := (ns.map (·.source.flow)).toFinset

/-- The number of nodes on the stack. -/
def pendingSize (pending : List (Position × CompiledNode)) : ℕ := (pending.map (·.2.size)).sum

theorem pendingSize_push {pushed pending : List (Position × CompiledNode)}
    (h : linkStep flows pos t = .ok pushed) :
    pendingSize (pushed.reverse ++ pending) + 1 = pendingSize ((pos, t) :: pending) := by
  have hpushed : (pushed.map (·.2.size)).sum = (t.children.map size).sum := by
    rw [← map_snd_linkStep h, List.map_map]
    rfl
  simp only [pendingSize, List.map_append, List.map_reverse, List.sum_append, List.sum_reverse,
    List.map_cons, List.sum_cons, size_eq t, hpushed]
  omega

theorem flowsOf_push {pushed pending : List (Position × CompiledNode)} {used : Finset Name}
    (h : linkStep flows pos t = .ok pushed) :
    insert pos.flow.id used ∪ flowsOf ((pushed.reverse ++ pending).flatMap (·.2.nodes)) =
      used ∪ flowsOf (((pos, t) :: pending).flatMap (·.2.nodes)) := by
  obtain ⟨node, -, -, hsource, -⟩ := linkStep_eq_ok.mp h
  have hpushed : ∀ n, (∃ x ∈ pushed, n ∈ x.2.nodes) ↔ ∃ c ∈ t.children, n ∈ c.nodes := by
    intro n
    rw [← map_snd_linkStep h]
    constructor
    · rintro ⟨x, hx, hn⟩
      exact ⟨x.2, List.mem_map_of_mem hx, hn⟩
    · rintro ⟨c, hc, hn⟩
      obtain ⟨x, hx, rfl⟩ := List.mem_map.mp hc
      exact ⟨x, hx, hn⟩
  ext f
  simp only [flowsOf, Finset.mem_union, Finset.mem_insert, List.mem_toFinset, List.mem_map,
    List.mem_flatMap, List.mem_append, List.mem_reverse, List.mem_cons, or_and_right, exists_or,
    exists_eq_left, hpushed, nodes_eq t, hsource]
  simp only [eq_comm, or_assoc, or_left_comm]

/-- The walk accepts exactly the matching trees of a bounded size. -/
theorem link_eq_ok {n : ℕ} {pending : List (Position × CompiledNode)} {used used' : Finset Name} :
    link flows n pending used = .ok used' ↔
      (∀ x ∈ pending, Matches flows x.1 x.2) ∧ pendingSize pending ≤ n ∧
        used' = used ∪ flowsOf (pending.flatMap (·.2.nodes)) := by
  induction n generalizing pending used with
  | zero =>
    cases pending with
    | nil => simp [link, pendingSize, flowsOf, eq_comm]
    | cons x pending =>
      have hpos := x.2.size_pos
      simp only [link, reduceCtorEq, pendingSize, List.map_cons, List.sum_cons, false_iff]
      omega
  | succ n ih =>
    cases pending with
    | nil => simp [link, pendingSize, flowsOf, eq_comm]
    | cons x pending =>
      obtain ⟨pos, t⟩ := x
      rw [link, List.forall_mem_cons]
      cases hstep : linkStep flows pos t with
      | error e =>
        have hnot : ¬ Matches flows pos t := by
          rw [matches_iff]
          rintro ⟨pushed, hok, -⟩
          rw [hstep] at hok
          cases hok
        simp [hnot]
      | ok pushed =>
        have hmatch : Matches flows pos t ↔ ∀ x ∈ pushed, Matches flows x.1 x.2 := by
          rw [matches_iff, hstep]
          simp
        have hsize : pendingSize (pushed.reverse ++ pending) + 1 =
            pendingSize ((pos, t) :: pending) := pendingSize_push hstep
        simp only [ih, flowsOf_push hstep, hmatch, List.forall_mem_append, List.mem_reverse]
        constructor
        · rintro ⟨hall, hle, heq⟩
          exact ⟨hall, by omega, heq⟩
        · rintro ⟨hall, hle, heq⟩
          exact ⟨hall, by omega, heq⟩

section Verify

variable [Hashing]

/-- Whether a resolved process is what the source unfolds to. -/
def verify (source : ProcessSource) (p : ResolvedProcess) : Except String Unit :=
  if SourceValidation.validate source ≠ [] then .error "invalid source structure"
  else match validate p with
    | .error e => .error e
    | .ok _ =>
      if source.process ≠ p.process ∨
          Hashing.conditions source.conditions ≠ Hashing.conditions p.conditions then
        .error "source/compiled header differs"
      else match source.flowMap.get? source.entry with
        | none => .error "entry missing"
        | some entry =>
          match link source.flowMap 4096 [(⟨entry, entry.root, []⟩, p.root)] ∅ with
          | .error e => .error e
          | .ok used =>
            if used.card ≠ source.flowMap.entries.length then .error "unreachable source flow"
            else .ok ()

/-- What the check of a process against its source establishes. -/
theorem verify_eq_ok {source : ProcessSource} {p : ResolvedProcess} :
    verify source p = .ok () ↔
      SourceValidation.validate source = [] ∧ p.WellFormed ∧ source.process = p.process ∧
      Hashing.conditions source.conditions = Hashing.conditions p.conditions ∧
      ∃ entry, source.flowMap.get? source.entry = some entry ∧
        Matches source.flowMap ⟨entry, entry.root, []⟩ p.root ∧ p.root.size ≤ 4096 ∧
        (flowsOf p.root.nodes).card = source.flowMap.entries.length := by
  rw [← validate_eq_ok]
  unfold verify
  by_cases hsource : SourceValidation.validate source = []
  swap
  · simp [hsource]
  cases hvalid : validate p with
  | error e => simp [hsource]
  | ok u =>
    by_cases hheader : source.process ≠ p.process ∨
        Hashing.conditions source.conditions ≠ Hashing.conditions p.conditions
    · simp only [hsource, ne_eq, not_true_eq_false, if_false, if_pos hheader, reduceCtorEq,
        false_iff]
      tauto
    · rw [not_or, not_not, not_not] at hheader
      cases hentry : source.flowMap.get? source.entry with
      | none => simp [hsource, hheader]
      | some entry =>
        simp only [hsource, ne_eq, not_true_eq_false, if_false, hheader, or_self, true_and,
          Option.some.injEq, exists_eq_left']
        have hlink := fun used' =>
          @link_eq_ok source.flowMap 4096 [(⟨entry, entry.root, []⟩, p.root)] ∅ used'
        simp only [List.mem_singleton, forall_eq, pendingSize, List.map_cons, List.map_nil,
          List.sum_cons, List.sum_nil, add_zero, List.flatMap_cons, List.flatMap_nil,
          List.append_nil, Finset.empty_union] at hlink
        cases hrun : link source.flowMap 4096 [(⟨entry, entry.root, []⟩, p.root)] ∅ with
        | error e =>
          have hnot := (hlink (flowsOf p.root.nodes)).not.mp (by rw [hrun]; simp)
          simp only [reduceCtorEq, false_iff]
          tauto
        | ok used =>
          obtain ⟨hmatch, hsize, rfl⟩ := (hlink used).mp hrun
          simp [hmatch, hsize]

end Verify

end RxSolutions.Process
