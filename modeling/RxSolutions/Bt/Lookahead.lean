import RxSolutions.Bt.Agreement
import RxSolutions.Bt.Requests

/-!
# Interventions seen too early

A parallel node of the engine looks at everything below it that can still matter, also at
what comes later in a sequence. An intervention that the plan has not reached yet is in the
way there: the node holds new work back and keeps running, and the intervention is never
reached.
-/

namespace RxSolutions.Bt

open Domain Durable Executor Process
open CompiledNode (nodes nodes_eq mem_nodes_self mem_nodes_of_child)

variable {view : ProgressView} {t : CompiledNode} {f : Frontier}

mutual

/-- The nodes that a tick visits. -/
def reached (view : ProgressView) : CompiledNode → List CompiledNode
  | .sequence id source children =>
    .sequence id source children :: reachedSequence view children
  | .parallelAll id source children => .parallelAll id source children :: reachedAll view children
  | .branch id source condition whenTrue whenFalse =>
    .branch id source condition whenTrue whenFalse ::
      match view.branches.get? id with
      | none => []
      | some choice => if choice.chosen then reached view whenTrue else reached view whenFalse
  | .operation id source binding => [.operation id source binding]
  | .wait id source condition timeoutNs => [.wait id source condition timeoutNs]
  | .intervention id source procedure => [.intervention id source procedure]

/-- A sequence reaches a child after those before it have succeeded. -/
def reachedSequence (view : ProgressView) : List CompiledNode → List CompiledNode
  | [] => []
  | t :: ts =>
    reached view t ++ if status view t = .success then reachedSequence view ts else []

/-- All that is reached below a list of nodes. -/
def reachedAll (view : ProgressView) : List CompiledNode → List CompiledNode
  | [] => []
  | t :: ts => reached view t ++ reachedAll view ts

end

/-- A parallel node that a tick visits sees an intervention that the plan has not reached. -/
def LooksAhead (view : ProgressView) (f : Frontier) (t : CompiledNode) : Prop :=
  ∃ q ∈ reached view t, q.label = .parallelAll ∧ ¬ Clear view f q

@[simp] theorem reachedAll_eq (ts : List CompiledNode) :
    reachedAll view ts = ts.flatMap (reached view) := by
  induction ts with
  | nil => rfl
  | cons t ts ih => rw [reachedAll, ih, List.flatMap_cons]

theorem mem_reachedSequence {ts : List CompiledNode} {q : CompiledNode}
    (h : q ∈ reachedSequence view ts) : ∃ t ∈ ts, q ∈ reached view t := by
  induction ts with
  | nil => cases h
  | cons t ts ih =>
    rw [reachedSequence, List.mem_append] at h
    obtain h | h := h
    · exact ⟨t, List.mem_cons_self, h⟩
    · split at h
      · obtain ⟨u, hu, hq⟩ := ih h
        exact ⟨u, List.mem_cons_of_mem _ hu, hq⟩
      · cases h

/-- A tick stops at the first child of a sequence that is not done. -/
theorem reachedSequence_current {before after : List CompiledNode}
    (hbefore : ∀ u ∈ before, status view u = .success) (ht : status view t ≠ .success) :
    reachedSequence view (before ++ t :: after) =
      before.flatMap (reached view) ++ reached view t := by
  induction before with
  | nil => rw [List.nil_append, reachedSequence, if_neg ht, List.append_nil]; rfl
  | cons u before ih =>
    rw [List.cons_append, reachedSequence, if_pos (hbefore u List.mem_cons_self),
      ih fun v hv => hbefore v (List.mem_cons_of_mem _ hv), List.flatMap_cons, List.append_assoc]

theorem active_trans {q n : CompiledNode} (hq : q ∈ active view t) (hn : n ∈ active view q) :
    n ∈ active view t := by
  induction t with
  | h t ih =>
  rw [active_eq, List.mem_cons] at hq
  obtain rfl | hq := hq
  · exact hn
  · obtain ⟨c, hc, hq⟩ := List.mem_flatMap.mp hq
    exact mem_active_of_below hc (ih c (mem_children_of_activeBelow hc) hq)

theorem reached_subset_active {q : CompiledNode} (h : q ∈ reached view t) : q ∈ active view t := by
  induction t with
  | h t ih =>
  have hchild : ∀ c ∈ activeBelow view t, q ∈ reached view c → q ∈ active view t :=
    fun c hc hq => mem_active_of_below hc (ih c (mem_children_of_activeBelow hc) hq)
  have hself : q = t → q ∈ active view t := by
    rintro rfl
    exact mem_active_self q
  cases t with
  | sequence id source cs =>
    rw [reached, List.mem_cons] at h
    obtain h | h := h
    · exact hself h
    · obtain ⟨c, hc, hq⟩ := mem_reachedSequence h
      exact hchild c hc hq
  | parallelAll id source cs =>
    rw [reached, List.mem_cons, reachedAll_eq] at h
    obtain h | h := h
    · exact hself h
    · obtain ⟨c, hc, hq⟩ := List.mem_flatMap.mp h
      exact hchild c hc hq
  | branch id source condition whenTrue whenFalse =>
    rw [reached, List.mem_cons] at h
    obtain h | h := h
    · exact hself h
    cases hchoice : view.branches.get? id with
    | none => simp [hchoice] at h
    | some choice =>
      apply hchild _ (activeBelow_chosen hchoice ▸ List.mem_singleton_self _)
      rw [hchoice] at h
      cases hb : choice.chosen <;> simpa [hb] using h
  | operation | wait | intervention => exact hself (List.mem_singleton.mp h)

/-- A tree that is done shows no intervention. -/
theorem Calm.clear (h : Calm view t) : Clear view f t := by
  intro n hn huncleared
  have hproblem := problem_of_blocker (blocker_of_uncleared huncleared)
  rw [h n hn] at hproblem
  cases hproblem

theorem calm_of_completes (h : Completes view t) : Calm view t :=
  fun n hn => (Completes.calm h n hn).1

theorem not_looksAhead_of_calm (h : Calm view t) : ¬ LooksAhead view f t := by
  rintro ⟨q, hq, -, hunclear⟩
  apply hunclear
  apply Calm.clear
  exact fun n hn => h n (active_trans (reached_subset_active hq) hn)

/-- Below a parallel node it is the node itself that looks ahead. -/
theorem looksAhead_parallel (hlabel : t.label = .parallelAll) :
    LooksAhead view f t ↔ ¬ Clear view f t := by
  constructor
  · rintro ⟨q, hq, -, hunclear⟩ hclear
    exact hunclear fun n hn => hclear n (active_trans (reached_subset_active hq) hn)
  · intro hunclear
    refine ⟨t, ?_, hlabel, hunclear⟩
    cases t with
    | parallelAll => exact List.mem_cons_self
    | _ => cases hlabel

/-- The two ways a tick can go: as the plan says, or held up by an intervention that the plan
has not reached. -/
structure TickCases (view : ProgressView) (t : CompiledNode) (f : Frontier) : Prop where
  failure : ¬ LooksAhead view f t → (status view t = .failure ↔ f.state = .failed)
  keys : ¬ LooksAhead view f t → ∀ key, key ∈ (asks view t false).1 ↔ key ∈ suggested f
  running : LooksAhead view f t → status view t = .running
  held : LooksAhead view f t →
    ∀ key, key ∈ (asks view t false).1 ↔ key ∈ suggested f ∧ ¬ IsNew key.2

theorem TickCases.congr {c : CompiledNode} (h : TickCases view c f)
    (hstatus : status view t = status view c) (hasks : asks view t false = asks view c false)
    (hlooks : LooksAhead view f t ↔ LooksAhead view f c) : TickCases view t f where
  failure hn := by
    rw [hstatus]
    exact h.failure fun hc => hn (hlooks.mpr hc)
  keys hn := by
    rw [hasks]
    exact h.keys fun hc => hn (hlooks.mpr hc)
  running hl := by
    rw [hstatus]
    exact h.running (hlooks.mp hl)
  held hl := by
    rw [hasks]
    exact h.held (hlooks.mp hl)

theorem TickCases.of_not (hnot : ¬ LooksAhead view f t)
    (hfailure : status view t = .failure ↔ f.state = .failed)
    (hkeys : ∀ key, key ∈ (asks view t false).1 ↔ key ∈ suggested f) : TickCases view t f :=
  ⟨fun _ => hfailure, fun _ => hkeys, fun h => absurd h hnot, fun h => absurd h hnot⟩

theorem tickCases_parallel {id : Name} {source : SourceLocation} {cs : List CompiledNode}
    (h : evaluate view (.parallelAll id source cs) = .ok f)
    (hids : ((CompiledNode.parallelAll id source cs).nodes.map CompiledNode.id).Nodup)
    (hf : f = Frontier.parallel (cs.map (frontierOf view))) :
    TickCases view (.parallelAll id source cs) f := by
  -- once a problem is seen, new work is held back
  have hheld : anyBelow view problem (.parallelAll id source cs) = true →
      ∀ key, key ∈ (asks view (.parallelAll id source cs) false).1 ↔
        key ∈ suggested f ∧ ¬ IsNew key.2 := by
    intro hproblem key
    have hsame : asks view (.parallelAll id source cs) false =
        asks view (.parallelAll id source cs) true := by
      rw [asks, asks, hproblem]
      rfl
    rw [hsame]
    simpa using (asked_as h true (by simp)).keys key
  have hlooks : LooksAhead view f (.parallelAll id source cs) ↔
      ¬ Clear view f (.parallelAll id source cs) := looksAhead_parallel rfl
  constructor
  case failure =>
    intro hnot
    rw [hlooks, not_not] at hnot
    exact status_eq_failure h hids hnot
  case keys =>
    intro hnot key
    rw [hlooks, not_not] at hnot
    cases hproblem : anyBelow view problem (.parallelAll id source cs) with
    | false =>
      have hcalm : Calm view (.parallelAll id source cs) := by
        intro n hn
        rw [anyBelow, List.any_eq_false] at hproblem
        exact Bool.not_eq_true _ ▸ hproblem n hn
      simpa using (asked_as h false fun _ => hcalm).keys key
    | true =>
      rw [hheld hproblem key, and_iff_left_iff_imp]
      intro hkey
      -- the plan holds new work back as well
      obtain ⟨n, hn, hn'⟩ := anyBelow_iff.mp hproblem
      have hstop := (stopped_of_problem h hids hnot hn hn').1
      rw [hf] at hkey hstop
      exact (mem_suggested_parallel.mp hkey).2 (parallel_stops hstop)
  case running =>
    intro hl
    rw [hlooks] at hl
    simp only [Clear, not_forall] at hl
    obtain ⟨n, hn, huncleared, -⟩ := hl
    have hblocker : anyBelow view blocker (.parallelAll id source cs) = true :=
      anyBelow_iff.mpr ⟨n, hn, blocker_of_uncleared huncleared⟩
    rw [status, hblocker]
    rfl
  case held =>
    intro hl
    rw [hlooks] at hl
    simp only [Clear, not_forall] at hl
    obtain ⟨n, hn, huncleared, -⟩ := hl
    exact hheld (anyBelow_iff.mpr ⟨n, hn, problem_of_blocker (blocker_of_uncleared huncleared)⟩)

/-- Nothing is asked for below a child that is done. -/
theorem asks_of_completes (h : Completes view t) : asks view t false = ([], false) := by
  have hcalm := calm_of_completes h
  obtain ⟨g, hg, hdone⟩ := h
  have hasked := asked_as hg false fun _ => hcalm
  rw [eq_completed hg hdone] at hasked
  exact hasked.eq_nil rfl

/-- What a node visits beside the child whose frontier it has does not look ahead: the node itself,
and children that are done. -/
theorem looksAhead_of_passes {c : CompiledNode} (h : Passes view t c)
    (hnow : evaluate view c = .ok f) : LooksAhead view f t ↔ LooksAhead view f c := by
  have hreached : ∃ before : List CompiledNode, (∀ u ∈ before, Completes view u) ∧
      reached view t = t :: (before.flatMap (reached view) ++ reached view c) := by
    cases h with
    | current hbefore hopen _ =>
      refine ⟨_, hbefore, ?_⟩
      rw [reached, reachedSequence_current]
      · rintro u hu
        obtain ⟨g, hg, hdone⟩ := hbefore u hu
        exact (status_eq_success hg).mpr hdone
      · exact fun hs => hopen ⟨f, hnow, (status_eq_success hnow).mp hs⟩
    | chosen hchoice =>
      refine ⟨[], by simp, ?_⟩
      rw [reached, hchoice]
      exact congrArg _ (apply_ite (reached view) _ _ _).symm
  have hlabel : t.label ≠ .parallelAll := by
    cases h <;> simp [CompiledNode.label]
  obtain ⟨before, hbefore, hreached⟩ := hreached
  simp only [LooksAhead, hreached, List.mem_cons, List.mem_append]
  constructor
  · rintro ⟨q, rfl | hq | hq, hparallel, hunclear⟩
    · exact absurd hparallel hlabel
    · obtain ⟨u, hu, hq⟩ := List.mem_flatMap.mp hq
      exact absurd ⟨q, hq, hparallel, hunclear⟩
        (not_looksAhead_of_calm (calm_of_completes (hbefore u hu)))
    · exact ⟨q, hq, hparallel, hunclear⟩
  · rintro ⟨q, hq, hrest⟩
    exact ⟨q, Or.inr (Or.inr hq), hrest⟩

theorem tickCases (h : evaluate view t = .ok f) (hids : (t.nodes.map CompiledNode.id).Nodup) :
    TickCases view t f := by
  induction t generalizing f with
  | h t ih =>
  -- a tree without a problem asks for what its plan suggests
  have hcalm : Calm view t → (status view t = .failure ↔ f.state = .failed) →
      TickCases view t f := by
    intro hcalm hfailure
    refine TickCases.of_not (not_looksAhead_of_calm hcalm) hfailure fun key => ?_
    simpa using (asked_as h false fun _ => hcalm).keys key
  cases evaluated_of_evaluate h with
  | leaf hleaf =>
    have hagrees := leafAgrees hleaf
    refine TickCases.of_not ?_ hagrees.failure fun key => ?_
    · rintro ⟨q, hq, hlabel, -⟩
      cases hleaf <;> cases List.mem_singleton.mp hq <;> cases hlabel
    · simpa using (askedAs_leaf hagrees false).keys key
  | completed hall =>
    apply hcalm (calm_of_completes ⟨_, h, rfl⟩)
    rw [(status_eq_success h).mpr rfl]
    simp
  | @undecided id source condition whenTrue whenFalse hfree =>
    apply hcalm
    · intro n hn
      rw [active_eq, activeBelow, hfree] at hn
      rw [List.mem_singleton.mp hn]
      exact (quiet_control (Or.inr (Or.inr ⟨condition, rfl⟩))).1
    · rw [status, hfree]
      simp
  | passes hto hnow =>
    exact (ih _ hto.mem hnow (nodup_child hids hto.mem)).congr
      (status_of_passes hto hnow fun _ _ _ => status_eq_success)
      (asks_of_passes hto hnow fun _ _ => asks_of_completes) (looksAhead_of_passes hto hnow)
  | parallel => exact tickCases_parallel h hids rfl

/-! ## Requests of a whole tick -/

section Requests

variable {c : Context} {key : Name × RequestKind} {keys : List (Name × RequestKind)}

/-- Whether the context lets a node ask for something, unless it did so before or the queue is
full. -/
structure Context.Open (c : Context) (key : Name × RequestKind) : Prop where
  defined : c.definitions.get? key.1 ≠ none
  permitted : ∃ p ∈ c.tick, p.frame.submissionAuthorized = true ∧ key.1 ∈ p.frame.eligible
  running : c.halted = false
  current : c.Current

/-- What some requests change. -/
structure Context.Takes (c : Context) (keys : List (Name × RequestKind)) (c' : Context) :
    Prop where
  kept : c.requested ⊆ c'.requested
  queued : ∀ r ∈ c'.queue, r ∈ c.queue ∨ (r.node, r.kind) ∈ keys
  grown : c.queue.length ≤ c'.queue.length
  taken : ∀ key ∈ keys, c.Open key → key ∈ c'.requested ∨ 32 ≤ c'.queue.length

theorem Context.Open.of_fields {queue : List Request} {requested : Finset (Name × RequestKind)}
    {suppressNew : Bool} (h : c.Open key) :
    ({ c with queue, requested, suppressNew } : Context).Open key :=
  ⟨h.defined, h.permitted, h.running, h.current⟩

theorem Context.asked_of_not (h : ¬ c.Accepts key) : c.asked key = c := by
  unfold Context.asked
  split
  · exact if_neg h
  · rfl

theorem Context.takes_asked (c : Context) (key : Name × RequestKind) :
    c.Takes [key] (c.asked key) := by
  have hsame : (c.Open key → key ∈ c.requested ∨ 32 ≤ c.queue.length) → c.Takes [key] c :=
    fun h => ⟨subset_rfl, fun r hr => Or.inl hr, le_rfl, by
      intro key' hkey'
      rw [List.mem_singleton.mp hkey']
      exact h⟩
  by_cases haccepts : c.Accepts key
  · unfold Context.asked
    cases hd : c.definitions.get? key.1 with
    | none => exact hsame fun h => absurd hd h.defined
    | some d =>
      dsimp only
      rw [if_pos haccepts]
      refine ⟨Finset.subset_insert _ _, ?_, by simp, ?_⟩
      · intro r hr
        obtain hr | hr := List.mem_append.mp hr
        · exact Or.inl hr
        · right
          rw [List.mem_singleton.mp hr]
          exact List.mem_singleton_self key
      · intro key' hkey' _
        rw [List.mem_singleton.mp hkey']
        exact Or.inl (Finset.mem_insert_self _ _)
  · rw [Context.asked_of_not haccepts]
    apply hsame
    intro hopen
    by_contra hno
    rw [not_or, not_le] at hno
    exact haccepts ⟨hopen.permitted, hopen.running, hopen.current, hno.1, hno.2⟩

/-- The requests of a tick, one after the other. -/
theorem Context.takes_after (c : Context) (keys : List (Name × RequestKind)) (b : Bool) :
    c.Takes keys (c.after (keys, b)) := by
  induction keys using List.reverseRecOn with
  | nil => exact ⟨subset_rfl, fun r hr => Or.inl hr, le_rfl, nofun⟩
  | append_singleton keys key ih =>
    have hafter : c.after (keys ++ [key], b) = (c.after (keys, b)).asked key := by
      simp only [Context.after, List.foldl_append, List.foldl_cons, List.foldl_nil]
    rw [hafter]
    have hstep := Context.takes_asked (c.after (keys, b)) key
    constructor
    case kept => exact ih.kept.trans hstep.kept
    case grown => exact ih.grown.trans hstep.grown
    case queued =>
      intro r hr
      rw [List.mem_append]
      obtain hr | hr := hstep.queued r hr
      · exact (ih.queued r hr).imp_right Or.inl
      · exact Or.inr (Or.inr hr)
    case taken =>
      intro key' hkey' hopen
      obtain hkey' | hkey' := List.mem_append.mp hkey'
      · exact (ih.taken key' hkey' hopen).imp (fun h => hstep.kept h) fun h => h.trans hstep.grown
      · apply hstep.taken key' hkey'
        obtain ⟨queue, requested, hfields⟩ := Context.after_fields c (keys, b)
        rw [hfields]
        exact hopen.of_fields

/-- Asking again changes nothing. -/
theorem Context.after_of_requested (b : Bool) (h : ∀ key ∈ keys, key ∈ c.requested) :
    c.after (keys, b) = { c with suppressNew := b } := by
  induction keys using List.reverseRecOn with
  | nil => rfl
  | append_singleton keys key ih =>
    have hafter : c.after (keys ++ [key], b) = (c.after (keys, b)).asked key := by
      simp only [Context.after, List.foldl_append, List.foldl_cons, List.foldl_nil]
    rw [hafter, ih fun k hk => h k (List.mem_append_left _ hk)]
    apply Context.asked_of_not
    exact fun haccepts => haccepts.2.2.2.1 (h key (by simp))

end Requests

/-! ## A tick and its plan -/

/-- A tick asks for everything that the plan suggests and for nothing else, and fails exactly
when the plan does. -/
def Scene.Follows {p : ResolvedProcess} (scene : Scene p view f) (reads : ℕ) : Prop :=
  ∃ status s, executorTick (Tree.of p.root) (scene.start reads) = (.ok status, s) ∧
    (∀ key ∈ suggested f, key ∈ s.context.requested ∨ 32 ≤ s.context.queue.length) ∧
    (∀ r ∈ s.context.queue, (r.node, r.kind) ∈ suggested f) ∧
    (status = .failure ↔ f.state = .failed)

/-- The queue is empty, the context is not halted and its frame authorises submission. -/
structure Scene.Admits {p : ResolvedProcess} (scene : Scene p view f) : Prop where
  queue : scene.context.queue = []
  running : scene.context.halted = false
  authorized : scene.packet.submissionAuthorized = true

/-- A tick that looks ahead misses something: the plan suggests new work, or has failed. -/
def HeldUp (view : ProgressView) (f : Frontier) (t : CompiledNode) : Prop :=
  LooksAhead view f t ∧ (f.state = .failed ∨ ∃ key ∈ suggested f, IsNew key.2)

section Compiled

variable [Hashing] {p : ResolvedProcess}

/-- What the plan suggests may be asked for. -/
theorem Scene.open (scene : Scene p view f) (hwell : p.WellFormed) (hplanned : Planned p view f)
    (hadmits : scene.Admits) {key : Name × RequestKind} (hkey : key ∈ suggested f) :
    scene.context.beginTick.Open key where
  defined := by
    obtain ⟨n, hn, hid⟩ := suggested_mem hplanned.evaluated hkey
    rw [← hid, (scene.shows hwell hplanned).definitions n hn]
    simp
  permitted := by
    refine ⟨_, scene.published, hadmits.authorized, ?_⟩
    change key.1 ∈ scene.packet.eligible
    rw [scene.packet_eq.2, eligibleOf, mem_sorted, List.mem_dedup]
    simp only [suggested, List.mem_append, List.mem_map] at hkey ⊢
    aesop
  running := hadmits.running
  current := by
    refine ⟨rfl, _, scene.published, ?_, hadmits.authorized⟩
    exact (scene.usable 0).2.1

/-- The same scene with other requests made before. -/
def Scene.withRequested (scene : Scene p view f) (requested : Finset (Name × RequestKind)) :
    Scene p view f :=
  { scene with
    context := { scene.context with requested }
    definitions := scene.definitions
    published := scene.published }

/-- A tick that is not held up follows the plan. -/
theorem Scene.follows (scene : Scene p view f) (hwell : p.WellFormed)
    (hplanned : Planned p view f) (hadmits : scene.Admits) (hfree : ¬ HeldUp view f p.root)
    (reads : ℕ) : scene.Follows reads := by
  obtain ⟨s, hrun, hs⟩ := scene.tick hwell hplanned reads
  have hcases := tickCases hplanned.evaluated hwell.fits.distinct
  have htakes := Context.takes_after scene.context.beginTick (asks view p.root false).1
    (asks view p.root false).2
  rw [Prod.mk.eta, ← hs] at htakes
  have hkeys : ∀ key, key ∈ (asks view p.root false).1 ↔ key ∈ suggested f := by
    intro key
    by_cases hlooks : LooksAhead view f p.root
    · rw [hcases.held hlooks key, and_iff_left_iff_imp]
      exact fun hkey hnew => hfree ⟨hlooks, Or.inr ⟨key, hkey, hnew⟩⟩
    · exact hcases.keys hlooks key
  refine ⟨_, s, hrun, ?_, ?_, ?_⟩
  · intro key hkey
    exact htakes.taken key ((hkeys key).mpr hkey) (scene.open hwell hplanned hadmits hkey)
  · intro r hr
    obtain hr | hr := htakes.queued r hr
    · have hempty : scene.context.beginTick.queue = [] := hadmits.queue
      rw [hempty] at hr
      cases hr
    · exact (hkeys _).mp hr
  · by_cases hlooks : LooksAhead view f p.root
    · rw [hcases.running hlooks]
      exact iff_of_false (by simp) fun hfailed => hfree ⟨hlooks, Or.inl hfailed⟩
    · exact hcases.failure hlooks

/-- A tick that is held up does not follow the plan when everything else was asked for
before. -/
theorem Scene.not_follows (scene : Scene p view f) (hwell : p.WellFormed)
    (hplanned : Planned p view f) (hqueue : scene.context.queue = [])
    (hheld : HeldUp view f p.root)
    (hrequested : ∀ key, key ∈ scene.context.requested ↔ key ∈ suggested f ∧ ¬ IsNew key.2)
    (reads : ℕ) : ¬ scene.Follows reads := by
  rintro ⟨status', s', hrun', hall, -, hfailure⟩
  obtain ⟨s, hrun, hs⟩ := scene.tick hwell hplanned reads
  rw [hrun] at hrun'
  obtain ⟨hstatus, rfl⟩ := Prod.mk.inj hrun'
  have hcases := tickCases hplanned.evaluated hwell.fits.distinct
  obtain ⟨hlooks, hmissed⟩ := hheld
  have hasked : ∀ key ∈ (asks view p.root false).1, key ∈ scene.context.beginTick.requested :=
    fun key hkey => (hrequested key).mpr ((hcases.held hlooks key).mp hkey)
  rw [← Prod.mk.eta (p := asks view p.root false), Context.after_of_requested _ hasked] at hs
  obtain hfailed | ⟨key, hkey, hnew⟩ := hmissed
  · rw [← Except.ok.inj hstatus, hcases.running hlooks] at hfailure
    cases hfailure.mpr hfailed
  · rw [hs] at hall
    obtain hin | hfull := hall key hkey
    · exact ((hrequested key).mp hin).2 hnew
    · change 32 ≤ scene.context.queue.length at hfull
      rw [hqueue] at hfull
      cases hfull

/-- The ticks on a progress view follow its plan exactly when no parallel node sees an
intervention too early while the plan suggests new work or has failed. -/
theorem ticks_follow_plan_iff {source : ProcessSource} {bindings : SortedMap Name ActionBinding}
    (hcompile : compile source bindings = .ok p) (hplan : plan p view = .ok f) :
    (∀ scene : Scene p view f, scene.Admits → ∀ reads, scene.Follows reads) ↔
      ¬ HeldUp view f p.root := by
  have hwell := compile_wellFormed hcompile
  have hplanned := planned_of_plan hplan
  constructor
  · intro hfollows hheld
    obtain ⟨defs, hdefs, -⟩ := exists_definitionsOf hwell
    let late := ((suggested f).filter fun key => ¬ IsNew key.2).toFinset
    let scene := (sampleScene p view f p.root.id defs hdefs).withRequested late
    have hlate : ∀ key, key ∈ scene.context.requested ↔ key ∈ suggested f ∧ ¬ IsNew key.2 := by
      intro key
      change key ∈ late ↔ _
      simp [late]
    exact scene.not_follows hwell hplanned rfl hheld hlate 0 (hfollows scene ⟨rfl, rfl, rfl⟩ 0)
  · intro hfree scene hadmits reads
    exact scene.follows hwell hplanned hadmits hfree reads

end Compiled

/-! ## An instance -/

theorem ticks_follow_plan_iff_loading :
    (∀ scene : Scene loadedAndInspected loadingView loadingFrontier, scene.Admits →
      ∀ reads, scene.Follows reads) ↔
      ¬ HeldUp loadingView loadingFrontier loadedAndInspected.root :=
  @ticks_follow_plan_iff loadingView loadingFrontier plainHashing loadedAndInspected loadAndInspect
    inspectBindings rfl rfl

/-- Load and have the cell cleared, and inspect meanwhile. -/
def loadAndClear : ProcessSource where
  schema := "rx.process-source.v1"
  process := "example"
  entry := "main"
  flows := [⟨"main", "both", [⟨"both", .parallelAll ["prepare", "inspect"]⟩,
    ⟨"prepare", .sequence ["load", "clear"]⟩, ⟨"load", .operation "load"⟩,
    ⟨"clear", .intervention ⟨"procedure", "rx.procedure.v1", 1⟩⟩,
    ⟨"inspect", .operation "inspect"⟩]⟩]
  conditions := .empty

/-- An intervention. -/
def clearNode : CompiledNode :=
  .intervention "node/example/clear" ⟨"main", "clear", []⟩ ⟨"procedure", "rx.procedure.v1", 1⟩

/-- The process it compiles to. -/
def loadedAndCleared : ResolvedProcess where
  schema := "rx.resolved-process.v1"
  packageDigest := none
  sourceDigest := "source"
  process := "example"
  root := .parallelAll "node/example/both" ⟨"main", "both", []⟩
    [.sequence "node/example/prepare" ⟨"main", "prepare", []⟩ [loadNode, clearNode], inspectNode]
  bindings := inspectBindings
  conditions := .empty

/-- Nothing has happened. -/
def freshView : ProgressView where
  run := "run"
  resolvedDigest := "process"
  complete := true
  operations := .empty
  branches := .empty
  waits := .empty
  clearedInterventions := .empty

/-- Both operations are suggested. -/
def freshFrontier : Frontier where
  state := .ready
  operations := ["node/example/load", "node/example/inspect"]

/-- The definitions of the process. -/
def clearDefinitions : SortedMap Name Definition :=
  SortedMap.empty
    |>.insert "node/example/load" ⟨.operation, [], "load", 0⟩
    |>.insert "node/example/clear" ⟨.intervention, [], "procedure", 0⟩
    |>.insert "node/example/prepare"
      ⟨.sequence, ["node/example/load", "node/example/clear"], "", 0⟩
    |>.insert "node/example/inspect" ⟨.operation, [], "inspect", 0⟩
    |>.insert "node/example/both"
      ⟨.parallelAll, ["node/example/prepare", "node/example/inspect"], "", 0⟩

/-- A tick of the process on a run that has not begun. -/
def clearScene : Scene loadedAndCleared freshView freshFrontier :=
  sampleScene loadedAndCleared freshView freshFrontier "node/example/both" clearDefinitions rfl

/-- The intervention after the load stops both operations: the plan suggests them, and the
tick asks for nothing. -/
theorem held_up_by_intervention :
    @compile plainHashing loadAndClear inspectBindings = .ok loadedAndCleared ∧
      @plan plainHashing loadedAndCleared freshView = .ok freshFrontier ∧ clearScene.Admits ∧
      clearScene.context.requested = ∅ ∧
      ∃ s, executorTick (Tree.of loadedAndCleared.root) (clearScene.start 0) = (.ok .running, s) ∧
        s.context.queue = [] ∧ s.context.requested = ∅ ∧ ¬ clearScene.Follows 0 := by
  have hcompile : @compile plainHashing loadAndClear inspectBindings = .ok loadedAndCleared := by
    decide +kernel
  have hplan : @plan plainHashing loadedAndCleared freshView = .ok freshFrontier := rfl
  obtain ⟨s, hrun, hs⟩ := @Scene.tick plainHashing loadedAndCleared freshView freshFrontier
    clearScene (@compile_wellFormed plainHashing _ _ _ hcompile)
    (@planned_of_plan plainHashing _ _ _ hplan) 0
  have hstatus : status freshView loadedAndCleared.root = .running := rfl
  have hasks : asks freshView loadedAndCleared.root false = ([], true) := rfl
  rw [hstatus] at hrun
  rw [hasks] at hs
  have hqueue : s.context.queue = [] := by
    rw [hs]
    rfl
  have hrequested : s.context.requested = ∅ := by
    rw [hs]
    rfl
  refine ⟨hcompile, hplan, ⟨rfl, rfl, rfl⟩, rfl, s, hrun, hqueue, hrequested, ?_⟩
  rintro ⟨status', s', hrun', hall, -, -⟩
  obtain ⟨-, rfl⟩ := Prod.mk.inj (hrun.symm.trans hrun')
  obtain hin | hfull := hall ("node/example/load", .submitOperation) List.mem_cons_self
  · rw [hrequested] at hin
    cases hin
  · rw [hqueue] at hfull
    cases hfull

end RxSolutions.Bt
