import RxSolutions.Bt.Completion
import RxSolutions.Process.Parallelism

/-!
# What a tick asks for

Node by node, the requests of a tick are those that the plan suggests, and a node fails when
its plan does, as long as no intervention is seen before the plan has reached it.
-/

namespace RxSolutions.Bt

open Domain Durable Executor Process
open CompiledNode (nodes nodes_eq mem_nodes_self mem_nodes_of_child)

variable {view : ProgressView} {t : CompiledNode} {f : Frontier} {key : Name × RequestKind}

/-! ## Suggestions -/

theorem mem_suggested : key ∈ suggested f ↔
    (key.2 = .submitOperation ∧ key.1 ∈ f.operations) ∨
    (key.2 = .resolveBranch ∧ key.1 ∈ f.decisions) ∨ (key.2 = .beginWait ∧ key.1 ∈ f.waits) ∨
    (key.2 = .requestHandover ∧ key.1 ∈ f.handovers) ∨
    (key.2 = .requestIntervention ∧ key.1 ∈ f.interventions) := by
  obtain ⟨id, kind⟩ := key
  cases kind <;> simp [suggested]

variable {results : List Frontier}

/-- A parallel node suggests what its children do, and no new work once a child is blocked or
failed. -/
theorem mem_suggested_parallel :
    key ∈ suggested (Frontier.parallel results) ↔
      (∃ r ∈ results, key ∈ suggested r) ∧
        ((∃ r ∈ results, r.state = .blocked ∨ r.state = .failed) → ¬ IsNew key.2) := by
  have hfail : (∃ r ∈ results, r.state = .blocked ∨ r.state = .failed) ↔
      (∃ r ∈ results, r.state = .blocked) ∨ ∃ r ∈ results, r.state = .failed := by
    simp only [and_or_left, exists_or]
  rw [hfail]
  obtain ⟨id, kind⟩ := key
  simp only [mem_suggested, Frontier.parallel, foldl_merge]
  by_cases hstop : (∃ r ∈ results, r.state = .blocked) ∨ ∃ r ∈ results, r.state = .failed
  · simp only [hstop, if_true, Frontier.suppressNew, IsNew]
    cases kind <;> simp
  · simp only [hstop, if_false]
    cases kind <;> simp

theorem parallel_pending (results : List Frontier) :
    (Frontier.parallel results).pendingOperations = results.flatMap (·.pendingOperations) := by
  simp only [Frontier.parallel, foldl_merge]
  split <;> simp [Frontier.suppressNew]

theorem parallel_interventions (results : List Frontier) :
    (Frontier.parallel results).interventions = results.flatMap (·.interventions) := by
  simp only [Frontier.parallel, foldl_merge]
  split <;> simp [Frontier.suppressNew]

theorem parallel_blocked : (Frontier.parallel results).state = .blocked ↔
    (∃ r ∈ results, r.state = .blocked) ∨
      (∃ r ∈ results, r.state = .failed) ∧ results.flatMap (·.pendingOperations) ≠ [] := by
  rw [parallel_state]
  split
  · rename_i h
    exact iff_of_true rfl h
  · rename_i h
    refine iff_of_false ?_ h
    split_ifs <;> simp

theorem parallel_failed : (Frontier.parallel results).state = .failed ↔
    (¬ ∃ r ∈ results, r.state = .blocked) ∧ (∃ r ∈ results, r.state = .failed) ∧
      results.flatMap (·.pendingOperations) = [] := by
  rw [parallel_state]
  split
  · rename_i h
    refine iff_of_false (by simp) ?_
    rintro ⟨hblocked, -, hpending⟩
    obtain h | ⟨-, h⟩ := h
    · exact hblocked h
    · exact h hpending
  · rename_i h
    rw [not_or, not_and, not_not] at h
    split
    · rename_i hfailed
      exact iff_of_true rfl ⟨h.1, hfailed, h.2 hfailed⟩
    · rename_i hfailed
      refine iff_of_false ?_ fun hall => hfailed hall.2.1
      split_ifs <;> simp

theorem parallel_stops
    (h : (Frontier.parallel results).state = .blocked ∨
      (Frontier.parallel results).state = .failed) :
    ∃ r ∈ results, r.state = .blocked ∨ r.state = .failed := by
  rw [parallel_blocked, parallel_failed] at h
  obtain (⟨r, hr, hs⟩ | ⟨⟨r, hr, hs⟩, -⟩) | ⟨-, ⟨r, hr, hs⟩, -⟩ := h
  · exact ⟨r, hr, Or.inl hs⟩
  · exact ⟨r, hr, Or.inr hs⟩
  · exact ⟨r, hr, Or.inr hs⟩

/-! ## Nodes that have not been reached -/

variable {n : CompiledNode}

theorem sight_of_untouched (h : Untouched view t) (hn : n ∈ t.nodes) :
    sight view n = {} := by
  have hfree := h n hn
  simp only [ProgressView.touches, Bool.or_eq_false_iff, Option.isSome_eq_false_iff,
    Option.isNone_iff_eq_none] at hfree
  obtain ⟨⟨⟨hops, hbranches⟩, hwaits⟩, hcleared⟩ := hfree
  unfold sight
  rw [hops, hbranches, hwaits, hcleared]
  cases n.label <;> rfl

/-- An intervention that has not been cleared. -/
def Uncleared (view : ProgressView) (n : CompiledNode) : Prop :=
  (∃ procedure, n.label = .intervention procedure) ∧ view.clearedInterventions.get? n.id = none

/-- Where nothing has happened only an intervention can be in the way. -/
theorem uncleared_of_untouched (h : Untouched view t) (hn : n ∈ t.nodes)
    (hproblem : problem (definitionOf n) (sight view n) = true) : Uncleared view n := by
  rw [sight_of_untouched h hn] at hproblem
  have hkind : kindOf n = .intervention := by
    cases n with
    | intervention => rfl
    | _ => cases hproblem
  have hfree := h n hn
  simp only [ProgressView.touches, Bool.or_eq_false_iff, Option.isSome_eq_false_iff,
    Option.isNone_iff_eq_none] at hfree
  refine ⟨?_, hfree.2⟩
  cases n with
  | intervention id source procedure => exact ⟨procedure, rfl⟩
  | _ => cases hkind

theorem blocker_of_uncleared (h : Uncleared view n) :
    blocker (definitionOf n) (sight view n) = true := by
  obtain ⟨⟨procedure, hlabel⟩, hfree⟩ := h
  cases n with
  | intervention id source procedure =>
    simp only [CompiledNode.id] at hfree
    simp [sight, CompiledNode.label, CompiledNode.id, hfree, blocker, definitionOf, kindOf]
  | _ => cases hlabel

/-- The suggestions of a tree are about its nodes. -/
theorem suggested_mem (h : evaluate view t = .ok f) (hkey : key ∈ suggested f) :
    ∃ n ∈ t.nodes, n.id = key.1 := by
  induction t generalizing f with
  | h t ih =>
  have hchild : ∀ c ∈ t.children, ∀ g, evaluate view c = .ok g → key ∈ suggested g →
      ∃ n ∈ t.nodes, n.id = key.1 := by
    intro c hc g hg hkey
    obtain ⟨n, hn, hid⟩ := ih c hc hg hkey
    exact ⟨n, mem_nodes_of_child hc hn, hid⟩
  cases evaluated_of_evaluate h with
  | leaf hleaf =>
    rw [(leafAgrees hleaf).asks] at hkey
    obtain ⟨kind, -, rfl⟩ := List.mem_map.mp hkey
    exact ⟨t, mem_nodes_self _, rfl⟩
  | completed => cases hkey
  | undecided =>
    obtain rfl := List.mem_singleton.mp hkey
    exact ⟨_, mem_nodes_self _, rfl⟩
  | passes hto hnow => exact hchild _ hto.mem _ hnow hkey
  | parallel hall =>
    obtain ⟨⟨r, hr, hkey⟩, -⟩ := mem_suggested_parallel.mp hkey
    obtain ⟨c, hc, rfl⟩ := List.mem_map.mp hr
    exact hchild c hc _ (hall c hc) hkey

/-! ## Requests with and without suppression -/

variable {suppress : Bool}

theorem asksAll_eq {ts : List CompiledNode} (h : ∀ t ∈ ts, (asks view t suppress).2 = suppress) :
    asksAll view ts suppress = (ts.flatMap fun t => (asks view t suppress).1, suppress) := by
  induction ts with
  | nil => rfl
  | cons t ts ih =>
    rw [asksAll, h t List.mem_cons_self, ih fun u hu => h u (List.mem_cons_of_mem _ hu),
      List.flatMap_cons]

/-- Nothing is asked for below the children of a sequence that are done. -/
theorem asksSequence_eq {before rest : List CompiledNode}
    (h : ∀ t ∈ before, status view t = .success ∧ asks view t suppress = ([], suppress)) :
    asksSequence view (before ++ rest) suppress = asksSequence view rest suppress := by
  induction before with
  | nil => rfl
  | cons t before ih =>
    obtain ⟨hstatus, hasks⟩ := h t List.mem_cons_self
    rw [List.cons_append, asksSequence, hasks, if_pos hstatus,
      ih fun u hu => h u (List.mem_cons_of_mem _ hu)]
    rfl

theorem asksSequence_completed {ts : List CompiledNode}
    (h : ∀ t ∈ ts, status view t = .success ∧ asks view t suppress = ([], suppress)) :
    asksSequence view ts suppress = ([], suppress) := by
  rw [← List.append_nil ts, asksSequence_eq h]
  rfl

theorem asksSequence_current {before after : List CompiledNode}
    (h : ∀ t ∈ before, status view t = .success ∧ asks view t suppress = ([], suppress))
    (ht : status view t ≠ .success) :
    asksSequence view (before ++ t :: after) suppress = asks view t suppress := by
  rw [asksSequence_eq h, asksSequence, if_neg ht]

/-- A tree asks for what its plan suggests, apart from new work where that is suppressed. -/
structure AskedAs (view : ProgressView) (t : CompiledNode) (suppress : Bool) (f : Frontier) :
    Prop where
  flag : (asks view t suppress).2 = suppress
  keys : ∀ key, key ∈ (asks view t suppress).1 ↔
    key ∈ suggested f ∧ (suppress = true → ¬ IsNew key.2)

theorem AskedAs.eq_nil (h : AskedAs view t suppress f) (hnone : suggested f = []) :
    asks view t suppress = ([], suppress) := by
  have hnil : (asks view t suppress).1 = [] := by
    rw [List.eq_nil_iff_forall_not_mem]
    intro key hkey
    have hmem := ((h.keys key).mp hkey).1
    rw [hnone] at hmem
    cases hmem
  exact Prod.ext hnil h.flag

/-- A node that asks for one thing at most. -/
theorem askedAs_one {kind : Option RequestKind}
    (hasks : asks view t suppress = askOne suppress t.id kind)
    (hkeys : suggested f = kind.toList.map (t.id, ·)) : AskedAs view t suppress f := by
  cases kind with
  | none => constructor <;> simp [hasks, hkeys, askOne]
  | some kind =>
    constructor
    · rw [hasks]
      rfl
    · rintro ⟨id, kind'⟩
      rw [hasks, hkeys]
      by_cases hnew : suppress = true ∧ IsNew kind
      · simp only [askOne, hnew, and_self, if_true, Option.toList_some, List.map_cons, List.map_nil,
          List.mem_singleton, Prod.mk.injEq, List.not_mem_nil, false_iff, not_and, forall_const,
          not_not]
        rintro ⟨-, rfl⟩
        exact hnew.2
      · simp only [askOne, hnew, if_false, Option.toList_some, List.map_cons, List.map_nil,
          List.mem_singleton, Prod.mk.injEq, iff_self_and]
        rintro ⟨rfl, rfl⟩ hsuppress hkind
        exact hnew ⟨hsuppress, hkind⟩

theorem askedAs_leaf (h : LeafAgrees view t f) (suppress : Bool) : AskedAs view t suppress f :=
  askedAs_one (h.requests suppress) h.asks

variable {c : CompiledNode}

/-- A node asks for what the child asks for whose frontier it has. -/
theorem asks_of_passes (h : Passes view t c) (hnow : evaluate view c = .ok f)
    (hdone : ∀ d ∈ t.children, Completes view d → asks view d suppress = ([], suppress)) :
    asks view t suppress = asks view c suppress := by
  cases h with
  | current hbefore hopen _ =>
    rw [asks, asksSequence_current]
    · intro u hu
      obtain ⟨g, hg, hstate⟩ := hbefore u hu
      exact ⟨(status_eq_success hg).mpr hstate, hdone u (List.mem_append_left _ hu) (hbefore u hu)⟩
    · exact fun hs => hopen ⟨f, hnow, (status_eq_success hnow).mp hs⟩
  | chosen hchoice =>
    rw [asks, hchoice]
    exact (apply_ite (asks view · suppress) _ _ _).symm

theorem mem_active_of_below {c n : CompiledNode} (hc : c ∈ activeBelow view t)
    (hn : n ∈ active view c) : n ∈ active view t := by
  rw [active_eq]
  exact List.mem_cons_of_mem _ (List.mem_flatMap.mpr ⟨c, hc, hn⟩)

theorem mem_active_self (t : CompiledNode) : t ∈ active view t := by
  rw [active_eq]
  exact List.mem_cons_self

/-- A tree that is blocked or failed shows a problem. -/
theorem exists_problem (h : evaluate view t = .ok f)
    (hstop : f.state = .blocked ∨ f.state = .failed) :
    ∃ n ∈ active view t, problem (definitionOf n) (sight view n) = true := by
  induction t generalizing f with
  | h t ih =>
  have hchild : ∀ c ∈ activeBelow view t, ∀ g, evaluate view c = .ok g →
      g.state = .blocked ∨ g.state = .failed →
      ∃ n ∈ active view t, problem (definitionOf n) (sight view n) = true := by
    intro c hc g hg hstop
    obtain ⟨n, hn, hproblem⟩ := ih c (mem_children_of_activeBelow hc) hg hstop
    exact ⟨n, mem_active_of_below hc hn, hproblem⟩
  cases evaluated_of_evaluate h with
  | leaf hleaf => exact ⟨t, mem_active_self _, (leafAgrees hleaf).problem.mpr hstop⟩
  | completed | undecided => simp at hstop
  | passes hto hnow => exact hchild _ (active_of_passes hto) _ hnow hstop
  | parallel hall =>
    obtain ⟨r, hr, hstop⟩ := parallel_stops hstop
    obtain ⟨c, hc, rfl⟩ := List.mem_map.mp hr
    exact hchild c hc _ (hall c hc) hstop

/-- Nothing below a tree is in the way. -/
def Calm (view : ProgressView) (t : CompiledNode) : Prop :=
  ∀ n ∈ active view t, problem (definitionOf n) (sight view n) = false

theorem Calm.below (h : Calm view t) (hc : c ∈ activeBelow view t) :
    Calm view c :=
  fun n hn => h n (mem_active_of_below hc hn)

/-- Where nothing is in the way, or new work is suppressed, a tree asks for what its plan
suggests. -/
theorem asked_as (h : evaluate view t = .ok f) (suppress : Bool)
    (hcalm : suppress = false → Calm view t) : AskedAs view t suppress f := by
  induction t generalizing f with
  | h t ih =>
  have hdone : ∀ c ∈ t.children, Completes view c → asks view c suppress = ([], suppress) := by
    rintro c hc ⟨g, hg, hstate⟩
    have hasked := ih c hc hg fun _ n hn => (Completes.calm ⟨g, hg, hstate⟩ n hn).1
    rw [eq_completed hg hstate] at hasked
    exact hasked.eq_nil rfl
  cases evaluated_of_evaluate h with
  | leaf hleaf => exact askedAs_leaf (leafAgrees hleaf) suppress
  | @completed id source cs hall =>
    have hnil : asks view (.sequence id source cs) suppress = ([], suppress) := by
      rw [asks]
      apply asksSequence_completed
      intro c hc
      obtain ⟨g, hg, hstate⟩ := hall c hc
      exact ⟨(status_eq_success hg).mpr hstate, hdone c hc (hall c hc)⟩
    constructor <;> simp [hnil, suggested]
  | passes hto hnow =>
    have hasked := ih _ hto.mem hnow fun hs => (hcalm hs).below (active_of_passes hto)
    have heq := asks_of_passes hto hnow hdone
    exact ⟨heq ▸ hasked.flag, heq ▸ hasked.keys⟩
  | @undecided id source condition whenTrue whenFalse hfree =>
    have hasks : asks view (.branch id source condition whenTrue whenFalse) suppress =
        askOne suppress id (some .resolveBranch) := by
      rw [asks, hfree]
    exact askedAs_one hasks rfl
  | @parallel id source cs hall =>
    have hsuppress :
        (suppress || anyBelow view problem (.parallelAll id source cs)) = suppress := by
      cases suppress with
      | true => rfl
      | false =>
        rw [Bool.false_or, anyBelow, List.any_eq_false]
        intro n hn
        rw [hcalm rfl n hn]
        exact Bool.false_ne_true
    have hchildren : ∀ c ∈ cs, AskedAs view c suppress (frontierOf view c) :=
      fun c hc => ih c hc (hall c hc) fun hs => (hcalm hs).below hc
    have hasks : asks view (.parallelAll id source cs) suppress =
        (cs.flatMap fun c => (asks view c suppress).1, suppress) := by
      rw [asks, hsuppress]
      exact asksAll_eq fun c hc => (hchildren c hc).flag
    constructor
    · rw [hasks]
    · intro key
      rw [hasks, List.mem_flatMap, mem_suggested_parallel]
      constructor
      · rintro ⟨c, hc, hkey⟩
        obtain ⟨hkey, hnew⟩ := ((hchildren c hc).keys key).mp hkey
        refine ⟨⟨⟨_, List.mem_map_of_mem hc, hkey⟩, ?_⟩, hnew⟩
        -- a child that stops new work in the plan shows a problem
        rintro ⟨r, hr, hstop⟩
        obtain ⟨d, hd, rfl⟩ := List.mem_map.mp hr
        obtain ⟨n, hn, hproblem⟩ := exists_problem (hall d hd) hstop
        apply hnew
        by_contra hfalse
        rw [Bool.not_eq_true] at hfalse
        have hquiet := hcalm hfalse n (mem_active_of_below hd hn)
        rw [hproblem] at hquiet
        cases hquiet
      · rintro ⟨⟨⟨r, hr, hkey⟩, -⟩, hnew⟩
        obtain ⟨c, hc, rfl⟩ := List.mem_map.mp hr
        exact ⟨c, hc, ((hchildren c hc).keys key).mpr ⟨hkey, hnew⟩⟩

/-! ## Live work -/

/-- Nothing is under way where nothing has happened. -/
theorem not_live_of_untouched (h : Untouched view t) (hn : n ∈ t.nodes) :
    liveWork (definitionOf n) (sight view n) = false := by
  rw [sight_of_untouched h hn]
  rfl

theorem active_subset_nodes (h : n ∈ active view t) : n ∈ t.nodes := by
  induction t with
  | h t ih =>
  rw [active_eq, List.mem_cons] at h
  obtain rfl | h := h
  · exact mem_nodes_self n
  · obtain ⟨c, hc, hn⟩ := List.mem_flatMap.mp h
    have hchild := mem_children_of_activeBelow hc
    exact mem_nodes_of_child hchild (ih c hchild hn)

/-- Where an active node with something to say is: at the node itself, if that is a leaf, below
the current child, below a child that was not begun, or below any child of a parallel node. -/
theorem active_cases (h : evaluate view t = .ok f) (hn : n ∈ active view t)
    (hloud : ¬ Quiet view n) :
    (n = t ∧ LeafAgrees view t f) ∨
    (∃ c ∈ activeBelow view t, n ∈ active view c ∧ evaluate view c = .ok f) ∨
    (∃ c ∈ activeBelow view t, n ∈ active view c ∧ Untouched view c ∧
      ∃ k ∈ activeBelow view t, evaluate view k = .ok f) ∨
    (t.label = .parallelAll ∧ (∀ c ∈ t.children, evaluate view c = .ok (frontierOf view c)) ∧
      f = Frontier.parallel (t.children.map (frontierOf view)) ∧
      ∃ c ∈ activeBelow view t, n ∈ active view c) := by
  rw [active_eq, List.mem_cons] at hn
  cases evaluated_of_evaluate h with
  | leaf hleaf =>
    left
    obtain rfl | hn := hn
    · exact ⟨rfl, leafAgrees hleaf⟩
    · cases hleaf <;> simp [activeBelow, CompiledNode.children] at hn
  | completed hall =>
    exact absurd
      (Completes.calm ⟨_, h, rfl⟩ n (by rw [active_eq]; exact List.mem_cons.mpr hn)) hloud
  | passes hto hnow =>
    obtain rfl | hn := hn
    · exact absurd (quiet_of_passes hto) hloud
    have hc := active_of_passes hto
    obtain ⟨d, hd, hnd⟩ := List.mem_flatMap.mp hn
    obtain rfl | hfree | hdone := hto.others.2 d (mem_children_of_activeBelow hd)
    · exact Or.inr (Or.inl ⟨d, hc, hnd, hnow⟩)
    · exact Or.inr (Or.inr (Or.inl ⟨d, hd, hnd, hfree, _, hc, hnow⟩))
    · exact absurd (Completes.calm hdone n hnd) hloud
  | @undecided _ _ condition _ _ hfree =>
    obtain rfl | hn := hn
    · exact absurd (quiet_control (Or.inr (Or.inr ⟨condition, rfl⟩))) hloud
    · simp [activeBelow, hfree] at hn
  | parallel hall =>
    obtain rfl | hn := hn
    · exact absurd (quiet_control (Or.inr (Or.inl rfl))) hloud
    obtain ⟨d, hd, hnd⟩ := List.mem_flatMap.mp hn
    exact Or.inr (Or.inr (Or.inr ⟨rfl, hall, rfl, d, hd, hnd⟩))

theorem loud_of_live (h : liveWork (definitionOf n) (sight view n) = true) :
    ¬ Quiet view n := by
  rintro ⟨-, hnone⟩
  rw [h] at hnone
  cases hnone

theorem loud_of_problem (h : problem (definitionOf n) (sight view n) = true) :
    ¬ Quiet view n := by
  rintro ⟨hnone, -⟩
  rw [h] at hnone
  cases hnone

/-- An operation under way is pending in the plan. -/
theorem pending_of_live (h : evaluate view t = .ok f) (hn : n ∈ active view t)
    (hlive : liveWork (definitionOf n) (sight view n) = true) : f.pendingOperations ≠ [] := by
  induction t generalizing f with
  | h t ih =>
  obtain ⟨rfl, hagrees⟩ | ⟨c, hc, hnc, hnow⟩ | ⟨c, hc, hnc, hfree, -⟩ |
    ⟨-, hall, rfl, c, hc, hnc⟩ :=
    active_cases h hn (loud_of_live hlive)
  · exact hagrees.live hlive
  · exact ih c (mem_children_of_activeBelow hc) hnow hnc
  · rw [not_live_of_untouched hfree (active_subset_nodes hnc)] at hlive
    cases hlive
  · have hchild := mem_children_of_activeBelow hc
    have hpending := ih c hchild (hall c hchild) hnc
    rw [parallel_pending]
    intro hnil
    rw [List.flatMap_eq_nil_iff] at hnil
    exact hpending (hnil _ (List.mem_map_of_mem hchild))

/-- Some active node has a property. -/
theorem anyBelow_iff {found : Definition → Observation → Bool} :
    anyBelow view found t = true ↔
      ∃ n ∈ active view t, found (definitionOf n) (sight view n) = true := by
  rw [anyBelow, List.any_eq_true]

theorem anyBelow_child {found : Definition → Observation → Bool} (hc : c ∈ activeBelow view t)
    (h : anyBelow view found c = true) :
    anyBelow view found t = true := by
  obtain ⟨n, hn, hfound⟩ := anyBelow_iff.mp h
  exact anyBelow_iff.mpr ⟨n, mem_active_of_below hc hn, hfound⟩

/-- What is pending in the plan is under way, or the plan is blocked. -/
theorem live_of_pending (h : evaluate view t = .ok f) (hpending : f.pendingOperations ≠ []) :
    anyBelow view liveWork t = true ∨ f.state = .blocked := by
  induction t generalizing f with
  | h t ih =>
  cases evaluated_of_evaluate h with
  | leaf hleaf =>
    obtain hlive | hblocked := (leafAgrees hleaf).pending hpending
    · exact Or.inl (anyBelow_iff.mpr ⟨_, mem_active_self _, hlive⟩)
    · exact Or.inr hblocked
  | completed | undecided => exact absurd rfl hpending
  | passes hto hnow =>
    exact (ih _ hto.mem hnow hpending).imp_left (anyBelow_child (active_of_passes hto))
  | parallel hall =>
    rw [parallel_pending, ne_eq, List.flatMap_eq_nil_iff, not_forall₂] at hpending
    obtain ⟨r, hr, hpending⟩ := hpending
    obtain ⟨c, hc, rfl⟩ := List.mem_map.mp hr
    obtain hlive | hblocked := ih c hc (hall c hc) hpending
    · exact Or.inl (anyBelow_child hc hlive)
    · exact Or.inr (parallel_blocked.mpr (Or.inl ⟨_, hr, hblocked⟩))

/-- Nothing is pending once the plan has failed. -/
theorem pending_of_failed (h : evaluate view t = .ok f) (hfailed : f.state = .failed) :
    f.pendingOperations = [] := by
  induction t generalizing f with
  | h t ih =>
  cases evaluated_of_evaluate h with
  | leaf hleaf => cases hleaf with
    | operation => exact evaluateOperation_failed hfailed
    | _ => rfl
  | completed | undecided => rfl
  | passes hto hnow => exact ih _ hto.mem hnow hfailed
  | parallel hall =>
    rw [parallel_pending]
    exact (parallel_failed.mp hfailed).2.2

/-- A blocked plan shows a blocker, or work under way. -/
theorem blocked_shows (h : evaluate view t = .ok f) (hblocked : f.state = .blocked) :
    anyBelow view blocker t = true ∨ anyBelow view liveWork t = true := by
  induction t generalizing f with
  | h t ih =>
  have hchild : ∀ c ∈ activeBelow view t, ∀ g, evaluate view c = .ok g → g.state = .blocked →
      anyBelow view blocker t = true ∨ anyBelow view liveWork t = true := by
    intro c hc g hg hstate
    exact (ih c (mem_children_of_activeBelow hc) hg hstate).imp (anyBelow_child hc)
      (anyBelow_child hc)
  cases evaluated_of_evaluate h with
  | leaf hleaf =>
    exact Or.inl (anyBelow_iff.mpr ⟨t, mem_active_self _, (leafAgrees hleaf).blocker.mpr hblocked⟩)
  | completed | undecided => cases hblocked
  | passes hto hnow => exact hchild _ (active_of_passes hto) _ hnow hblocked
  | parallel hall =>
    obtain ⟨r, hr, hstate⟩ | ⟨-, hpending⟩ := parallel_blocked.mp hblocked
    · obtain ⟨c, hc, rfl⟩ := List.mem_map.mp hr
      exact hchild c hc _ (hall c hc) hstate
    · rw [ne_eq, List.flatMap_eq_nil_iff, not_forall₂] at hpending
      obtain ⟨r, hr, hpending⟩ := hpending
      obtain ⟨c, hc, rfl⟩ := List.mem_map.mp hr
      obtain hlive | hstate := live_of_pending (hall c hc) hpending
      · exact Or.inr (anyBelow_child hc hlive)
      · exact hchild c hc _ (hall c hc) hstate

/-! ## Failure -/

/-- Every intervention in sight is one that the plan has reached. -/
def Clear (view : ProgressView) (f : Frontier) (t : CompiledNode) : Prop :=
  ∀ n ∈ active view t, Uncleared view n → n.id ∈ f.interventions

theorem Clear.below (h : Clear view f t) (hc : c ∈ activeBelow view t) :
    Clear view f c :=
  fun n hn => h n (mem_active_of_below hc hn)

/-- An intervention that the plan has reached is one of the tree. -/
theorem interventions_mem (h : evaluate view t = .ok f) {id : Name} (hid : id ∈ f.interventions) :
    ∃ n ∈ t.nodes, n.id = id := by
  have hkey : (id, .requestIntervention) ∈ suggested f := mem_suggested.mpr (by simp [hid])
  exact suggested_mem h hkey

/-- Below a parallel node each child has its own interventions. -/
theorem Clear.child (hids : (t.nodes.map CompiledNode.id).Nodup) (hlabel : t.label = .parallelAll)
    (hall : ∀ c ∈ t.children, evaluate view c = .ok (frontierOf view c))
    (h : Clear view (Frontier.parallel (t.children.map (frontierOf view))) t)
    (hc : c ∈ t.children) : Clear view (frontierOf view c) c := by
  have hactive : c ∈ activeBelow view t := by
    cases t with
    | parallelAll => exact hc
    | _ => cases hlabel
  intro n hn huncleared
  have hid := h n (mem_active_of_below hactive hn) huncleared
  rw [parallel_interventions] at hid
  obtain ⟨r, hr, hid⟩ := List.mem_flatMap.mp hid
  obtain ⟨d, hd, rfl⟩ := List.mem_map.mp hr
  obtain ⟨m, hm, heq⟩ := interventions_mem (hall d hd) hid
  rw [child_unique hids hc hd (active_subset_nodes hn) hm heq.symm]
  exact hid

/-- Where nothing is seen too early, what is in the way stops the plan. -/
theorem stopped_of_problem (h : evaluate view t = .ok f)
    (hids : (t.nodes.map CompiledNode.id).Nodup) (hclear : Clear view f t)
    (hn : n ∈ active view t) (hproblem : problem (definitionOf n) (sight view n) = true) :
    (f.state = .blocked ∨ f.state = .failed) ∧
      (blocker (definitionOf n) (sight view n) = true → f.state = .blocked) := by
  induction t generalizing f with
  | h t ih =>
  have hrec : ∀ k ∈ activeBelow view t, evaluate view k = .ok f → n ∈ active view k →
      (f.state = .blocked ∨ f.state = .failed) ∧
        (blocker (definitionOf n) (sight view n) = true → f.state = .blocked) := by
    intro k hk hnow hnk
    have hchild := mem_children_of_activeBelow hk
    exact ih k hchild hnow (nodup_child hids hchild) (hclear.below hk) hnk
  obtain ⟨rfl, hagrees⟩ | ⟨c, hc, hnc, hnow⟩ | ⟨c, hc, hnc, hfree, k, hk, hnow⟩ |
    ⟨hlabel, hall, rfl, c, hc, hnc⟩ := active_cases h hn (loud_of_problem hproblem)
  · exact ⟨hagrees.problem.mp hproblem, hagrees.blocker.mp⟩
  · exact hrec c hc hnow hnc
  · -- an intervention that has not been reached would be a suggestion of the current child
    have hnode := active_subset_nodes hnc
    have hid := hclear n hn (uncleared_of_untouched hfree hnode hproblem)
    obtain ⟨m, hm, heq⟩ := interventions_mem hnow hid
    have hck := child_unique hids (mem_children_of_activeBelow hc)
      (mem_children_of_activeBelow hk) hnode hm heq.symm
    rw [hck] at hnc
    exact hrec k hk hnow hnc
  · have hchild := mem_children_of_activeBelow hc
    have hmem : frontierOf view c ∈ t.children.map (frontierOf view) := List.mem_map_of_mem hchild
    obtain ⟨hstop, hblocker⟩ := ih c hchild (hall c hchild) (nodup_child hids hchild)
      (hclear.child hids hlabel hall hchild) hnc
    constructor
    · obtain hblocked | hfailed := hstop
      · exact Or.inl (parallel_blocked.mpr (Or.inl ⟨_, hmem, hblocked⟩))
      · rw [parallel_blocked, parallel_failed]
        by_cases hpending : (t.children.map (frontierOf view)).flatMap (·.pendingOperations) = []
        · by_cases hblocked : ∃ r ∈ t.children.map (frontierOf view), r.state = .blocked
          · exact Or.inl (Or.inl hblocked)
          · exact Or.inr ⟨hblocked, ⟨_, hmem, hfailed⟩, hpending⟩
        · exact Or.inl (Or.inr ⟨⟨_, hmem, hfailed⟩, hpending⟩)
    · exact fun hb => parallel_blocked.mpr (Or.inl ⟨_, hmem, hblocker hb⟩)

theorem parallelStatus_eq_failure {blocked live : Bool} {statuses : List Status} :
    parallelStatus blocked live statuses = .failure ↔
      blocked = false ∧ .failure ∈ statuses ∧ (live = false ∨ .running ∉ statuses) := by
  unfold parallelStatus
  cases blocked <;> cases live <;> by_cases hf : Status.failure ∈ statuses <;>
    by_cases hr : Status.running ∈ statuses <;> simp [hf, hr]

/-- A status that is neither success nor failure. -/
theorem Status.eq_running {s : Status} (hs : s ≠ .success) (hf : s ≠ .failure) : s = .running := by
  cases s
  · rfl
  · exact absurd rfl hs
  · exact absurd rfl hf

/-- Where nothing is seen too early, the engine fails exactly when the plan does. -/
theorem status_eq_failure (h : evaluate view t = .ok f)
    (hids : (t.nodes.map CompiledNode.id).Nodup) (hclear : Clear view f t) :
    status view t = .failure ↔ f.state = .failed := by
  induction t generalizing f with
  | h t ih =>
  cases evaluated_of_evaluate h with
  | leaf hleaf => exact (leafAgrees hleaf).failure
  | completed hall =>
    rw [(status_eq_success h).mpr rfl]
    simp
  | passes hto hnow =>
    rw [status_of_passes hto hnow fun _ _ _ => status_eq_success]
    exact ih _ hto.mem hnow (nodup_child hids hto.mem) (hclear.below (active_of_passes hto))
  | @undecided id source condition whenTrue whenFalse hfree =>
    rw [status, hfree]
    simp
  | @parallel id source cs hall =>
    have hfail : ∀ c ∈ cs, status view c = .failure ↔ (frontierOf view c).state = .failed :=
      fun c hc => ih c hc (hall c hc) (nodup_child hids hc) (hclear.child hids rfl hall hc)
    have hrunning : ∀ c ∈ cs, (frontierOf view c).state ≠ .completed →
        (frontierOf view c).state ≠ .failed → .running ∈ cs.map (status view) := by
      intro c hc hopen hgoing
      rw [← Status.eq_running (fun hs => hopen ((status_eq_success (hall c hc)).mp hs))
        fun hs => hgoing ((hfail c hc).mp hs)]
      exact List.mem_map_of_mem hc
    rw [status, parallelStatus_eq_failure, parallel_failed, statusAll_eq]
    constructor
    · rintro ⟨hquiet, hfailed, hlive⟩
      -- work under way in a child that goes on keeps the node running
      have hgoes : ∀ c ∈ cs, anyBelow view liveWork c = true →
          (frontierOf view c).state ≠ .completed → (frontierOf view c).state ≠ .failed → False := by
        intro c hc hwork hopen hgoing
        have hbelow : c ∈ activeBelow view (.parallelAll id source cs) := hc
        rw [anyBelow_child hbelow hwork] at hlive
        exact hlive.elim (fun h => by cases h) fun h => h (hrunning c hc hopen hgoing)
      have hfree : ¬ ∃ r ∈ cs.map (frontierOf view), r.state = .blocked := by
        rintro ⟨r, hr, hblocked⟩
        obtain ⟨c, hc, rfl⟩ := List.mem_map.mp hr
        have hbelow : c ∈ activeBelow view (.parallelAll id source cs) := hc
        obtain hb | hwork := blocked_shows (hall c hc) hblocked
        · rw [anyBelow_child hbelow hb] at hquiet
          cases hquiet
        · exact hgoes c hc hwork (by simp [hblocked]) (by simp [hblocked])
      obtain ⟨c, hc, hstatus⟩ := List.mem_map.mp hfailed
      refine ⟨hfree, ⟨_, List.mem_map_of_mem hc, (hfail c hc).mp hstatus⟩, ?_⟩
      rw [List.flatMap_eq_nil_iff]
      intro r hr
      obtain ⟨d, hd, rfl⟩ := List.mem_map.mp hr
      by_contra hpending
      obtain hwork | hblocked := live_of_pending (hall d hd) hpending
      · apply hgoes d hd hwork
        · intro hdone
          rw [eq_completed (hall d hd) hdone] at hpending
          exact hpending rfl
        · exact fun hover => hpending (pending_of_failed (hall d hd) hover)
      · exact hfree ⟨_, hr, hblocked⟩
    · rintro ⟨hfree, ⟨r, hr, hfailed⟩, hpending⟩
      obtain ⟨c, hc, rfl⟩ := List.mem_map.mp hr
      have hstate := parallel_failed.mpr ⟨hfree, ⟨_, hr, hfailed⟩, hpending⟩
      refine ⟨?_, List.mem_map.mpr ⟨c, hc, (hfail c hc).mpr hfailed⟩, Or.inl ?_⟩
      · rw [← Bool.not_eq_true, anyBelow_iff]
        rintro ⟨n, hn, hblocker⟩
        have hblocked :=
          (stopped_of_problem h hids hclear hn (problem_of_blocker hblocker)).2 hblocker
        rw [hstate] at hblocked
        cases hblocked
      · rw [← Bool.not_eq_true, anyBelow_iff]
        rintro ⟨n, hn, hwork⟩
        apply pending_of_live h hn hwork
        rw [parallel_pending]
        exact hpending

end RxSolutions.Bt
