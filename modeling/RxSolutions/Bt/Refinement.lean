import RxSolutions.Bt.Walk

/-!
# The engine computes the function of a tick

A tick reads the clocks again and again, looks definitions up by name and follows them to the
leaves. While its frame stays usable all that comes to the status and the requests of
`Bt.Walk`.
-/

namespace RxSolutions.Bt

open Domain Durable Executor Process
open CompiledNode (nodes nodes_eq mem_nodes_self mem_nodes_of_child)

/-- What is seen of a tick: everything but how often the clocks have been read. -/
def seen (s : Ticking) : Context × (ℕ → Reading) := (s.context, s.clock)

/-- A context that shows a progress view of a process for as long as a tick takes. -/
structure Shows (view : ProgressView) (root : CompiledNode) (clock : ℕ → Reading) (c : Context) :
    Prop where
  definitions : ∀ n ∈ root.nodes, c.definitions.get? n.id = some (definitionOf n)
  frame : ∃ p, c.tick = some p ∧ (∀ n ∈ root.nodes, p.frame.look n.id = sight view n) ∧
    ∀ i, p.frame.Usable (clock i)

section Programs

variable {view : ProgressView} {root n t : CompiledNode} {clock : ℕ → Reading} {c c' : Context}

/-- Requests do not change what a context shows. -/
theorem Shows.after (h : Shows view root clock c) (r : List (Name × RequestKind) × Bool) :
    Shows view root clock (c.after r) := by
  obtain ⟨queue, requested, hafter⟩ := c.after_fields r
  rw [hafter]
  exact ⟨h.definitions, h.frame⟩

/-- A reading is one of the clock's. -/
theorem reading_always (ok : Reading → Prop) (h : ∀ i, ok (clock i)) :
    Program.Always seen reading (fun now t => ok now ∧ t = (c, clock)) (fun _ _ => False)
      (c, clock) := by
  intro s hs
  obtain ⟨rfl, rfl⟩ := Prod.mk.inj hs
  exact ⟨h s.reads, rfl⟩

/-- The engine finds the definition of every node. -/
theorem definition_yields (h : Shows view root clock c) (hn : n ∈ root.nodes) :
    Program.Yields seen (definition n.id) (c, clock) (definitionOf n) (c, clock) := by
  intro s hs
  obtain ⟨rfl, rfl⟩ := Prod.mk.inj hs
  have hdef : s.context.definition n.id = .ok (definitionOf n) := by
    rw [Context.definition, h.definitions n hn]
  simp only [definition, Program.wp_bind, Program.wp_get, hdef, call]
  exact ⟨rfl, rfl⟩

/-- It observes what the view says about a node. -/
theorem observe_yields (h : Shows view root clock c) (hn : n ∈ root.nodes) :
    Program.Yields seen (observe n.id) (c, clock) (sight view n) (c, clock) := by
  obtain ⟨p, htick, hlook, husable⟩ := h.frame
  apply Program.Always.seq (reading_always (fun now => p.frame.Usable now) husable)
  rintro now _ ⟨hnow, rfl⟩ s hs
  obtain ⟨rfl, rfl⟩ := Prod.mk.inj hs
  have hobserve : s.context.observe n.id now = .ok (sight view n) := by
    rw [← hlook n hn]
    simp [Context.observe, Context.definition, h.definitions n hn, htick, hnow, Frame.look, bind,
      Except.bind, discard, Functor.discard, Functor.mapConst, Except.map, pure, Except.pure]
  simp only [Program.wp_bind, Program.wp_get, hobserve, call]
  exact ⟨rfl, rfl⟩

/-- The frame stays usable during the tick. -/
theorem usable_yields (h : Shows view root clock c) :
    Program.Yields seen usable (c, clock) true (c, clock) := by
  obtain ⟨p, htick, -, husable⟩ := h.frame
  apply Program.Always.seq (reading_always (fun now => p.frame.Usable now) husable)
  rintro now _ ⟨hnow, rfl⟩ s hs
  obtain ⟨rfl, rfl⟩ := Prod.mk.inj hs
  simp only [Program.wp_bind, Program.wp_get]
  have hready : s.context.Usable now := ⟨p, htick, hnow⟩
  exact ⟨decide_eq_true hready, rfl⟩

/-- A request on a usable frame is taken, unless new work is suppressed. -/
theorem Context.enqueue_eq {d : Definition} {id : Name} {now : Reading}
    (hdef : c.definitions.get? id = some d) (hready : c.Usable now) (kind : RequestKind) :
    ∃ accepted, c.enqueue id kind now =
      .ok (accepted, c.after (askOne c.suppressNew id (some kind))) := by
  have hdefinition : c.definition id = .ok d := by rw [Context.definition, hdef]
  have hasked : c.after ([(id, kind)], c.suppressNew) = c.asked (id, kind) := rfl
  unfold Context.enqueue
  simp only [hdefinition, bind, Except.bind, askOne, pure, Except.pure]
  by_cases hraw : c.suppressNew = true ∧
      (kind = .submitOperation ∨ kind = .resolveBranch ∨ kind = .beginWait)
  · have hsuppress : c.suppressNew = true ∧ IsNew kind := hraw
    rw [if_pos hraw, if_pos hsuppress]
    exact ⟨false, rfl⟩
  have hsuppress : ¬ (c.suppressNew = true ∧ IsNew kind) := hraw
  rw [if_neg hraw, if_neg hsuppress, hasked]
  unfold Context.asked
  simp only [hdef]
  have hpermits : c.Permits id now ↔
      ∃ p ∈ c.tick, p.frame.submissionAuthorized = true ∧ id ∈ p.frame.eligible := by
    obtain ⟨p, hp, hnow⟩ := hready
    have htick : c.tick = some p := hp
    simp [Context.Permits, htick, hnow]
  by_cases hpermit : c.Permits id now
  case neg =>
    have hreject : ¬ c.Accepts (id, kind) := fun h => hpermit (hpermits.mpr h.1)
    rw [if_pos hpermit, if_neg hreject]
    exact ⟨false, rfl⟩
  rw [if_neg (not_not.mpr hpermit)]
  by_cases hhalted : c.halted = true ∨ ¬ c.Current
  · have hreject : ¬ c.Accepts (id, kind) := by
      rintro ⟨-, hrunning, hcurrent, -⟩
      rw [hrunning] at hhalted
      exact hhalted.elim Bool.false_ne_true fun h => h hcurrent
    rw [if_pos hhalted, if_neg hreject]
    exact ⟨false, rfl⟩
  rw [if_neg hhalted]
  rw [not_or, Bool.not_eq_true, not_not] at hhalted
  by_cases hknown : (id, kind) ∈ c.requested
  · have hreject : ¬ c.Accepts (id, kind) := fun h => h.2.2.2.1 hknown
    rw [if_pos hknown, if_neg hreject]
    exact ⟨true, rfl⟩
  rw [if_neg hknown]
  by_cases hfull : 32 ≤ c.queue.length
  · have hreject : ¬ c.Accepts (id, kind) := by
      rintro ⟨-, -, -, -, hroom⟩
      omega
    rw [if_pos hfull, if_neg hreject]
    exact ⟨false, rfl⟩
  · have haccept : c.Accepts (id, kind) :=
      ⟨hpermits.mp hpermit, hhalted.1, hhalted.2, hknown, by omega⟩
    rw [if_neg hfull, if_pos haccept]
    exact ⟨true, rfl⟩

/-- A request is queued as the walk says. -/
theorem ask_yields (h : Shows view root clock c) (hn : n ∈ root.nodes) (kind : RequestKind) :
    Program.Yields seen (ask n.id kind) (c, clock) .running
      (c.after (askOne c.suppressNew n.id (some kind)), clock) := by
  obtain ⟨p, htick, -, husable⟩ := h.frame
  have henqueue : Program.Always seen (enqueue n.id kind)
      (fun _ t => t = (c.after (askOne c.suppressNew n.id (some kind)), clock))
      (fun _ _ => False) (c, clock) := by
    apply Program.Always.seq (reading_always (fun now => p.frame.Usable now) husable)
    rintro now _ ⟨hnow, rfl⟩ s hs
    obtain ⟨rfl, rfl⟩ := Prod.mk.inj hs
    have hready : s.context.Usable now := ⟨p, htick, hnow⟩
    obtain ⟨accepted, heq⟩ := Context.enqueue_eq (h.definitions n hn) hready kind
    simp only [Program.wp_bind, Program.wp_get, heq, call]
    rfl
  apply Program.Always.seq henqueue
  rintro accepted _ rfl
  exact Program.Always.pure ⟨rfl, rfl⟩

/-! ## Leaves -/

/-- A leaf ticks as the walk says. -/
theorem leafTick_yields (h : Shows view root clock c) (hn : n ∈ root.nodes) (kind : Kind)
    (hleaf : kind = .operation ∨ kind = .wait ∨ kind = .intervention) :
    Program.Yields seen (leafTick kind n.id) (c, clock) (answer kind (sight view n)).1
      (c.after (askOne c.suppressNew n.id (answer kind (sight view n)).2), clock) := by
  have hask := ask_yields h hn
  have hnone : ∀ st : Status, Program.Yields seen (pure st : Tick Status) (c, clock) st
      (c.after (askOne c.suppressNew n.id none), clock) := fun st => Program.Yields.pure
  apply Program.Yields.bind (observe_yields h hn)
  apply Program.Yields.bind (usable_yields h)
  generalize sight view n = value
  unfold answer
  by_cases hclear : value.unknown = true ∨ ¬ value.integrityValid = true
  · simp only [hclear, or_true, if_true]
    exact hnone .running
  simp only [hclear, or_false, not_true_eq_false, if_false]
  obtain rfl | rfl | rfl := hleaf
  · dsimp only
    by_cases hop : value.operationId = none
    · simp only [hop, if_true]
      exact hask .submitOperation
    simp only [hop, if_false]
    cases value.outcome with
    | succeeded =>
      dsimp only
      cases value.released
      · exact hask .requestHandover
      · exact hnone .success
    | failed | canceled | notExecuted => exact hnone .failure
    | unresolved | none => exact hnone .running
  · dsimp only
    cases value.wait with
    | satisfied => exact hnone .success
    | timedOut => exact hnone .failure
    | pending => exact hask .beginWait
  · dsimp only
    by_cases hclearance : value.clearance = none
    · simp only [hclearance, ne_eq, not_true_eq_false, if_false]
      exact hask .requestIntervention
    · simp only [ne_eq, hclearance, not_false_eq_true, if_true]
      exact hnone .success

/-! ## Searches -/

/-- The engine finds the active children of a node. -/
theorem activeChildren_yields (t : CompiledNode) :
    Program.Yields seen (activeChildren (definitionOf t) (sight view t)) (c, clock)
      ((activeBelow view t).map CompiledNode.id) (c, clock) := by
  cases t with
  | branch id source condition whenTrue whenFalse =>
    unfold activeChildren activeBelow sight
    simp only [definitionOf, kindOf, ne_eq, not_true_eq_false, if_false, CompiledNode.label,
      CompiledNode.id, CompiledNode.children, List.map_cons, List.map_nil]
    cases view.branches.get? id with
    | none => exact Program.Yields.pure
    | some choice =>
      cases hchosen : choice.chosen <;>
        simp only [observationOf, Node.ofBranch, hchosen] <;> exact Program.Yields.pure
  | _ => exact Program.Yields.pure

variable {ts : List CompiledNode}

/-- A search over children finds what one of them has. -/
theorem anyM_yields {search : Name → Tick Bool} {found : CompiledNode → Bool}
    (h : ∀ t ∈ ts, Program.Yields seen (search t.id) (c, clock) (found t) (c, clock)) :
    Program.Yields seen ((ts.map CompiledNode.id).anyM search) (c, clock) (ts.any found)
      (c, clock) := by
  induction ts with
  | nil => exact Program.Yields.pure
  | cons t ts ih =>
    rw [List.map_cons, List.anyM]
    apply Program.Yields.bind (h t List.mem_cons_self)
    rw [List.any_cons]
    cases found t with
    | true => exact Program.Yields.pure
    | false => exact ih fun u hu => h u (List.mem_cons_of_mem _ hu)

/-- A search over all that is active below a node. -/
theorem anyActive_yields (h : Shows view root clock c) (found : Definition → Observation → Bool)
    {levels : ℕ} (ht : ∀ n ∈ t.nodes, n ∈ root.nodes) (hlevels : t.Within levels) :
    Program.Yields seen (anyActive found levels t.id) (c, clock) (anyBelow view found t)
      (c, clock) := by
  induction t generalizing levels with
  | h t ih =>
  cases levels with
  | zero => exact hlevels.elim
  | succ levels =>
  have hself := ht t (mem_nodes_self t)
  apply Program.Yields.bind (observe_yields h hself)
  apply Program.Yields.bind (definition_yields h hself)
  rw [anyBelow, active_eq, List.any_cons]
  cases hfound : found (definitionOf t) (sight view t) with
  | true => exact Program.Yields.pure
  | false =>
    apply Program.Yields.bind (activeChildren_yields t)
    rw [Bool.false_or, List.any_flatMap]
    apply anyM_yields
    intro u hu
    have hchild := mem_children_of_activeBelow hu
    exact ih u hchild (fun n hn => ht n (mem_nodes_of_child hchild hn)) (hlevels u hchild)

/-! ## Nodes -/

theorem within_mono {levels levels' : ℕ} (h : t.Within levels) (hle : levels ≤ levels') :
    t.Within levels' := by
  induction t generalizing levels levels' with
  | h t ih =>
  cases levels with
  | zero => exact h.elim
  | succ levels =>
    obtain ⟨levels', rfl⟩ : ∃ k, levels' = k + 1 := ⟨levels' - 1, by omega⟩
    exact fun u hu => ih u hu (h u hu) (by omega)

/-- A subtree of the process that the engine has built. -/
structure Built (root t : CompiledNode) : Prop where
  below : ∀ n ∈ t.nodes, n ∈ root.nodes
  within : t.Within maxLevels
  nonempty : ∀ n ∈ t.nodes, n.label = .sequence ∨ n.label = .parallelAll → n.children ≠ []

theorem Built.child (h : Built root t) {u : CompiledNode} (hu : u ∈ t.children) :
    Built root u where
  below n hn := h.below n (mem_nodes_of_child hu hn)
  within := within_mono (h.within u hu) (by simp [maxLevels])
  nonempty n hn := h.nonempty n (mem_nodes_of_child hu hn)

/-- The engine computes the status of a tree and makes its requests. -/
def Computes (view : ProgressView) (root : CompiledNode) (clock : ℕ → Reading)
    (t : CompiledNode) : Prop :=
  ∀ c, Shows view root clock c → Program.Yields seen (tick (Tree.of t)) (c, clock)
    (status view t) (c.after (asks view t c.suppressNew), clock)

/-- A sequence ticks as the walk says, if its children do. -/
theorem tickSequence_yields (hts : ∀ t ∈ ts, Computes view root clock t)
    (h : Shows view root clock c) :
    Program.Yields seen (tickSequence (Tree.ofAll ts)) (c, clock) (statusSequence view ts)
      (c.after (asksSequence view ts c.suppressNew), clock) := by
  induction ts generalizing c with
  | nil => exact Program.Yields.pure
  | cons t ts ih =>
    rw [Tree.ofAll, tickSequence, statusSequence, asksSequence]
    apply Program.Yields.bind (hts t List.mem_cons_self c h)
    have hrest := ih (fun u hu => hts u (List.mem_cons_of_mem _ hu))
      (h.after (asks view t c.suppressNew))
    rw [Context.suppressNew_after, Context.after_after] at hrest
    cases hstatus : status view t with
    | success => exact hrest
    | running | failure => exact Program.Yields.pure

/-- So do the children of a parallel node. -/
theorem tickAll_yields (hts : ∀ t ∈ ts, Computes view root clock t) (h : Shows view root clock c) :
    Program.Yields seen (tickAll (Tree.ofAll ts)) (c, clock) (statusAll view ts)
      (c.after (asksAll view ts c.suppressNew), clock) := by
  induction ts generalizing c with
  | nil => exact Program.Yields.pure
  | cons t ts ih =>
    rw [Tree.ofAll, tickAll, statusAll, asksAll]
    apply Program.Yields.bind (hts t List.mem_cons_self c h)
    have hrest := ih (fun u hu => hts u (List.mem_cons_of_mem _ hu))
      (h.after (asks view t c.suppressNew))
    rw [Context.suppressNew_after, Context.after_after] at hrest
    apply Program.Yields.bind hrest
    exact Program.Yields.pure

/-- A parallel node settles on the status of the walk. -/
theorem settle_yields (h : Shows view root clock c) (ht : Built root t) (statuses : List Status) :
    Program.Yields seen (settle t.id (.running ∈ statuses) (.failure ∈ statuses)) (c, clock)
      (parallelStatus (anyBelow view blocker t) (anyBelow view liveWork t) statuses)
      (c, clock) := by
  apply Program.Yields.bind (anyActive_yields h blocker ht.below ht.within)
  unfold parallelStatus
  cases anyBelow view blocker t with
  | true => exact Program.Yields.pure
  | false =>
    by_cases hfailed : Status.failure ∈ statuses
    · simp only [hfailed, decide_true, if_true, true_and, Bool.false_eq_true, if_false]
      apply Program.Yields.bind (anyActive_yields h liveWork ht.below ht.within)
      cases anyBelow view liveWork t with
      | false => exact Program.Yields.pure
      | true =>
        by_cases hrunning : Status.running ∈ statuses <;> simp [hrunning] <;>
          exact Program.Yields.pure
    · by_cases hrunning : Status.running ∈ statuses <;> simp [hfailed, hrunning] <;>
        exact Program.Yields.pure

theorem suppress_yields : Program.Yields seen suppressNewForTick (c, clock) ()
    (c.after ([], true), clock) := by
  intro s hs
  obtain ⟨rfl, rfl⟩ := Prod.mk.inj hs
  exact ⟨rfl, rfl⟩

/-- Every node of the tree ticks as the walk says. -/
theorem tick_yields (ht : Built root t) : Computes view root clock t := by
  induction t with
  | h t ih =>
  intro c h
  have hself := ht.below t (mem_nodes_self t)
  have hchildren : ∀ u ∈ t.children, Computes view root clock u :=
    fun u hu => ih u hu (ht.child hu)
  cases t with
  | operation id source binding =>
    exact leafTick_yields h hself .operation (Or.inl rfl)
  | wait id source condition timeoutNs =>
    exact leafTick_yields h hself .wait (Or.inr (Or.inl rfl))
  | intervention id source procedure =>
    exact leafTick_yields h hself .intervention (Or.inr (Or.inr rfl))
  | sequence id source cs =>
    have hne := ht.nonempty _ (mem_nodes_self _) (Or.inl rfl)
    obtain ⟨d, ds, rfl⟩ : ∃ d ds, cs = d :: ds := List.exists_cons_of_ne_nil hne
    rw [Tree.of, tick]
    apply Program.Yields.bind (usable_yields h)
    exact tickSequence_yields hchildren h
  | parallelAll id source cs =>
    have hne := ht.nonempty _ (mem_nodes_self _) (Or.inr rfl)
    obtain ⟨d, ds, rfl⟩ : ∃ d ds, cs = d :: ds := List.exists_cons_of_ne_nil hne
    rw [Tree.of, tick]
    apply Program.Yields.bind (usable_yields h)
    apply Program.Yields.bind (anyActive_yields h problem ht.below ht.within)
    have hbody : ∀ suppress, Program.Yields seen (do
          let statuses ← tickAll (Tree.ofAll (d :: ds))
          settle id (.running ∈ statuses) (.failure ∈ statuses))
        (c.after ([], suppress), clock) (status view (.parallelAll id source (d :: ds)))
        (c.after (asksAll view (d :: ds) suppress), clock) := by
      intro suppress
      have hall := tickAll_yields hchildren (h.after ([], suppress))
      rw [Context.suppressNew_after, Context.after_after] at hall
      exact Program.Yields.bind hall (settle_yields (h.after _) ht _)
    rw [asks]
    cases anyBelow view problem (.parallelAll id source (d :: ds)) with
    | true =>
      rw [Bool.or_true]
      exact Program.Yields.bind suppress_yields (hbody true)
    | false =>
      rw [Bool.or_false]
      exact hbody c.suppressNew
  | branch id source condition whenTrue whenFalse =>
    rw [Tree.of, tick]
    apply Program.Yields.bind (usable_yields h)
    apply Program.Yields.bind (observe_yields h hself)
    rw [status, asks]
    cases hchoice : view.branches.get? id with
    | none =>
      have hsight : sight view (.branch id source condition whenTrue whenFalse) = {} := by
        simp [sight, CompiledNode.label, CompiledNode.id, hchoice]
      rw [hsight]
      exact ask_yields h hself .resolveBranch
    | some choice =>
      have hsight : sight view (.branch id source condition whenTrue whenFalse) =
          observationOf (.ofBranch choice) := by
        simp [sight, CompiledNode.label, CompiledNode.id, hchoice]
      have hfirst := hchildren whenTrue (by simp [CompiledNode.children]) c h
      have hsecond := hchildren whenFalse (by simp [CompiledNode.children]) c h
      rw [hsight]
      cases hchosen : choice.chosen <;>
        simp only [observationOf, Node.ofBranch, hchosen, if_true, Bool.false_eq_true, if_false]
      · exact hsecond
      · exact hfirst

end Programs

end RxSolutions.Bt
