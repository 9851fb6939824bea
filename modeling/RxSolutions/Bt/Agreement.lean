import RxSolutions.Bt.Completion
import RxSolutions.Bt.Definitions
import RxSolutions.Bt.Refinement
import RxSolutions.Process.Parallelism

/-!
# Ticks and plans

A progress view that the planner accepts is projected into a frame and published to the
engine, which ticks its tree on it. The engine reports success exactly when the plan is
completed.
-/

namespace RxSolutions.Bt

open Domain Durable Executor Process

/-- A context of a process that holds the projection of a progress view, and clocks on which
it stays usable. -/
structure Scene (p : ResolvedProcess) (view : ProgressView) (f : Frontier) where
  snapshot : ValidatedSnapshot
  progress : snapshot.raw.progress = view
  frontier : snapshot.frontier = f
  packet : Packet
  projected : ∃ expected instant instant' now now',
    snapshot.frame expected instant instant' now now' = .ok packet
  /-- When the packet arrived. -/
  steady : ℕ
  context : Context
  definitions : definitionsOf p = .ok (context.root, context.definitions)
  /-- The number of the publication. -/
  serial : ℕ
  published : context.incoming = some ⟨serial, frameOf packet steady⟩
  clock : ℕ → Reading
  usable : ∀ i, (frameOf packet steady).Usable (clock i)

/-- What a tick of the scene starts from. -/
def Scene.start {p : ResolvedProcess} {view : ProgressView} {f : Frontier} (scene : Scene p view f)
    (reads : ℕ) : Ticking :=
  ⟨scene.context, scene.clock, reads⟩

section Compiled

variable [Hashing] {source : ProcessSource} {bindings : SortedMap Name ActionBinding}
  {p : ResolvedProcess} {view : ProgressView} {f : Frontier}

omit [Hashing] in
/-- The packet of a scene holds the progress view and the frontier. -/
theorem Scene.packet_eq (scene : Scene p view f) :
    scene.packet.nodes = nodesOf view ∧ scene.packet.eligible = eligibleOf f := by
  obtain ⟨expected, instant, instant', now, now', hframe⟩ := scene.projected
  obtain ⟨-, -, t, -, -, -, -, -, hpacket⟩ := ValidatedSnapshot.frame_eq_ok hframe
  rw [hpacket]
  exact ⟨congrArg nodesOf scene.progress, congrArg eligibleOf scene.frontier⟩

/-- The frame of a scene shows the progress view. -/
theorem Scene.shows (scene : Scene p view f) (hwell : p.WellFormed) (hplanned : Planned p view f) :
    Shows view p.root scene.clock scene.context.beginTick where
  definitions n hn := by
    obtain ⟨defs, hdefs, hholds⟩ := exists_definitionsOf hwell
    have heq : (p.root.id, defs) = (scene.context.root, scene.context.definitions) :=
      Except.ok.inj (hdefs.symm.trans scene.definitions)
    have hfound := (hholds n.id _).mpr ⟨n, hn, rfl, rfl⟩
    rw [(Prod.mk.inj heq).2] at hfound
    exact hfound
  frame := by
    refine ⟨_, scene.published, fun n hn => ?_, scene.usable⟩
    exact look_frameOf hplanned hwell.fits.distinct scene.packet_eq.1 hn scene.steady

/-- The tree of a well-formed process. -/
theorem built_root (hwell : p.WellFormed) : Built p.root p.root where
  below _ hn := hn
  within := hwell.within
  nonempty n hn hlabel := by
    have hbody := (hwell.fine n hn).body
    cases n with
    | sequence => exact hbody
    | parallelAll => exact hbody.1
    | _ => simp [CompiledNode.label] at hlabel

/-- One tick of a scene. -/
theorem Scene.tick (scene : Scene p view f) (hwell : p.WellFormed) (hplanned : Planned p view f)
    (reads : ℕ) :
    ∃ s, executorTick (Tree.of p.root) (scene.start reads) = (.ok (status view p.root), s) ∧
      s.context = scene.context.beginTick.after (asks view p.root false) := by
  have hshows := scene.shows hwell hplanned
  have hyields := tick_yields (built_root hwell) scene.context.beginTick hshows
  obtain ⟨s, hrun, hseen⟩ := Program.Yields.run
    (s := { scene.start reads with context := scene.context.beginTick }) hyields
  exact ⟨s, hrun, congrArg Prod.fst hseen⟩

/-- The engine succeeds exactly when the plan is completed. -/
theorem tick_succeeds_iff_completed (hcompile : compile source bindings = .ok p)
    (hplan : plan p view = .ok f) (scene : Scene p view f) (reads : ℕ) :
    ∃ status s, executorTick (Tree.of p.root) (scene.start reads) = (.ok status, s) ∧
      (status = .success ↔ f.state = .completed) := by
  have hplanned := planned_of_plan hplan
  obtain ⟨s, hrun, -⟩ := scene.tick (compile_wellFormed hcompile) hplanned reads
  exact ⟨_, s, hrun, status_eq_success hplanned.evaluated⟩

omit [Hashing]

/-! ## An instance -/

/-- A snapshot of the first visit of a run, with the given progress. -/
def sampleSnapshot (view : ProgressView) (f : Frontier) : ValidatedSnapshot where
  raw :=
    { sequence := 1, callerSession := "session", cellEpoch := 1
      checkedAt := ⟨"clock", 10⟩, validUntil := ⟨"clock", 20⟩, run := ⟨⟨"run"⟩⟩, visit := 1
      resolved := ⟨"process", "rx.resolved-process.v1", 1⟩
      progress := view, requestAdmissionAllowed := true }
  frontier := f
  deadline := 20

/-- The context it belongs to. -/
def sampleIdentity : Identity := ⟨"run", "session", "process", 1, 1⟩

/-- A context that has just taken the frame of the sample snapshot. -/
def sampleContext (view : ProgressView) (f : Frontier) (root : Name)
    (defs : SortedMap Name Definition) : Context :=
  { Context.initial sampleIdentity root defs with
    incoming := some ⟨0, frameOf ((sampleSnapshot view f).packet sampleIdentity 8) 0⟩
    published := 1 }

/-- The sample snapshot, published and ticked in time. -/
def sampleScene (p : ResolvedProcess) (view : ProgressView) (f : Frontier) (root : Name)
    (defs : SortedMap Name Definition) (h : definitionsOf p = .ok (root, defs)) :
    Scene p view f where
  snapshot := sampleSnapshot view f
  progress := rfl
  frontier := rfl
  packet := (sampleSnapshot view f).packet sampleIdentity 8
  projected := ⟨sampleIdentity, 12, 12, some ⟨"clock", 12⟩, some ⟨"clock", 12⟩, rfl⟩
  steady := 0
  context := sampleContext view f root defs
  definitions := h
  serial := 0
  published := rfl
  clock _ := ⟨1, some ⟨"clock", 13⟩⟩
  usable _ := ⟨rfl, rfl, (by decide : 1 < 8), fun bound hbound => by
    cases hbound
    exact ⟨⟨"clock", 13⟩, rfl, rfl, (by decide : 10 ≤ 13), (by decide : 13 < 20)⟩⟩

/-- What the engine knows about the two operations side by side. -/
def loadDefinitions : SortedMap Name Definition :=
  SortedMap.empty
    |>.insert "node/example/load" ⟨.operation, [], "load", 0⟩
    |>.insert "node/example/inspect" ⟨.operation, [], "inspect", 0⟩
    |>.insert "node/example/both"
      ⟨.parallelAll, ["node/example/load", "node/example/inspect"], "", 0⟩

/-- While the load runs the engine is not done. -/
theorem tick_succeeds_iff_completed_loading :
    ∃ status s, executorTick (Tree.of loadedAndInspected.root)
      ((sampleScene loadedAndInspected loadingView loadingFrontier "node/example/both"
        loadDefinitions rfl).start 0) = (.ok status, s) ∧
      (status = .success ↔ loadingFrontier.state = .completed) :=
  @tick_succeeds_iff_completed plainHashing loadAndInspect inspectBindings loadedAndInspected
    loadingView loadingFrontier rfl rfl (sampleScene _ _ _ _ _ rfl) 0

end Compiled

end RxSolutions.Bt
