import RxSolutions.Host.AtMostOnce

/-!
# A fence stops a cell

Which cells are armed is known to the running process only, while the epoch, the scope
counters and the blocks of a cell are stored. A fence disarms its cell; after it the
cell is armed again only by a new arm in the same process and session, and every entry
into native submission is made under an armed cell whose stored fence the permit names
exactly. Epochs and scope counters never fall, so a permit below a fence stays behind
it for good.
-/

namespace RxSolutions.Host

open Domain Durable Relation

/-! ## Stored fences only move forward -/

/-- Neither the epoch nor a scope counter has fallen. -/
structure CellState.Advances (s s' : CellState) : Prop where
  epoch : s.epoch ≤ s'.epoch
  scopes : s.scopes.Advances s'.scopes

theorem CellState.Advances.refl (s : CellState) : s.Advances s := ⟨le_rfl, .refl _⟩

theorem CellState.Advances.trans {s s' s'' : CellState} (h : s.Advances s')
    (h' : s'.Advances s'') : s.Advances s'' :=
  ⟨h.epoch.trans h'.epoch, h.scopes.trans h'.scopes⟩

section Cells

variable [Ideal] {c : Call} {h h' : Machine} {d d' : Disk} {cell : Name} {s : CellState}

/-- A fence moves the stored fence of its cell forward, an arm leaves it where it is, and
nothing else changes a cell that is stored. -/
theorem Step.cell_advances (step : Step c h h') (hs : h.store.doc (.cell cell) = some s) :
    ∃ s', h'.store.doc (.cell cell) = some s' ∧ s.Advances s' := by
  have hsame : ¬ c.Writes (.cell cell) →
      ∃ s', h'.store.doc (.cell cell) = some s' ∧ s.Advances s' :=
    fun hw => ⟨s, (Repository.doc_congr (step.get_eq hw)).trans hs, .refl s⟩
  cases step with
  | drew => exact ⟨s, hs, .refl s⟩
  | @fenced _ _ _ request body _ step =>
    by_cases hcell : body.cell = cell
    · subst hcell
      cases step with
      | mk _ _ _ found epoch scopes =>
        obtain rfl := Option.some.inj (hs.symm.trans found)
        refine ⟨s.fenced body.epoch body.scopes body.blocks, ?_, epoch, scopes.advances_union⟩
        rw [Repository.doc_write_of_ne (by simp), Store.doc_numbered_of_ne (by simp),
          Repository.doc_write_self]
    · exact hsame (by simpa [Call.Writes] using Ne.symm hcell)
  | @armed _ _ _ attempt body _ step =>
    by_cases hcell : body.cell = cell
    · subst hcell
      cases step with
      | mk _ _ _ found =>
        obtain rfl := Option.some.inj (hs.symm.trans found)
        refine ⟨s.cleared body.blocks, ?_, le_rfl, .refl _⟩
        rw [Repository.doc_write_of_ne (by simp), Store.doc_numbered_of_ne (by simp),
          Repository.doc_write_self]
    · exact hsame (by simpa [Call.Writes] using Ne.symm hcell)
  | _ => exact hsame (by simp [Call.Writes, Key.booked, Key.delivers, Touches])

theorem Disk.Move.cell_advances (move : d.Move d') (hs : d.store.doc (.cell cell) = some s) :
    ∃ s', d'.store.doc (.cell cell) = some s' ∧ s.Advances s' := by
  cases move with
  | drew => exact ⟨s, hs, .refl s⟩
  | booked frame => exact ⟨s, (frame.doc (by simp [Key.bookkeeping])).trans hs, .refl s⟩
  | opened step => cases step with
    | mk opened => exact ⟨s, opened.keeps _ trivial _ hs, .refl s⟩
  | stepped step => exact step.cell_advances hs

/-- The epoch and the scope counters of a stored cell never fall. -/
theorem Disk.Moves.cell_advances (hm : d.Moves d') (hs : d.store.doc (.cell cell) = some s) :
    ∃ s', d'.store.doc (.cell cell) = some s' ∧ s.Advances s' := by
  induction hm with
  | refl => exact ⟨s, hs, .refl s⟩
  | tail _ hlast ih =>
    obtain ⟨s₁, hs₁, hadvance⟩ := ih
    obtain ⟨s₂, hs₂, hadvance'⟩ := hlast.cell_advances hs₁
    exact ⟨s₂, hs₂, hadvance.trans hadvance'⟩

end Cells

/-! ## Which process armed a cell -/

/-- The session of the bound platform. -/
def Core.session (c : Core) : Option Id := c.caller.map Caller.session

section Armed

variable [Ideal] {c : Call} {h h₀ h' : Machine} {cell : Name}

/-- A cell that is armed after a step was armed before it, or the step is its arm. A bound
session stays bound, unless another one disarms every cell. -/
theorem Step.armed_cases (step : Step c h h') (hcell : cell ∈ h'.core.armed) :
    (cell ∈ h.core.armed ∧ h'.core.boot = h.core.boot ∧
      (h.core.caller ≠ none → h'.core.session = h.core.session ∧ h'.core.caller ≠ none)) ∨
    ∃ caller attempt body r, c = .arm caller attempt body ∧ body.cell = cell ∧
      ArmStep h caller attempt body r h' := by
  have hsame : h'.core = h.core → (cell ∈ h.core.armed ∧ h'.core.boot = h.core.boot ∧
      (h.core.caller ≠ none → h'.core.session = h.core.session ∧ h'.core.caller ≠ none)) := by
    intro heq
    rw [heq] at hcell ⊢
    exact ⟨hcell, rfl, fun hbound => ⟨rfl, hbound⟩⟩
  cases step with
  | @bound _ _ caller step =>
    cases step
    simp only at hcell
    split at hcell
    next hsession =>
      -- the same session was bound again, or no session was bound before
      refine .inl ⟨hcell, rfl, fun hbound => ⟨?_, Option.some_ne_none _⟩⟩
      obtain ⟨old, hold⟩ := Option.ne_none_iff_exists'.mp hbound
      simp [Core.session, hold, hsession old hold]
    · simp at hcell
  | disarmed => simp at hcell
  | fenced step =>
    cases step
    exact .inl ⟨(Finset.mem_erase.mp hcell).2, rfl, fun hbound => ⟨rfl, hbound⟩⟩
  | @armed _ _ _ attempt body _ step =>
    by_cases heq : body.cell = cell
    · exact .inr ⟨_, _, _, _, rfl, heq, step⟩
    · cases step
      have hold : cell ∈ h.core.armed := (Finset.mem_insert.mp hcell).resolve_left (Ne.symm heq)
      exact .inl ⟨hold, rfl, fun hbound => ⟨rfl, hbound⟩⟩
  | drew => exact .inl (hsame rfl)
  | prepared step | voided step => cases step <;> exact .inl (hsame rfl)
  | claimed step | booted step | sent step | entered step | finished step | captured step
  | granted step | renewed step | configured step | qualified step | acknowledged step =>
    cases step
    exact .inl (hsame rfl)

/-- The same for all steps of a call: a cell that is armed after it was armed before, in the
same process and session, or the call has committed a new arm of the cell. -/
theorem Steps.armed_cases (hs : Steps c h₀ h) (hcell : cell ∈ h.core.armed) :
    (cell ∈ h₀.core.armed ∧ h.core.boot = h₀.core.boot ∧
      (h₀.core.caller ≠ none → h.core.session = h₀.core.session ∧ h.core.caller ≠ none)) ∨
    ∃ caller attempt body, c = .arm caller attempt body ∧ body.cell = cell ∧
      h₀.store.doc (.armRequest attempt) = none ∧ h.store.doc (.armRequest attempt) ≠ none ∧
      h.core.caller ≠ none := by
  induction hs with
  | refl => exact .inl ⟨hcell, rfl, fun hbound => ⟨rfl, hbound⟩⟩
  | @tail h₁ h hsteps hlast ih =>
    rcases hlast.armed_cases hcell with ⟨hold, hboot, hsession⟩ |
      ⟨caller, attempt, body, r, rfl, hbody, harm⟩
    · rcases ih hold with ⟨hfirst, hboot', hsession'⟩ |
        ⟨caller, attempt, body, rfl, hbody, habsent, hpresent, hbound⟩
      · refine .inl ⟨hfirst, hboot.trans hboot', fun hbound => ?_⟩
        obtain ⟨heq, hbound'⟩ := hsession' hbound
        exact ⟨(hsession hbound').1.trans heq, (hsession hbound').2⟩
      · -- the receipt of the arm stays
        obtain ⟨receipt, hreceipt⟩ := Option.ne_none_iff_exists'.mp hpresent
        have hkept := hlast.keeps (.armRequest attempt) rfl receipt hreceipt
        exact .inr ⟨caller, attempt, body, rfl, hbody, habsent,
          hkept ▸ Option.some_ne_none _, (hsession hbound).2⟩
    · cases harm with
      | mk bound _ unrecorded =>
        refine .inr ⟨caller, attempt, body, rfl, hbody, ?_, ?_, bound ▸ Option.some_ne_none _⟩
        · -- a receipt from before the call would still be there
          by_contra hne
          obtain ⟨receipt, hreceipt⟩ := Option.ne_none_iff_exists'.mp hne
          have hkept := (Steps.moves hsteps).keeps (.armRequest attempt) rfl receipt hreceipt
          rw [unrecorded] at hkept
          cases hkept
        · rw [Repository.doc_write_self]
          exact Option.some_ne_none _

end Armed

namespace World

variable [Ideal] {w w' : World} {i : Input} {cell : Name} {after : List Input} {c c' : Core}

/-- The process of the world is the one with the core `c`, under the same session. -/
def Continues (w : World) (c : Core) : Prop :=
  ∃ p, w.process = some p ∧ p.core.boot = c.boot ∧ p.core.session = c.session

/-- The input commits an arm of the cell with a new attempt id. -/
def Arms (w : World) (i : Input) (cell : Name) : Prop :=
  ∃ caller attempt body answers, i = .call (.arm caller attempt body) answers ∧
    body.cell = cell ∧ w.store.doc (.armRequest attempt) = none ∧
    (w.step i).store.doc (.armRequest attempt) ≠ none

/-- Among the inputs `after`, one has armed the cell anew, and since then the world has kept
the process and the session of `c`. -/
def ArmedSince (w : World) (after : List Input) (cell : Name) (c : Core) : Prop :=
  ∃ a arm b, after = a ++ arm :: b ∧ (w.steps a).Arms arm cell ∧
    ∀ b', b' <+: b → (w.steps (a ++ arm :: b')).Continues c

omit [Ideal] in
theorem Continues.congr (h : w.Continues c) (hboot : c'.boot = c.boot)
    (hsession : c'.session = c.session) : w.Continues c' := by
  obtain ⟨p, hp, hpboot, hpsession⟩ := h
  exact ⟨p, hp, hpboot.trans hboot.symm, hpsession.trans hsession.symm⟩

/-- One more input that keeps the process and the session. -/
theorem ArmedSince.snoc (h : w.ArmedSince after cell c)
    (hlast : (w.steps (after ++ [i])).Continues c) : w.ArmedSince (after ++ [i]) cell c := by
  obtain ⟨a, arm, b, rfl, harm, hsince⟩ := h
  refine ⟨a, arm, b ++ [i], by simp, harm, fun b' hb' => ?_⟩
  rcases List.prefix_concat_iff.mp hb' with rfl | hb'
  · simpa using hlast
  · exact hsince b' hb'

theorem ArmedSince.congr (h : w.ArmedSince after cell c) (hboot : c'.boot = c.boot)
    (hsession : c'.session = c.session) : w.ArmedSince after cell c' := by
  obtain ⟨a, arm, b, heq, harm, hsince⟩ := h
  exact ⟨a, arm, b, heq, harm, fun b' hb' => (hsince b' hb').congr hboot hsession⟩

/-- A cell that is not armed in a world, and is in a later one, was armed in between, in the
process and the session that have it armed now. -/
theorem armed_since (hw : w.Reachable) (hunarmed : ∀ p, w.process = some p → cell ∉ p.core.armed)
    (after : List Input) {p : Process} (hp : (w.steps after).process = some p)
    (hcell : cell ∈ p.core.armed) : p.core.caller ≠ none ∧ w.ArmedSince after cell p.core := by
  induction after using List.reverseRecOn generalizing p with
  | nil => exact absurd hcell (hunarmed p hp)
  | append_singleton after i ih =>
    have hstep : w.steps (after ++ [i]) = (w.steps after).step i := Durable.Runs.after_concat ..
    have hchange := step_change (i := i) (steps_reachable hw after).regular
    rw [← hstep] at hchange
    generalize hw' : w.steps (after ++ [i]) = w' at hchange hp
    cases hchange with
    | ignored =>
      obtain ⟨hbound, hsince⟩ := ih hp hcell
      exact ⟨hbound, hsince.snoc ⟨p, hw' ▸ hp, rfl, rfl⟩⟩
    | stopped | failed => cases hp
    | maintained idle => simp [idle] at hp
    | started idle step =>
      cases step
      cases hp
      simp at hcell
    | @called call answers q h next running steps kept =>
      have hcore : p.core = h.core := kept p hp
      have hlast : (w.steps (after ++ [Input.call call answers])).Continues p.core :=
        ⟨p, hw' ▸ hp, rfl, rfl⟩
      rw [hcore] at hcell
      rcases steps.armed_cases hcell with ⟨hold, hboot, hsession⟩ |
        ⟨caller, attempt, body, rfl, hbody, habsent, hpresent, hbound⟩
      · obtain ⟨hbound, hsince⟩ := ih running hold
        obtain ⟨heq, hbound'⟩ := hsession hbound
        rw [hcore] at hlast ⊢
        exact ⟨hbound', (hsince.congr hboot heq).snoc hlast⟩
      · rw [hcore] at hlast ⊢
        refine ⟨hbound, after, _, [], rfl, ?_, fun b' hb' => ?_⟩
        · refine ⟨caller, attempt, body, answers, rfl, hbody, habsent, ?_⟩
          rw [← hstep, hw']
          exact hpresent
        · rw [List.prefix_nil.mp hb']
          exact hlast

/-- The input commits a fence with a new request id. -/
def Fences (w : World) (i : Input) (body : GateBody) : Prop :=
  ∃ caller request answers, i = .call (.fence caller request body) answers ∧
    w.store.doc (.fenceRequest request) = none ∧
    (w.step i).store.doc (.fenceRequest request) ≠ none

/-- A new fence is stored with its epoch and its scope counters, and its cell is disarmed. -/
theorem Fences.committed {body : GateBody} (h : w.Fences i body) :
    (∃ s, (w.step i).store.doc (.cell body.cell) = some s ∧ s.epoch = body.epoch ∧
      body.scopes.Advances s.scopes) ∧
    ∀ p, (w.step i).process = some p → body.cell ∉ p.core.armed := by
  obtain ⟨caller, request, answers, rfl, habsent, hpresent⟩ := h
  rcases step_call (c := .fence caller request body) (w := w) (fun p => fence_runs) answers with
    hsame | ⟨p, h, -, hdisk, hcore, ⟨r, ⟨rfl, -⟩ | hstep⟩ | ⟨e, rfl⟩⟩
  · rw [hsame] at hpresent
    exact absurd habsent hpresent
  · -- a fence that is answered from its record was there before
    rw [hdisk] at hpresent
    exact absurd habsent hpresent
  · rw [hdisk]
    cases hstep with
    | @mk b state m =>
      refine ⟨⟨state.fenced body.epoch body.scopes body.blocks, ?_, rfl, ?_⟩, ?_⟩
      · rw [Repository.doc_write_of_ne (by simp), Store.doc_numbered_of_ne (by simp),
          Repository.doc_write_self]
      · intro k v hv
        refine ⟨v, ?_, le_rfl⟩
        exact (Finmap.lookup_union_left (Finmap.mem_of_lookup_eq_some hv)).trans hv
      · intro q hq
        rw [hcore q hq]
        exact Finset.notMem_erase _ _
  · rw [hdisk] at hpresent
    exact absurd habsent hpresent

/-- What a fence guarantees, in every continuation of a world. -/
structure FenceStops (w : World) : Prop where
  /-- An entry for a fenced cell comes after a new arm of it, in the process and the session
  of that arm. -/
  stopped : ∀ i body, w.Fences i body → ∀ after,
    ∀ e ∈ ((w.step i).steps after).entries.drop (w.step i).entries.length,
      e.request.permit.cell = body.cell →
      ∃ a j b, after = a ++ j :: b ∧
        e ∈ (((w.step i).steps a).step j).entries.drop ((w.step i).steps a).entries.length ∧
        (w.step i).ArmedSince a body.cell e.core
  /-- Every entry was made under exactly the stored fence of its cell, without blocks. -/
  matched : ∀ e ∈ w.entries, ∃ s, e.store.doc (.cell e.request.permit.cell) = some s ∧
    s.epoch = e.request.permit.epoch ∧ s.scopes = e.request.permit.scopes ∧ s.blocked = ∅
  /-- Stored epochs and scope counters never fall. -/
  monotone : ∀ cell s, w.store.doc (.cell cell) = some s → ∀ after, ∃ s',
    (w.steps after).store.doc (.cell cell) = some s' ∧ s.epoch ≤ s'.epoch ∧
      s.scopes.Advances s'.scopes
  /-- No permit below a fence is entered after it. -/
  outdated : ∀ i body, w.Fences i body → ∀ after,
    ∀ e ∈ ((w.step i).steps after).entries.drop (w.step i).entries.length,
      e.request.permit.cell = body.cell →
      body.epoch ≤ e.request.permit.epoch ∧ body.scopes.Advances e.request.permit.scopes

end World

/-- A fence really stops a cell: after it, native submission for the cell is entered only
once a new arm has committed in the same process and session, and never again under a
permit below the fence. -/
theorem fence_stops_cell [Ideal] (inputs : List Input) : (World.run inputs).FenceStops := by
  have hreach := World.run_reachable inputs
  -- the world after one more input, and what was checked for the entries made after that
  have hnext := World.step_reachable hreach
  have hchecked : ∀ i after, ∀ e ∈ (((World.run inputs).step i).steps after).entries.drop
      ((World.run inputs).step i).entries.length, e.Checked := fun i after e he =>
    (World.steps_reachable (hnext i) after).checked e (List.mem_of_mem_drop he)
  refine ⟨?_, fun e he => ?_, fun cell s hs after => ?_, ?_⟩
  · intro i body hfence after e he hcell
    obtain ⟨a, j, b, p, heq, hby, hp, hcore, -⟩ := World.entered_since (hnext i) he
    obtain ⟨h, caller, -, hmachine, hcurrent⟩ := (hchecked i after e he).current
    have harmed : body.cell ∈ p.core.armed := by
      rw [← hcell, ← hcore, ← hmachine]
      exact hcurrent.armed
    have hsince := (World.armed_since (hnext i) hfence.committed.2 a hp harmed).2
    exact ⟨a, j, b, heq, hby, hcore ▸ hsince⟩
  · obtain ⟨h, caller, hstore, -, hcurrent⟩ := (hreach.checked e he).current
    rw [← hstore]
    exact hcurrent.fence
  · obtain ⟨s', hs', hadvance⟩ :=
      (World.steps_moves hreach.regular after).cell_advances hs
    exact ⟨s', hs', hadvance.epoch, hadvance.scopes⟩
  · intro i body hfence after e he hcell
    obtain ⟨-, -, -, -, -, -, -, -, d, hmoves, -, hstore⟩ := World.entered_since (hnext i) he
    obtain ⟨h, caller, hsame, -, hcurrent⟩ := (hchecked i after e he).current
    obtain ⟨⟨s, hs, hepoch, hscopes⟩, -⟩ := hfence.committed
    -- the fence as it was stored, and as the entry found it
    obtain ⟨s', hs', hadvance⟩ := hmoves.cell_advances hs
    obtain ⟨found, hfound, hpermit, hcounters, -⟩ := hcurrent.fence
    rw [hstore, ← hsame, ← hcell] at hs'
    obtain rfl := Option.some.inj (hs'.symm.trans hfound)
    rw [← hpermit, ← hcounters, ← hepoch]
    exact ⟨hadvance.epoch, hscopes.trans hadvance.scopes⟩

end RxSolutions.Host
