import RxSolutions.Executor.Stops

/-!
# Stop records

What the journal accepts as a stop record and as its successor, what a round of the worker can make
of its record, and how a process, the journal and the trace bear each other out along the way.
-/

namespace RxSolutions.Executor.Stop

open Domain Durable
open Supervisor (StoreError FreshIds)

/-! ## What the checks say -/

section Checks

variable {scope : Scope} {r : StopRecord}

/-- A view that may be recorded. -/
@[mk_iff]
structure Viewed (scope : Scope) (v : RunResponse) : Prop where
  run : v.run = scope.run
  recipe : v.recipe = scope.resolvedDigest
  revision : v.revision ≠ 0
  checkpointRun : v.checkpoint.run = v.run
  checkpointRevision : v.checkpoint.revision = v.revision

variable {u : Unit}

theorem validateView_eq_ok {v : RunResponse} :
    validateView scope v = .ok u ↔ Viewed scope v := by
  refine Checks.last_eq_ok.trans ?_
  simp only [viewed_iff, ne_eq, not_or, not_not, and_true]

/-- An attempt that may be recorded. -/
@[mk_iff]
structure StopAttempt.Valid (scope : Scope) (a : StopAttempt) : Prop where
  expected : a.expectedRun ≠ 0
  answered : a.state = .replied ↔ a.response.isSome = true
  response : ∀ v, a.response = some v →
    Viewed scope v ∧ restricted v.state = true ∧ a.expectedRun ≤ v.revision

theorem validateResponse_eq_ok {a : StopAttempt} :
    validateResponse scope a = .ok u ↔ ∀ v, a.response = some v →
      Viewed scope v ∧ restricted v.state = true ∧ a.expectedRun ≤ v.revision := by
  unfold validateResponse
  cases a.response with
  | none => simp
  | some v =>
    simp only [Checks.bind_eq_ok, Checks.guard_eq_ok, Checks.pure_eq_ok, validateView_eq_ok,
      Option.some.injEq, forall_eq', exists_const, not_or, Bool.not_eq_false, not_lt, and_true]

theorem validateAttempts_eq_ok {attempts : List StopAttempt} {keys : List Id} :
    validateAttempts scope attempts keys = .ok u ↔
      (∀ a ∈ attempts, a.Valid scope) ∧ (attempts.map (·.key)).Nodup ∧
        ∀ a ∈ attempts, a.key ∉ keys := by
  induction attempts generalizing keys with
  | nil => simp [validateAttempts]
  | cons a attempts ih =>
    have hfresh : (∀ b ∈ attempts, b.key ≠ a.key) ↔ a.key ∉ attempts.map (·.key) := by
      simp [eq_comm]
    simp only [validateAttempts, Checks.guard_eq_ok, Checks.bind_eq_ok, validateResponse_eq_ok, ih,
      exists_const, List.map_cons, List.nodup_cons, List.mem_cons, forall_eq_or_imp, not_or,
      not_not, StopAttempt.valid_iff, forall_and, ← hfresh]
    tauto

/-- The run and the context of a record are those of the journal. -/
def Scoped (scope : Scope) (r : StopRecord) : Prop :=
  r.run = scope.run ∧ r.originContext.any (fun c => decide (c.run ≠ scope.run ∨
    c.resolvedDigest ≠ scope.resolvedDigest ∨ c.executorSession ≠ r.originSession ∨
    c.epoch = 0)) = false

/-- What `validate` accepts. -/
@[mk_iff]
structure Valid (scope : Scope) (r : StopRecord) : Prop where
  inScope : Scoped scope r
  length : r.attempts.length ≤ 64
  attempts : ∀ a ∈ r.attempts, a.Valid scope
  keys : (r.attempts.map (·.key)).Nodup
  observation : ∀ v, r.observation = some v → Viewed scope v
  phase : validatePhase r = .ok ()

theorem validateObservation_eq_ok {o : Option RunResponse} :
    validateObservation scope o = .ok u ↔ ∀ v, o = some v → Viewed scope v := by
  cases o with
  | none => simp [validateObservation]
  | some v => simp [validateObservation, validateView_eq_ok]

theorem validate_eq_ok : validate scope r = .ok u ↔ Valid scope r := by
  simp only [validate, Checks.guard_eq_ok, Checks.bind_eq_ok, validateAttempts_eq_ok,
    validateObservation_eq_ok, exists_const, not_or, not_not, not_lt, Bool.not_eq_true,
    List.not_mem_nil, not_false_eq_true, implies_true, and_true, valid_iff, Scoped]
  tauto

end Checks

/-! ## What the worker makes of its record -/

/-- What a view says about the phase. -/
def Concludes (r : StopRecord) (v : RunResponse) : StopPhase → Prop
  | .pauseObserved => restricted v.state = true
  | .superseded => v.executorSession.any (fun s => decide (s ≠ r.originSession)) = true
  | .attention => True
  | .pending => False

/-- An attempt after its last one is changed. -/
def StopRecord.replace (r : StopRecord) (attempts : List StopAttempt) (a : StopAttempt) :
    StopRecord :=
  { r with attempts := attempts ++ [a] }

@[simp] theorem StopRecord.attempts_replace (r : StopRecord) (attempts : List StopAttempt)
    (a : StopAttempt) : (r.replace attempts a).attempts = attempts ++ [a] := rfl

/-- What a round of the worker makes of its record. -/
inductive Advance (scope : Scope) (r : StopRecord) : StopRecord → Prop
  | observed {v : RunResponse} {phase : StopPhase} (hv : Viewed scope v)
    (hphase : Concludes r v phase) :
    Advance scope r { r with phase := phase, observation := some v }
  | attention : Advance scope r { r with phase := .attention }
  | prepared {a : StopAttempt} (hopen : r.open_ = true) (hlength : r.attempts.length < 64)
    (hkey : a.key ∉ r.attempts.map (·.key)) (hexpected : a.expectedRun ≠ 0)
    (hstate : a.state = .prepared) (hresponse : a.response = none) :
    Advance scope r (r.replace r.attempts a)
  | stepped {attempts : List StopAttempt} {a : StopAttempt} {state : AttemptState}
    (hattempts : r.attempts = attempts ++ [a]) (hstep : a.state.next state = true)
    (hstate : state ≠ .replied) :
    Advance scope r (r.replace attempts { a with state := state })
  | replied {attempts : List StopAttempt} {a : StopAttempt} {v : RunResponse}
    (hattempts : r.attempts = attempts ++ [a]) (hstep : a.state = .entered)
    (hv : Viewed scope v) (hrestricted : restricted v.state = true)
    (hrevision : a.expectedRun ≤ v.revision) :
    Advance scope r (r.replace attempts { a with state := .replied, response := some v })

section Advance

variable {scope : Scope} {r next : StopRecord}

/-- Both lists agree up to their last attempts. -/
theorem validateSteps_append {attempts old new : List StopAttempt}
    (h : validateSteps (old.zip new) = .ok ()) :
    validateSteps ((attempts ++ old).zip (attempts ++ new)) = .ok () := by
  induction attempts with
  | nil => exact h
  | cons a attempts ih =>
    rw [List.cons_append, List.cons_append, List.zip_cons_cons, validateSteps,
      if_neg (by simp), if_neg (by simp)]
    exact ih

/-- No attempt is new. -/
theorem permitted_of_length (hpending : r.phase = .pending) (hidentity : r.identity = next.identity)
    (hlength : next.attempts.length = r.attempts.length)
    (hsteps : validateSteps (r.attempts.zip next.attempts) = .ok ()) :
    validateTransition r next = .ok () := by
  simp only [validateTransition, Checks.guard_eq_ok, Checks.bind_eq_ok, exists_const, hsteps,
    hlength]
  refine ⟨by simp [hidentity], fun h => h.1 hpending, trivial, ?_, rfl⟩
  exact fun h => absurd h.1 (lt_irrefl _)

/-- The last attempt takes a step. -/
theorem permitted_step {attempts : List StopAttempt} {a b : StopAttempt}
    (hpending : r.phase = .pending) (hattempts : r.attempts = attempts ++ [a])
    (hbody : a.key = b.key ∧ a.session = b.session ∧ a.expectedRun = b.expectedRun)
    (hstep : a.state.next b.state = true) :
    validateTransition r (r.replace attempts b) = .ok () := by
  refine permitted_of_length hpending (by rfl) (by simp [hattempts]) ?_
  rw [hattempts]
  apply validateSteps_append
  obtain ⟨hkey, hsession, hexpected⟩ := hbody
  simp [validateSteps, hkey, hsession, hexpected, hstep]

/-- The transition check permits an advance of a pending record. -/
theorem Advance.permitted (h : Advance scope r next) (hpending : r.phase = .pending) :
    validateTransition r next = .ok () := by
  have hsame : ∀ new, validateSteps (r.attempts.zip (r.attempts ++ new)) = .ok () := by
    intro new
    have happend : validateSteps ((r.attempts ++ []).zip (r.attempts ++ new)) = .ok () :=
      validateSteps_append rfl
    rwa [List.append_nil] at happend
  cases h with
  | observed | attention =>
    refine permitted_of_length hpending (by rfl) rfl ?_
    simpa using hsame []
  | @prepared a hopen hlength hkey hexpected hstate hresponse =>
    simp only [validateTransition, Checks.guard_eq_ok, Checks.bind_eq_ok]
    refine ⟨by simp [StopRecord.identity, StopRecord.replace], fun h => h.1 hpending, (), hsame [a],
      ?_, rfl⟩
    rintro ⟨_, hbad⟩
    rw [StopRecord.open_, Option.all_eq_true] at hopen
    simp only [StopRecord.attempts_replace, List.length_append, List.length_singleton, ne_eq,
      not_true_eq_false, false_or, List.getLast?_append, List.getLast?_singleton, Option.some_or,
      Option.all_some, hstate, decide_false, Bool.false_eq_true, or_false] at hbad
    obtain ⟨b, hb, hne⟩ := (Option.any_eq_true _ _).mp hbad
    have hrejected := hopen b hb
    simp_all
  | stepped hattempts hstep hstate =>
    exact permitted_step hpending hattempts ⟨rfl, rfl, rfl⟩ hstep
  | replied hattempts hstep hv hrestricted hrevision =>
    exact permitted_step hpending hattempts ⟨rfl, rfl, rfl⟩ (by rw [hstep]; rfl)

/-- The last attempt is replaced by another one with its key. -/
theorem Valid.replace {attempts : List StopAttempt} {a b : StopAttempt} (hr : Valid scope r)
    (hattempts : r.attempts = attempts ++ [a]) (hkey : b.key = a.key) (hb : b.Valid scope) :
    Valid scope (r.replace attempts b) := by
  obtain ⟨hscope, hlength, hvalid, hkeys, hobservation, hphase⟩ := hr
  rw [hattempts] at hlength hvalid hkeys
  refine ⟨hscope, by simpa using hlength, ?_, by simpa [hkey] using hkeys, hobservation, hphase⟩
  rw [List.forall_mem_append] at hvalid
  exact List.forall_mem_append.mpr ⟨hvalid.1, List.forall_mem_singleton.mpr hb⟩

theorem Advance.valid (h : Advance scope r next) (hr : Valid scope r) : Valid scope next := by
  have hphase := hr.phase
  cases h with
  | @observed v phase hv hconclude =>
    refine ⟨hr.inScope, hr.length, hr.attempts, hr.keys, ?_, ?_⟩
    · intro w hw
      cases hw
      exact hv
    · cases phase with
      | pending => exact hconclude.elim
      | pauseObserved => simp_all [validatePhase, Concludes]
      | superseded =>
        obtain ⟨s, hs, hne⟩ := (Option.any_eq_true _ _).mp hconclude
        simp only [decide_eq_true_eq] at hne
        simp [validatePhase, hs, hne]
      | attention => rfl
  | attention => exact ⟨hr.inScope, hr.length, hr.attempts, hr.keys, hr.observation, rfl⟩
  | @prepared a hopen hlength hkey hexpected hstate hresponse =>
    have ha : a.Valid scope := ⟨hexpected, by simp [hstate, hresponse], by simp [hresponse]⟩
    refine ⟨hr.inScope, by simpa using Nat.succ_le_of_lt hlength, ?_, ?_, hr.observation, hphase⟩
    · exact List.forall_mem_append.mpr ⟨hr.attempts, List.forall_mem_singleton.mpr ha⟩
    · rw [StopRecord.replace, List.map_append, List.map_singleton, ← List.concat_eq_append]
      exact List.Nodup.concat hkey hr.keys
  | @stepped attempts a state hattempts hstep hstate =>
    have ha := hr.attempts a (by rw [hattempts]; exact List.mem_concat_self)
    -- an attempt that still can step has no answer yet
    have hnone : a.response.isSome = false := by
      have hne : a.state ≠ .replied := by
        intro heq
        rw [heq] at hstep
        cases hstep
      rw [ne_eq, ha.answered, Bool.not_eq_true] at hne
      exact hne
    refine hr.replace hattempts rfl ⟨ha.expected, ?_, ha.response⟩
    rw [hnone]
    simp [hstate]
  | @replied attempts a v hattempts hstep hv hrestricted hrevision =>
    have ha := hr.attempts a (by rw [hattempts]; exact List.mem_concat_self)
    refine hr.replace hattempts rfl ⟨ha.expected, by simp, ?_⟩
    intro w hw
    cases hw
    exact ⟨hv, hrestricted, hrevision⟩

theorem Advance.identity_eq (h : Advance scope r next) :
    next.identity = r.identity := by
  cases h <;> rfl

theorem Advance.run_eq (h : Advance scope r next) : next.run = r.run :=
  congrArg (fun i => i.2.1) h.identity_eq

theorem Advance.originSession_eq (h : Advance scope r next) :
    next.originSession = r.originSession :=
  congrArg (fun i => i.2.2.1) h.identity_eq

/-- What the worker makes of a stored record is saved. -/
theorem Advance.saved_eq (h : Advance scope r next) (hvalid : Valid scope r)
    (hpending : r.phase = .pending) (revision : Counter) :
    ∃ row, saved scope (some ⟨revision, r⟩) revision next = .ok row ∧ row.document = next := by
  refine ⟨if r = next then ⟨revision, r⟩ else ⟨revision + 1, next⟩, ?_, ?_⟩
  · simp only [saved, Checks.bind_eq_ok, Checks.guard_eq_ok, Checks.pure_eq_ok, validate_eq_ok,
      exists_const]
    exact ⟨h.valid hvalid, by simp, (), h.permitted hpending, trivial⟩
  · split_ifs with heq
    · exact heq
    · rfl

end Advance

/-! ## Processes and their journal -/

/-- What an event has to respect, after the events before it. -/
def Ordered (scope : Scope) (before : List Event) : Event → Prop
  | .handed expected stored next =>
    validate scope next = .ok () ∧
    (∃ row, stored = some row ∧ validateTransition row.document next = .ok ()) ∧
    ∃ row, saved scope stored expected next = .ok row
  | .paused id key => ∀ key', .paused id key' ∈ before → key' ≠ key → .rejected id key' ∈ before
  | .rejected _ _ => True

/-- The keys under which a stop was attempted. -/
def pausedKeys (id : Id) (trace : List Event) : List Id :=
  trace.filterMap fun
    | .paused i key => if i = id then some key else none
    | _ => none

theorem mem_pausedKeys {id key : Id} {trace : List Event} :
    key ∈ pausedKeys id trace ↔ .paused id key ∈ trace := by
  rw [pausedKeys, List.mem_filterMap]
  constructor
  · rintro ⟨e, he, hkey⟩
    cases e <;> simp_all
  · intro h
    exact ⟨_, h, by simp⟩

theorem mem_log {m : Machine} {e e' : Event} : e ∈ (m.log e').trace ↔ e ∈ m.trace ∨ e = e' := by
  rw [Machine.log, List.mem_append, List.mem_singleton]

/-- What is stored is replaced by what may follow it. -/
def Forward (m m' : Machine) : Prop :=
  ∀ row, m.stored = some row → ∃ row', m'.stored = some row' ∧
    row'.document.identity = row.document.identity ∧ (row.document.phase ≠ .pending → row' = row)

theorem Forward.of_stored {m m' : Machine} (h : m'.stored = m.stored) : Forward m m' := by
  intro row hrow
  exact ⟨row, h.trans hrow, rfl, fun _ => rfl⟩

theorem Forward.refl (m : Machine) : Forward m m := .of_stored rfl

theorem Forward.trans {m m' m'' : Machine} (h : Forward m m') (h' : Forward m' m'') :
    Forward m m'' := by
  intro row hrow
  obtain ⟨row', hrow', hidentity, hfinal⟩ := h row hrow
  obtain ⟨row'', hrow'', hidentity', hfinal'⟩ := h' row' hrow'
  refine ⟨row'', hrow'', hidentity'.trans hidentity, ?_⟩
  intro hphase
  have heq := hfinal hphase
  subst heq
  exact hfinal' hphase

section Attempted

variable [FreshIds] {scope : Scope} {m : Machine}

/-- How the attempts of a record bear out the trace. -/
structure Attempted (m : Machine) (r : StopRecord) : Prop where
  issued : ∃ k < m.drawn, r.id = FreshIds.freshId k
  length : r.attempts.length ≤ 64
  keys : (r.attempts.map (·.key)).Nodup
  drawn : ∀ a ∈ r.attempts, ∃ k < m.drawn, a.key = FreshIds.freshId k
  settled : ∀ a ∈ r.attempts.dropLast, a.state = .rejected
  rejected : ∀ a ∈ r.attempts, a.state = .rejected → .rejected r.id a.key ∈ m.trace
  paused : ∀ key, .paused r.id key ∈ m.trace → key ∈ r.attempts.map (·.key)

variable {r : StopRecord}

theorem Attempted.congr (h : Attempted m r) {m' : Machine} (hdrawn : m.drawn ≤ m'.drawn)
    (htrace : m'.trace = m.trace) : Attempted m' r := by
  have hmore : ∀ {i : Id}, (∃ k < m.drawn, i = FreshIds.freshId k) →
      ∃ k < m'.drawn, i = FreshIds.freshId k :=
    fun ⟨k, hk, heq⟩ => ⟨k, hk.trans_le hdrawn, heq⟩
  exact ⟨hmore h.issued, h.length, h.keys, fun a ha => hmore (h.drawn a ha), h.settled,
    htrace ▸ h.rejected, htrace ▸ h.paused⟩

theorem Attempted.log (h : Attempted m r) {e : Event}
    (he : ∀ key, e = .paused r.id key → key ∈ r.attempts.map (·.key)) :
    Attempted (m.log e) r := by
  refine ⟨h.issued, h.length, h.keys, h.drawn, h.settled, ?_, ?_⟩
  · exact fun a ha hstate => mem_log.mpr (Or.inl (h.rejected a ha hstate))
  · exact fun key hkey => (mem_log.mp hkey).elim (h.paused key) fun heq => he key heq.symm

/-- A conclusion leaves the attempts as they are. -/
theorem Attempted.conclude (h : Attempted m r) (phase : StopPhase)
    (observation : Option RunResponse) :
    Attempted m { r with phase := phase, observation := observation } :=
  ⟨h.issued, h.length, h.keys, h.drawn, h.settled, h.rejected, h.paused⟩

/-- The last attempt is replaced by one with its key. -/
theorem Attempted.replace (h : Attempted m r) {attempts : List StopAttempt} {a b : StopAttempt}
    (hattempts : r.attempts = attempts ++ [a]) (hkey : b.key = a.key)
    (hb : b.state = .rejected → .rejected r.id b.key ∈ m.trace) :
    Attempted m (r.replace attempts b) := by
  obtain ⟨hissued, hlength, hkeys, hdrawn, hsettled, hrejected, hpaused⟩ := h
  rw [hattempts] at hlength hkeys hdrawn hsettled hrejected hpaused
  rw [List.dropLast_concat] at hsettled
  rw [List.forall_mem_append, List.forall_mem_singleton] at hdrawn hrejected
  refine ⟨hissued, by simpa using hlength, by simpa [hkey] using hkeys, ?_, ?_, ?_, ?_⟩
  · exact List.forall_mem_append.mpr ⟨hdrawn.1, by simpa [hkey] using hdrawn.2⟩
  · rwa [StopRecord.replace, List.dropLast_concat]
  · exact List.forall_mem_append.mpr ⟨hrejected.1, List.forall_mem_singleton.mpr hb⟩
  · simpa [StopRecord.replace, hkey] using hpaused

/-- A new attempt, after all others were rejected. -/
theorem Attempted.prepare (h : Attempted m r) {a : StopAttempt} (hopen : r.open_ = true)
    (hlength : r.attempts.length < 64) (hkey : a.key ∉ r.attempts.map (·.key))
    (hdrawn : ∃ k < m.drawn, a.key = FreshIds.freshId k) (hstate : a.state ≠ .rejected) :
    Attempted m (r.replace r.attempts a) := by
  refine ⟨h.issued, by simpa using Nat.succ_le_of_lt hlength, ?_, ?_, ?_, ?_, ?_⟩
  · rw [StopRecord.replace, List.map_append, List.map_singleton, ← List.concat_eq_append]
    exact List.Nodup.concat hkey h.keys
  · exact List.forall_mem_append.mpr ⟨h.drawn, List.forall_mem_singleton.mpr hdrawn⟩
  · rw [StopRecord.replace, List.dropLast_concat]
    rw [StopRecord.open_, Option.all_eq_true] at hopen
    rcases List.eq_nil_or_concat r.attempts with hnil | ⟨attempts, b, hattempts⟩
    · simp [hnil]
    · -- the attempts before the last were rejected, and so was the last
      have hsettled := h.settled
      rw [hattempts, List.concat_eq_append] at hopen hsettled ⊢
      rw [List.dropLast_concat] at hsettled
      have hb := hopen b List.getLast?_concat
      exact List.forall_mem_append.mpr ⟨hsettled, by simpa using hb⟩
  · exact List.forall_mem_append.mpr ⟨h.rejected,
      List.forall_mem_singleton.mpr fun hrejected => absurd hrejected hstate⟩
  · intro key hpaused
    rw [StopRecord.replace, List.map_append]
    exact List.mem_append_left _ (h.paused key hpaused)

end Attempted

section Kept

variable [FreshIds] [Sessions]

/-- How a process, the journal and the trace bear each other out. -/
structure Kept (scope : Scope) (m : Machine) : Prop where
  trace : History.Every (Ordered scope) m.trace
  bounded : ∀ id, (pausedKeys id m.trace).toFinset.card ≤ 64
  issued : ∀ id key, .paused id key ∈ m.trace → ∃ k < m.drawn, id = FreshIds.freshId k
  stored : ∀ row, m.stored = some row → Valid scope row.document
  origin : ∀ row, m.stored = some row →
    ∃ n ≤ m.starts, row.document.originSession = Sessions.sessionOf n
  earlier : m.control = none → ∀ row, m.stored = some row →
    row.document.originSession ≠ m.session
  run : ∀ c, m.control = some c → c.record.run = scope.run
  synced : ∀ c r, m.control = some c → c.revision = some r → m.stored = some ⟨r, c.record⟩
  own : ∀ c, m.control = some c → c.record.originSession = m.session → Attempted m c.record

/-- No answer was taken without the record being concluded. -/
def Settled (m : Machine) : Prop :=
  ∀ c, m.control = some c → c.record.originSession = m.session → c.record.phase = .pending →
    ∀ a ∈ c.record.attempts, a.state ≠ .replied

variable {scope : Scope} {m : Machine}

theorem Kept.start : Kept scope .start := by
  constructor <;> simp [Machine.start, pausedKeys]

theorem Kept.restart (hm : Kept scope m) : Kept scope m.restart := by
  refine ⟨hm.trace, hm.bounded, hm.issued, hm.stored, ?_, ?_, by simp [Machine.restart],
    by simp [Machine.restart], by simp [Machine.restart]⟩
  · intro row hrow
    obtain ⟨n, hn, heq⟩ := hm.origin row hrow
    exact ⟨n, Nat.le_succ_of_le hn, heq⟩
  · -- the session of the new process is that of no process before it
    intro _ row hrow heq
    obtain ⟨n, hn, horigin⟩ := hm.origin row hrow
    have hsame : n = m.starts + 1 := Sessions.sessionOf.injective (horigin.symm.trans heq)
    omega

theorem Kept.draw (hm : Kept scope m) : Kept scope { m with drawn := m.drawn + 1 } := by
  refine ⟨hm.trace, hm.bounded, ?_, hm.stored, hm.origin, hm.earlier, hm.run, hm.synced, ?_⟩
  · intro id key h
    obtain ⟨k, hk, heq⟩ := hm.issued id key h
    exact ⟨k, Nat.lt_succ_of_lt hk, heq⟩
  · exact fun c hc hown => (hm.own c hc hown).congr (Nat.le_succ _) rfl

variable {c : StopController}

/-- The process holds this record, and this one is stored. -/
theorem Kept.hold (hm : Kept scope m) {stored : Option (Row StopRecord)}
    (hstored : ∀ row, stored = some row → Valid scope row.document ∧
      ∃ n ≤ m.starts, row.document.originSession = Sessions.sessionOf n)
    (hrun : c.record.run = scope.run)
    (hsynced : ∀ r, c.revision = some r → stored = some ⟨r, c.record⟩)
    (hown : c.record.originSession = m.session → Attempted m c.record) :
    Kept scope { m with stored := stored, control := some c } := by
  refine ⟨hm.trace, hm.bounded, hm.issued, fun row h => (hstored row h).1,
    fun row h => (hstored row h).2, by simp, ?_, ?_, ?_⟩
  · intro d hd
    cases hd
    exact hrun
  · intro d r hd hr
    cases hd
    exact hsynced r hr
  · intro d hd hsession
    cases hd
    exact (hown hsession).congr le_rfl rfl

theorem Kept.rows (hm : Kept scope m) (row : Row StopRecord) (h : m.stored = some row) :
    Valid scope row.document ∧ ∃ n ≤ m.starts, row.document.originSession = Sessions.sessionOf n :=
  ⟨hm.stored row h, hm.origin row h⟩

/-- The stored record of an earlier process is taken over. -/
theorem Kept.adopt (hm : Kept scope m) (hnone : m.control = none) {row : Row StopRecord}
    (hrow : m.stored = some row) :
    Kept scope { m with control := some ⟨row.document, some row.revision, none⟩ } := by
  refine hm.hold hm.rows (hm.stored row hrow).inScope.1 ?_ ?_
  · intro r hr
    cases hr
    exact hrow
  · exact fun hown => absurd hown (hm.earlier hnone row hrow)

/-- A new intent, under an identifier of its own. -/
structure Candidate (m : Machine) (candidate : StopRecord) : Prop where
  issued : ∃ k < m.drawn, candidate.id = FreshIds.freshId k
  unused : ∀ key, .paused candidate.id key ∉ m.trace
  session : candidate.originSession = m.session
  pending : candidate.phase = .pending
  attempts : candidate.attempts = []

theorem Candidate.attempted {candidate : StopRecord} (h : Candidate m candidate) :
    Attempted m candidate := by
  have hattempts := h.attempts
  have hunused := h.unused
  refine ⟨h.issued, ?_, ?_, ?_, ?_, ?_, ?_⟩ <;> simp [hattempts, hunused]

/-- What is logged: an attempt is one of the process itself. -/
theorem Kept.log (hm : Kept scope m) {e : Event} (he : Ordered scope m.trace e)
    (hpaused : ∀ id key, e = .paused id key → ∃ c, m.control = some c ∧
      c.record.originSession = m.session ∧ c.record.id = id ∧
      key ∈ c.record.attempts.map (·.key)) : Kept scope (m.log e) := by
  have hown : ∀ c, m.control = some c → c.record.originSession = m.session →
      Attempted (m.log e) c.record := by
    intro c hc hsession
    refine (hm.own c hc hsession).log fun key heq => ?_
    obtain ⟨d, hd, -, -, hkey⟩ := hpaused _ key heq
    cases hc.symm.trans hd
    exact hkey
  refine ⟨History.every_concat.mpr ⟨hm.trace, he⟩, fun id => ?_, fun id key hmem => ?_, hm.stored,
    hm.origin, hm.earlier, hm.run, hm.synced, hown⟩
  · by_cases hnew : ∃ key, e = .paused id key
    · obtain ⟨key, rfl⟩ := hnew
      obtain ⟨c, hc, hsession, rfl, -⟩ := hpaused _ key rfl
      have hattempted := hown c hc hsession
      calc (pausedKeys c.record.id (m.log (.paused c.record.id key)).trace).toFinset.card
          ≤ (c.record.attempts.map (·.key)).toFinset.card := by
            apply Finset.card_le_card
            intro key hkey
            rw [List.mem_toFinset, mem_pausedKeys] at hkey
            exact List.mem_toFinset.mpr (hattempted.paused key hkey)
        _ ≤ (c.record.attempts.map (·.key)).length := List.toFinset_card_le _
        _ ≤ 64 := by
            rw [List.length_map]
            exact hattempted.length
    · refine (Finset.card_le_card ?_).trans (hm.bounded id)
      intro key hkey
      rw [List.mem_toFinset, mem_pausedKeys] at hkey ⊢
      exact (mem_log.mp hkey).resolve_right fun heq => hnew ⟨key, heq.symm⟩
  · obtain hbefore | rfl := mem_log.mp hmem
    · exact hm.issued id key hbefore
    · obtain ⟨c, hc, hsession, rfl, -⟩ := hpaused id key rfl
      exact (hm.own c hc hsession).issued

/-- Handing the next record over respects the order of events. -/
theorem Kept.hand (hm : Kept scope m) (hc : m.control = some c) {r : Counter}
    (hr : c.revision = some r) {next : StopRecord} (h : Advance scope c.record next)
    (hpending : c.record.phase = .pending) : Kept scope (m.log (.handed r m.stored next)) := by
  have hstored := hm.synced c r hc hr
  have hvalid := hm.stored _ hstored
  refine hm.log ?_ (by simp)
  rw [hstored]
  obtain ⟨row, hrow, -⟩ := h.saved_eq hvalid hpending r
  exact ⟨validate_eq_ok.mpr (h.valid hvalid), ⟨_, rfl, h.permitted hpending⟩, row, hrow⟩

/-- An attempt: every key of the stop but the last was rejected. -/
theorem Kept.pause (hm : Kept scope m) (hc : m.control = some c)
    (hown : c.record.originSession = m.session) {attempts : List StopAttempt} {a : StopAttempt}
    (hattempts : c.record.attempts = attempts ++ [a]) :
    Kept scope (m.log (.paused c.record.id a.key)) := by
  have hattempted := hm.own c hc hown
  refine hm.log ?_ fun id key heq => ?_
  · intro key' hpaused hne
    obtain ⟨b, hb, hkey⟩ := List.mem_map.mp (hattempted.paused key' hpaused)
    rw [← hkey] at hne ⊢
    apply hattempted.rejected b hb
    apply hattempted.settled
    rw [hattempts, List.mem_append, List.mem_singleton] at hb
    rw [hattempts, List.dropLast_concat]
    exact hb.resolve_right fun heq => hne (congrArg (·.key) heq)
  · cases heq
    exact ⟨c, hc, hown, rfl, by simp [hattempts]⟩

end Kept

end RxSolutions.Executor.Stop
