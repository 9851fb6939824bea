import RxSolutions.Executor.StopRecords

/-!
# Stop records move forward

Every record that a worker hands to its journal passes the checks there and follows on the stored
one, whatever the platform answers and wherever a process dies. A terminal phase is final, a new
key is taken only once the attempt before it was rejected, and a stop has at most 64 of them.

A round is followed effect by effect. Between the reply to an attempt and the conclusion from it
the record is not one that a later round could start from; a process that dies there has a
successor with another session, which makes no attempt of its own.
-/

namespace RxSolutions.Executor.Stop

open Domain Durable Durable.Program
open Supervisor (StoreError FreshIds)

/-! ## Effects -/

section Primitives

variable {α : Type} {scope : Scope} {m : Machine} {ok : α → Machine → Prop}
  {err : Failure → Machine → Prop} {c : StopController}

theorem always_machine {ok : Machine → Machine → Prop} (h : ok m m) :
    Always Process.machine (machine : Worker scope _) ok err m := by
  rintro s rfl
  exact h

theorem always_change (f : Machine → Machine) {ok : Unit → Machine → Prop} (h : ok () (f m)) :
    Always Process.machine (change f : Worker scope _) ok err m := by
  rintro s rfl
  exact h

theorem always_answer {ok : Answer scope → Machine → Prop} (hcrash : err .crashed m)
    (h : ∀ a, ok a m) : Always Process.machine answer ok err m := by
  rintro s rfl
  unfold answer
  simp only [wp_bind, wp_get, wp_set, wp_ensure, wp_pure]
  exact ⟨fun _ => h _, fun _ => hcrash⟩

theorem always_control {ok : StopController → Machine → Prop} (hc : m.control = some c)
    (h : ok c m) : Always Process.machine (control : Worker scope _) ok err m := by
  refine Always.bind (always_machine ?_)
  rw [hc]
  exact Always.pure h

theorem always_replied {r : Except Error α} (herr : ∀ e, err (.refused e) m)
    (h : ∀ a, r = .ok a → ok a m) :
    Always Process.machine (replied r : Worker scope _) ok err m := by
  cases r with
  | ok a => exact Always.pure (h a rfl)
  | error e => exact Always.throw (herr e)

theorem always_saveStop {expected : Counter} {next : StopRecord} {row : Row StopRecord}
    {ok : Except StoreError Counter → Machine → Prop}
    (hsaved : saved scope m.stored expected next = .ok row)
    (hcrash : err .crashed (m.log (.handed expected m.stored next)))
    (hfails : ∀ e, ok (.error e) (m.log (.handed expected m.stored next)))
    (hlost : ∀ e, ok (.error e) { m.log (.handed expected m.stored next) with stored := some row })
    (hok : ok (.ok row.revision)
      { m.log (.handed expected m.stored next) with stored := some row }) :
    Always Process.machine (saveStop expected next : Worker scope _) ok err m := by
  refine Always.bind (always_change _ (Always.bind (always_answer hcrash fun a => ?_)))
  refine Always.bind (always_machine ?_)
  have hlogged : saved scope (m.log (.handed expected m.stored next)).stored expected next =
    .ok row := hsaved
  rw [hlogged]
  cases a.store with
  | commits => exact Always.bind (always_change _ (Always.pure hok))
  | fails e => exact Always.pure (hfails e)
  | lost e => exact Always.bind (always_change _ (Always.pure (hlost e)))

theorem always_ensureStop {candidate : StopRecord}
    {ok : Except StoreError (Row StopRecord) → Machine → Prop} (hcrash : err .crashed m)
    (hfails : ∀ e, ok (.error e) m)
    (hlost : ∀ e row, ensured scope m.stored candidate = .ok row →
      ok (.error e) { m with stored := some row })
    (hok : ∀ row, ensured scope m.stored candidate = .ok row →
      ok (.ok row) { m with stored := some row }) :
    Always Process.machine (ensureStop candidate : Worker scope _) ok err m := by
  refine Always.bind (always_answer hcrash fun a => Always.bind (always_machine ?_))
  cases hensured : ensured scope m.stored candidate with
  | error e =>
    cases a.store with
    | commits => exact Always.pure (hfails e)
    | fails e' => exact Always.pure (hfails e')
    | lost e' => exact Always.pure (hfails e)
  | ok row =>
    cases a.store with
    | commits => exact Always.bind (always_change _ (Always.pure (hok row hensured)))
    | fails e => exact Always.pure (hfails e)
    | lost e => exact Always.bind (always_change _ (Always.pure (hlost e row hensured)))

theorem runResponse_eq_ok {v w : RunResponse} (h : runResponse v = .ok w) :
    w = v ∧ v.checkpoint.run = v.run ∧ v.checkpoint.revision = v.revision := by
  unfold runResponse at h
  split at h
  · cases h
  · rename_i hsame
    simp only [ne_eq, not_or, not_not] at hsame
    cases h
    exact ⟨rfl, hsame⟩

/-- What a pause returns may be recorded with its attempt. -/
theorem always_pauseLifecycle {id key run : Id} {revision : Counter}
    {ok : Except Error RunResponse → Machine → Prop}
    (hrun : run = scope.run) (hcrash : err .crashed (m.log (.paused id key)))
    (herror : ∀ e, ok (.error e) (m.log (.paused id key)))
    (hok : ∀ v, Viewed scope v → restricted v.state = true → revision ≤ v.revision →
      ok (.ok v) (m.log (.paused id key))) :
    Always Process.machine (pauseLifecycle id key run revision : Worker scope _) ok err m := by
  refine Always.bind (always_change _ (Always.bind (always_answer hcrash fun a => ?_)))
  cases a.view with
  | error e => exact Always.pure (herror e)
  | ok reply =>
    dsimp only
    cases hresponse : runResponse reply.view with
    | error e => exact Always.pure (herror e)
    | ok v =>
      obtain ⟨heq, hcheckpoint, hsame⟩ := runResponse_eq_ok hresponse
      subst heq
      refine Always.ite (fun _ => Always.pure (herror _)) fun hpass => Always.pure ?_
      simp only [ne_eq, not_or, not_not, not_lt, Bool.not_eq_false] at hpass
      obtain ⟨hsame', hrevision, hrestricted⟩ := hpass
      exact hok _ ⟨hsame'.trans hrun, reply.recipe, reply.revision.ne', hcheckpoint, hsame⟩
        hrestricted hrevision

/-- What the worker reads of its run may be recorded. -/
theorem always_inspectRun {ok : RunResponse → Machine → Prop} (hcrash : err .crashed m)
    (herror : ∀ e, err (.refused e) m) (hok : ∀ v, Viewed scope v → ok v m) :
    Always Process.machine (inspectRun : Worker scope _) ok err m := by
  refine Always.bind (always_answer hcrash fun a => Always.bind (always_replied herror ?_))
  intro reply _
  refine Always.bind (always_replied herror ?_)
  intro v hv
  obtain ⟨heq, hcheckpoint, hsame⟩ := runResponse_eq_ok hv
  subst heq
  refine Always.bind (Always.ensure ?_ fun _ => herror _)
  intro hrun
  refine Always.bind (always_answer hcrash fun b => Always.bind (always_replied herror ?_))
  intro _ _
  refine Always.bind (Always.ensure ?_ fun _ => herror _)
  intro hrecipe
  exact Always.pure (hok _ ⟨hrun, hrecipe, reply.revision.ne', hcheckpoint, hsame⟩)

theorem always_contextChanged {record : StopRecord} {v : RunResponse}
    {ok : Bool → Machine → Prop} (hcrash : err .crashed m) (herror : ∀ e, err (.refused e) m)
    (hok : ∀ b, ok b m) :
    Always Process.machine (contextChanged record v : Worker scope _) ok err m := by
  unfold contextChanged
  cases record.originContext with
  | none => exact Always.pure (hok false)
  | some origin =>
    refine Always.ite (fun _ => ?_) fun _ => Always.pure (hok false)
    refine Always.bind (always_answer hcrash fun a => Always.bind (always_replied herror ?_))
    exact fun identity _ => Always.pure (hok _)

end Primitives

/-! ## Rounds -/

section Rounds

variable [FreshIds] [Sessions] {scope : Scope} {m : Machine}

/-- A process may go on, or die. -/
structure Good (scope : Scope) (m₀ m : Machine) : Prop where
  kept : Kept scope m
  forward : Forward m₀ m
  settled : Settled m

/-- A round has ended with an error; the process that has died leaves its journal. -/
def Ended (scope : Scope) (m₀ : Machine) : Failure → Machine → Prop
  | .crashed, m => Kept scope m.restart ∧ Forward m₀ m
  | .refused _, m => Good scope m₀ m

/-- The record of the process has been replaced, and handed to the journal. -/
structure Advanced (scope : Scope) (m₀ m : Machine) (next : StopRecord) (t : Machine) : Prop where
  kept : Kept scope t
  forward : Forward m₀ t
  control : ∃ c, t.control = some c ∧ c.record = next
  starts : t.starts = m.starts
  drawn : t.drawn = m.drawn

/-- What a round leaves behind, however it ends. -/
abbrev Ends {α : Type} (m₀ : Machine) (program : Worker scope α) (m : Machine) : Prop :=
  Always Process.machine program (fun _ t => Good scope m₀ t) (Ended scope m₀) m

/-- A round is at work on a record that is pending. -/
structure Round (scope : Scope) (m₀ m : Machine) (c : StopController) : Prop where
  kept : Kept scope m
  forward : Forward m₀ m
  control : m.control = some c
  pending : c.record.phase = .pending

variable {m₀ : Machine} {c : StopController}

omit [Sessions] in
theorem always_drawId {ok : Id → Machine → Prop}
    {err : Failure → Machine → Prop}
    (h : ok (FreshIds.freshId m.drawn) { m with drawn := m.drawn + 1 }) :
    Always Process.machine (drawId : Worker scope _) ok err m :=
  Always.bind (always_machine (Always.bind (always_change _ (Always.pure h))))

theorem Good.of_stored (h : Good scope m₀ m) {m₁ : Machine} (hstored : m₀.stored = m₁.stored) :
    Good scope m₁ m :=
  ⟨h.kept, (Forward.of_stored hstored).trans h.forward, h.settled⟩

/-- The journal is asked to save the next record. -/
theorem always_advance {f : StopRecord → StopRecord} (hround : Round scope m₀ m c)
    (h : Advance scope c.record (f c.record))
    (hown : c.record.originSession = m.session → Attempted m (f c.record)) :
    Always Process.machine (advance f : Worker scope _)
      (fun _ t => Advanced scope m₀ m (f c.record) t) (Ended scope m₀) m := by
  obtain ⟨hm, hf, hc, hpending⟩ := hround
  have hsession := h.originSession_eq
  have hrun : (f c.record).run = scope.run := h.run_eq.trans (hm.run c hc)
  rw [← hsession] at hown
  refine Always.bind (always_control hc (Always.bind (always_change _ ?_)))
  refine Always.bind (always_answer ⟨hm.restart, hf⟩ fun _ => ?_)
  refine Always.bind (always_control rfl ?_)
  cases hr : c.revision with
  | none => exact Always.pure ⟨hm.hold hm.rows hrun (by simp) hown, hf, ⟨_, rfl, rfl⟩, rfl, rfl⟩
  | some r =>
    have hhand := hm.hand hc hr h hpending
    have hstored := hm.synced c r hc hr
    have hvalid := hm.stored _ hstored
    have hattempted : (f c.record).originSession = m.session →
        Attempted (m.log (.handed r m.stored (f c.record))) (f c.record) :=
      fun hs => (hown hs).log (by simp)
    -- the journal accepts the record; only the transaction may fail
    obtain ⟨row, hrow, hdocument⟩ := h.saved_eq hvalid hpending r
    rw [← hstored] at hrow
    have hforward : ∀ t : Machine, t.stored = some row → Forward m₀ t := by
      intro t ht
      apply hf.trans
      intro row' hrow'
      rw [hstored, Option.some.injEq] at hrow'
      subst hrow'
      refine ⟨row, ht, ?_, fun hphase => absurd hpending hphase⟩
      rw [hdocument]
      exact h.identity_eq
    have hstore : ∀ (revision : Option Counter) (fault : Option String),
        (∀ r, revision = some r → r = row.revision) →
        Kept scope { m.log (.handed r m.stored (f c.record)) with
          stored := some row, control := some ⟨f c.record, revision, fault⟩ } := by
      intro revision fault hrevision
      refine hhand.hold ?_ hrun ?_ hattempted
      · rintro row' heq
        cases heq
        rw [hdocument, hsession]
        exact ⟨h.valid hvalid, hm.origin _ hstored⟩
      · intro r' hr'
        rw [hrevision r' hr', ← hdocument]
    refine Always.bind (always_saveStop hrow ⟨hhand.restart, hf⟩ ?_ ?_ ?_)
    · intro e
      exact always_change _ ⟨hhand.hold hhand.rows hrun (by simp) hattempted, hf, ⟨_, rfl, rfl⟩,
        rfl, rfl⟩
    · intro e
      exact always_change _ ⟨hstore none _ (by simp), hforward _ rfl, ⟨_, rfl, rfl⟩, rfl, rfl⟩
    · exact always_change _ ⟨hstore (some row.revision) _ (by simp), hforward _ rfl, ⟨_, rfl, rfl⟩,
        rfl, rfl⟩

theorem Advanced.good {next : StopRecord} {t : Machine} (h : Advanced scope m₀ m next t)
    (hnext : next.phase = .pending → ∀ a ∈ next.attempts, a.state ≠ .replied) :
    Good scope m₀ t := by
  refine ⟨h.kept, h.forward, ?_⟩
  intro d hd _ hphase
  obtain ⟨c, hc, hrecord⟩ := h.control
  cases hc.symm.trans hd
  rw [hrecord] at hphase ⊢
  exact hnext hphase

theorem always_finish {f : StopRecord → StopRecord} (hround : Round scope m₀ m c)
    (h : Advance scope c.record (f c.record))
    (hown : c.record.originSession = m.session → Attempted m (f c.record))
    (hnext : (f c.record).phase = .pending → ∀ a ∈ (f c.record).attempts, a.state ≠ .replied) :
    Ends m₀ (finish f : Worker scope _) m := by
  refine Always.seq (always_advance hround h hown) fun _ t ht => ?_
  obtain ⟨d, hd, -⟩ := ht.control
  exact Always.bind (always_control hd (Always.pure (ht.good hnext)))

variable {v : RunResponse}

theorem always_conclude {phase : StopPhase} (hround : Round scope m₀ m c) (hv : Viewed scope v)
    (hphase : Concludes c.record v phase) :
    Ends m₀ (finish ({ · with phase := phase, observation := some v }) : Worker scope _) m := by
  refine always_finish hround (.observed hv hphase)
    (fun hown => (hround.kept.own c hround.control hown).conclude _ _) ?_
  intro hstill
  have hnone : phase = .pending := hstill
  rw [hnone] at hphase
  exact hphase.elim

theorem always_attention (hround : Round scope m₀ m c) :
    Ends m₀ (advance ({ · with phase := .attention }) : Worker scope _) m := by
  refine (always_advance hround .attention
    fun hown => (hround.kept.own c hround.control hown).conclude _ _).mono ?_ fun _ _ he => he
  exact fun _ t ht => ht.good fun hphase => by cases hphase

theorem always_finish_attention (hround : Round scope m₀ m c) :
    Ends m₀ (finish ({ · with phase := .attention }) : Worker scope _) m :=
  always_finish hround .attention
    (fun hown => (hround.kept.own c hround.control hown).conclude _ _) fun hphase => by cases hphase

variable {attempts : List StopAttempt} {a : StopAttempt}

omit [FreshIds] [Sessions] in
theorem withLast_eq {r : StopRecord} (h : r.attempts = attempts ++ [a])
    (f : StopAttempt → StopAttempt) :
    r.withLast f = r.replace attempts (f a) := by
  rw [StopRecord.withLast, h, List.getLast?_concat, List.dropLast_concat]
  rfl

/-- A round is at work on the last attempt of its own record. -/
structure Attempt (scope : Scope) (m₀ m : Machine) (c : StopController)
    (attempts : List StopAttempt) (a : StopAttempt) : Prop extends Round scope m₀ m c where
  own : c.record.originSession = m.session
  attempts_eq : c.record.attempts = attempts ++ [a]

/-- A round that may attempt to pause: the last attempt of its own record is open. -/
def Ready (scope : Scope) (m₀ m : Machine) (state : AttemptState → Prop) : Prop :=
  ∃ c attempts a, Attempt scope m₀ m c attempts a ∧ state a.state

/-- The attempts before the last one are rejected. -/
theorem Attempt.unanswered (h : Attempt scope m₀ m c attempts a) :
    ∀ b ∈ attempts, b.state ≠ .replied := by
  intro b hb
  have hrejected : b.state = .rejected := by
    apply (h.kept.own c h.control h.own).settled
    rw [h.attempts_eq, List.dropLast_concat]
    exact hb
  rw [hrejected]
  intro heq
  cases heq

/-- The last attempt takes a step. -/
theorem Attempt.always_step {f : StopAttempt → StopAttempt} (h : Attempt scope m₀ m c attempts a)
    (hadvance : Advance scope c.record (c.record.replace attempts (f a))) (hkey : (f a).key = a.key)
    (hrejected : (f a).state = .rejected → .rejected c.record.id (f a).key ∈ m.trace) :
    Always Process.machine (advance (·.withLast f) : Worker scope _) (fun _ t =>
      Advanced scope m₀ m (c.record.replace attempts (f a)) t) (Ended scope m₀) m := by
  have hreplace := (h.kept.own c h.control h.own).replace h.attempts_eq hkey hrejected
  have hnext := withLast_eq h.attempts_eq f
  rw [← hnext] at hadvance hreplace ⊢
  exact always_advance h.toRound hadvance fun _ => hreplace

/-- A rejection is recorded. -/
theorem Attempt.always_reject (h : Attempt scope m₀ m c attempts a) (hentered : a.state = .entered)
    (hevent : .rejected c.record.id a.key ∈ m.trace) :
    Ends m₀ (finish (·.withLast ({ · with state := .rejected })) : Worker scope _) m := by
  refine Always.seq (h.always_step (.stepped h.attempts_eq (by rw [hentered]; rfl) (by simp)) rfl
    fun _ => hevent) fun _ t ht => ?_
  obtain ⟨d, hd, -⟩ := ht.control
  refine Always.bind (always_control hd (Always.pure (ht.good fun _ => ?_)))
  exact List.forall_mem_append.mpr ⟨h.unanswered, by simp⟩

/-- A reply is recorded, and then the conclusion from it. -/
theorem Attempt.always_reply (h : Attempt scope m₀ m c attempts a) (hentered : a.state = .entered)
    (hv : Viewed scope v) (hrestricted : restricted v.state = true)
    (hrevision : a.expectedRun ≤ v.revision) :
    Ends m₀ (do
      advance (·.withLast ({ · with state := .replied, response := some v }))
      finish ({ · with phase := .pauseObserved, observation := some v }) : Worker scope _) m := by
  refine Always.seq (h.always_step (.replied h.attempts_eq hentered hv hrestricted hrevision) rfl
    (by simp)) fun _ t ht => ?_
  obtain ⟨d, hd, hrecord⟩ := ht.control
  have hphase : d.record.phase = .pending := by
    rw [hrecord]
    exact h.pending
  exact always_conclude ⟨ht.kept, ht.forward, hd, hphase⟩ hv hrestricted

omit [FreshIds] [Sessions] in
theorem always_last {α : Type} {next : StopAttempt → Worker scope α} {ok : α → Machine → Prop}
    {err : Failure → Machine → Prop} (hattempts : c.record.attempts = attempts ++ [a])
    (h : Always Process.machine (next a) ok err m) :
    Always Process.machine (orThrow c.record.attempts.getLast? .crashed >>= next) ok err m := by
  rw [hattempts, List.getLast?_concat]
  exact h

theorem always_pauseRun (h : Ready scope m₀ m (· = .entered)) :
    Ends m₀ (pauseRun : Worker scope _) m := by
  obtain ⟨c, attempts, a, h, hentered⟩ := h
  have hpause : Attempt scope m₀ (m.log (.paused c.record.id a.key)) c attempts a :=
    ⟨⟨h.kept.pause h.control h.own h.attempts_eq, h.forward, h.control, h.pending⟩, h.own,
      h.attempts_eq⟩
  have hsettled : Settled (m.log (.paused c.record.id a.key)) := by
    intro d hd _ _
    cases h.control.symm.trans hd
    rw [h.attempts_eq, List.forall_mem_append, List.forall_mem_singleton, hentered]
    exact ⟨h.unanswered, by simp⟩
  refine Always.bind (always_control h.control (always_last h.attempts_eq ?_))
  refine Always.bind (always_pauseLifecycle (h.kept.run c h.control)
    ⟨hpause.kept.restart, h.forward⟩ ?_ ?_)
  · intro e
    have hthrow : Ends m₀ (do advance ({ · with phase := .attention }); throw (.refused e) :
        Worker scope StopPhase) (m.log (.paused c.record.id a.key)) :=
      Always.seq (always_attention hpause.toRound) fun _ _ ht => Always.throw ht
    cases e with
    | rpc code =>
      refine Always.ite ?_ fun _ => Always.ite ?_ fun _ => hthrow
      · intro _
        refine Always.bind (always_change _ ?_)
        have hreject : Attempt scope m₀ ((m.log (.paused c.record.id a.key)).log
            (.rejected c.record.id a.key)) c attempts a :=
          ⟨⟨hpause.kept.log trivial (by simp), h.forward, h.control, h.pending⟩, h.own,
            h.attempts_eq⟩
        exact hreject.always_reject hentered (mem_log.mpr (Or.inr rfl))
      · -- the same attempt is made again in the next round
        exact fun _ => Always.throw ⟨hpause.kept, h.forward, hsettled⟩
    | transport | invalid | store | expired => exact hthrow
  · exact fun v hv => hpause.always_reply hentered hv

/-- The last attempt is entered. -/
theorem Attempt.always_enterAttempt (h : Attempt scope m₀ m c attempts a)
    (hopen : a.state = .prepared ∨ a.state = .entered) :
    Always Process.machine (enterAttempt a : Worker scope _)
      (fun _ t => Ready scope m₀ t (· = .entered)) (Ended scope m₀) m := by
  refine Always.ite ?_ fun hne => Always.pure ⟨c, attempts, a, h, hopen.resolve_left hne⟩
  intro hprepared
  refine (h.always_step (.stepped h.attempts_eq (by rw [hprepared]; rfl) (by simp)) rfl
    (by simp)).mono ?_ fun _ _ he => he
  intro _ t ht
  obtain ⟨d, hd, hrecord⟩ := ht.control
  refine ⟨d, attempts, { a with state := .entered }, ⟨⟨ht.kept, ht.forward, hd, ?_⟩, ?_, ?_⟩, rfl⟩
  · rw [hrecord]
    exact h.pending
  · rw [hrecord, Machine.session, ht.starts]
    exact h.own
  · rw [hrecord]
    rfl

/-- There is an attempt that is still to be answered. -/
theorem always_prepareAttempt (hround : Round scope m₀ m c) (hs : Settled m)
    (hown : c.record.originSession = m.session)
    (hlength : c.record.open_ = true → c.record.attempts.length < 64) (hv : Viewed scope v) :
    Always Process.machine (prepareAttempt v : Worker scope _)
      (fun _ t => Ready scope m₀ t (fun s => s = .prepared ∨ s = .entered) ∧
        t.session = m.session) (Ended scope m₀) m := by
  obtain ⟨hm, hf, hc, hpending⟩ := hround
  refine Always.bind (always_control hc (Always.ite ?_ ?_))
  · intro hopen
    refine Always.bind (always_drawId (Always.bind (always_machine ?_)))
    -- the key was never generated before
    have hkey : FreshIds.freshId m.drawn ∉ c.record.attempts.map (·.key) := by
      intro hmem
      obtain ⟨b, hb, heq⟩ := List.mem_map.mp hmem
      obtain ⟨k, hk, hkey⟩ := (hm.own c hc hown).drawn b hb
      have hsame : k = m.drawn := FreshIds.freshId.injective (hkey.symm.trans heq)
      omega
    refine (always_advance ⟨hm.draw, hf, hc, hpending⟩
      (.prepared hopen (hlength hopen) hkey hv.revision rfl rfl) fun _ => (hm.draw.own c hc
        hown).prepare hopen (hlength hopen) hkey ⟨m.drawn, Nat.lt_succ_self _, rfl⟩
          (by simp)).mono ?_ fun _ _ he => he
    intro _ t ht
    obtain ⟨d, hd, hrecord⟩ := ht.control
    have hsession : t.session = m.session := congrArg Sessions.sessionOf ht.starts
    refine ⟨⟨d, c.record.attempts,
      ⟨FreshIds.freshId m.drawn, m.session, v.revision, .prepared, none⟩,
      ⟨⟨ht.kept, ht.forward, hd, ?_⟩, ?_, ?_⟩, Or.inl rfl⟩, hsession⟩
    · rw [hrecord]
      exact hpending
    · rw [hrecord, hsession]
      exact hown
    · rw [hrecord]
      rfl
  · intro hclosed
    refine Always.pure ⟨?_, rfl⟩
    rw [StopRecord.open_, Bool.not_eq_true, Option.all_eq_false] at hclosed
    obtain ⟨a, hlast, hne⟩ := hclosed
    obtain ⟨attempts, hattempts⟩ := List.getLast?_eq_some_iff.mp hlast
    refine ⟨c, attempts, a, ⟨⟨hm, hf, hc, hpending⟩, hown, hattempts⟩, ?_⟩
    have hunanswered := hs c hc hown hpending a (by rw [hattempts]; exact List.mem_concat_self)
    simp only [decide_eq_false_iff_not] at hne
    cases hstate : a.state with
    | prepared => exact Or.inl rfl
    | entered => exact Or.inr rfl
    | rejected => exact absurd hstate hne
    | replied => exact absurd hstate hunanswered

theorem always_attemptPause (hround : Round scope m₀ m c) (hs : Settled m) (hv : Viewed scope v) :
    Ends m₀ (attemptPause v : Worker scope _) m := by
  refine Always.bind (always_control hround.control (Always.bind (always_machine (Always.ite
    (fun _ => always_finish_attention hround) ?_))))
  intro hgo
  rw [not_or, not_not] at hgo
  obtain ⟨hown, hmore⟩ := hgo
  have hlength : c.record.open_ = true → c.record.attempts.length < 64 := by
    intro hopen
    rw [StopRecord.open_, Option.all_eq_true] at hopen
    by_contra hfull
    cases hlast : c.record.attempts.getLast? with
    | none =>
      rw [List.getLast?_eq_none_iff] at hlast
      rw [hlast] at hfull
      simp at hfull
    | some a =>
      apply hmore
      rw [hlast]
      exact ⟨Nat.le_of_not_lt hfull, hopen a hlast⟩
  refine Always.seq (always_prepareAttempt hround hs hown hlength hv) ?_
  rintro _ t ⟨⟨d, attempts, a, h, hopen⟩, hsession⟩
  refine Always.bind (always_control h.control (always_last h.attempts_eq ?_))
  refine Always.ite (fun _ => always_finish_attention h.toRound) fun _ => ?_
  exact Always.seq (h.always_enterAttempt hopen) fun _ _ hready => always_pauseRun hready

theorem always_stopOnce (hm : Kept scope m) (hs : Settled m) (hc : m.control = some c) :
    Ends m (stopOnce : Worker scope _) m := by
  have hgood : Good scope m m := ⟨hm, Forward.refl m, hs⟩
  have hcrash : Ended scope m .crashed m := ⟨hm.restart, Forward.refl m⟩
  refine Always.bind (always_control hc (Always.ite (fun _ => Always.pure hgood) ?_))
  intro hpending
  have hround : Round scope m m c := ⟨hm, Forward.refl m, hc, not_not.mp hpending⟩
  refine Always.bind (always_inspectRun hcrash (fun _ => hgood) fun v hv => ?_)
  refine Always.bind (always_control hc (Always.ite ?_ fun _ => Always.ite ?_ fun _ => ?_))
  · exact fun hrestricted => always_conclude hround hv hrestricted
  · exact fun hother => always_conclude hround hv hother
  · refine Always.bind (always_contextChanged hcrash (fun _ => hgood) fun b => Always.ite ?_ ?_)
    · exact fun _ => always_conclude hround hv trivial
    · exact fun _ => always_attemptPause hround hs hv

/-! ## Intents -/

theorem always_recoveredStop (hm : Kept scope m) (hnone : m.control = none) :
    Ends m (recoveredStop : Worker scope _) m := by
  have hgood : Good scope m m := ⟨hm, Forward.refl m, by simp [Settled, hnone]⟩
  have hadopt : ∀ row, m.stored = some row →
      Good scope m { m with control := some ⟨row.document, some row.revision, none⟩ } := by
    intro row hrow
    refine ⟨hm.adopt hnone hrow, Forward.refl m, ?_⟩
    intro c hc hown
    cases hc
    exact absurd hown (hm.earlier hnone row hrow)
  refine Always.bind (Always.bind (always_answer ⟨hm.restart, Forward.refl m⟩ fun a => ?_))
  refine Always.bind (always_machine ?_)
  cases a.store with
  | fails | lost => exact Always.pure (Always.pure hgood)
  | commits =>
    cases hstored : m.stored with
    | none => exact Always.pure (Always.pure hgood)
    | some row =>
      refine Always.pure ?_
      cases validate scope row.document with
      | error e => exact Always.pure hgood
      | ok u => exact Always.bind (always_change _ (Always.pure (hadopt row hstored)))

omit [FreshIds] [Sessions] in
/-- What `ensure_stop` leaves stored: the first intent. -/
theorem ensured_eq_ok {stored : Option (Row StopRecord)} {candidate : StopRecord}
    {row : Row StopRecord} (h : ensured scope stored candidate = .ok row) :
    Valid scope candidate ∧ (stored = some row ∨ stored = none ∧ row = ⟨1, candidate⟩) := by
  simp only [ensured, Checks.bind_eq_ok, Checks.guard_eq_ok, validate_eq_ok, exists_const] at h
  obtain ⟨hvalid, -, h⟩ := h
  refine ⟨hvalid, ?_⟩
  cases stored with
  | none =>
    cases h
    exact Or.inr ⟨rfl, rfl⟩
  | some first =>
    simp only [Checks.bind_eq_ok, Checks.pure_eq_ok] at h
    obtain ⟨_, _, heq⟩ := h
    exact Or.inl (congrArg some heq)

/-- A new intent, whatever becomes of it. -/
theorem Kept.request (hm : Kept scope m) (hnone : m.control = none) {candidate : StopRecord}
    (hc : Candidate m candidate) (hrun : candidate.run = scope.run) :
    (∀ fault, Good scope m { m with control := some ⟨candidate, none, fault⟩ }) ∧
    ∀ row, ensured scope m.stored candidate = .ok row →
      (∀ fault, Good scope m
        { m with stored := some row, control := some ⟨candidate, none, fault⟩ }) ∧
      Good scope m
        { m with stored := some row, control := some ⟨row.document, some row.revision, none⟩ } := by
  have hgood : ∀ {stored : Option (Row StopRecord)} {revision : Option Counter}
      (fault : Option String), (∀ row, stored = some row → Valid scope row.document ∧
        ∃ n ≤ m.starts, row.document.originSession = Sessions.sessionOf n) →
      (∀ r, revision = some r → stored = some ⟨r, candidate⟩) →
      (∀ row, m.stored = some row → stored = some row) →
      Good scope m { m with stored := stored, control := some ⟨candidate, revision, fault⟩ } := by
    intro stored revision fault hstored hsynced hsame
    refine ⟨hm.hold hstored hrun hsynced fun _ => hc.attempted, ?_, ?_⟩
    · exact fun row hrow => ⟨row, hsame row hrow, rfl, fun _ => rfl⟩
    · intro d hd _ _
      cases hd
      simp [hc.attempts]
  have hkept : ∀ fault, Good scope m { m with control := some ⟨candidate, none, fault⟩ } :=
    fun fault => hgood fault hm.rows (by simp) fun _ h => h
  refine ⟨hkept, fun row hensured => ?_⟩
  obtain ⟨hvalid, hstored | ⟨hempty, rfl⟩⟩ := ensured_eq_ok hensured
  · -- an earlier process was first
    rw [← hstored]
    refine ⟨hkept, hm.adopt hnone hstored, Forward.refl m, ?_⟩
    intro d hd hown
    cases hd
    exact absurd hown (hm.earlier hnone row hstored)
  · have hfirst : ∀ row : Row StopRecord, some ⟨1, candidate⟩ = some row →
      Valid scope row.document ∧
        ∃ n ≤ m.starts, row.document.originSession = Sessions.sessionOf n := by
      intro row hrow
      cases hrow
      exact ⟨hvalid, m.starts, le_rfl, hc.session⟩
    exact ⟨fun fault => hgood fault hfirst (by simp) (by simp [hempty]),
      hgood none hfirst (by simp) (by simp [hempty])⟩

theorem always_requestStop {context : Option Identity} {reason : StopReason}
    {time : Option TimePoint} (hm : Kept scope m) (hnone : m.control = none) :
    Ends m (requestStop context reason time : Worker scope _) m := by
  refine Always.bind (always_drawId (Always.bind (always_machine ?_)))
  have hcandidate : Candidate { m with drawn := m.drawn + 1 }
      ⟨FreshIds.freshId m.drawn, scope.run, m.session, context, reason, time, .pending, [],
        none⟩ := by
    refine ⟨⟨m.drawn, Nat.lt_succ_self _, rfl⟩, ?_, rfl, rfl, rfl⟩
    -- the identifier was never generated before
    intro key hpaused
    obtain ⟨k, hk, heq⟩ := hm.issued _ key hpaused
    have hsame : m.drawn = k := FreshIds.freshId.injective heq
    omega
  obtain ⟨hkept, hensured⟩ := hm.draw.request hnone hcandidate rfl
  refine Always.bind (always_ensureStop ⟨hm.draw.restart, Forward.refl m⟩ ?_ ?_ ?_)
  · exact fun e => always_change _ ((hkept _).of_stored rfl)
  · exact fun e row h => always_change _ (((hensured row h).1 _).of_stored rfl)
  · exact fun row h => always_change _ ((hensured row h).2.of_stored rfl)

/-! ## Runs -/

omit [FreshIds] in
theorem Settled.restart (m : Machine) : Settled m.restart := by
  intro c hc
  cases hc

theorem Machine.perform_good {α : Type} {program : Worker scope α} {answers : ℕ → Answer scope}
    (h : Ends m program m) : Good scope m (m.perform answers program) := by
  unfold Machine.perform
  cases hrun : program ⟨m, answers, 0⟩ with
  | mk result s =>
    cases result with
    | ok a =>
      have hgood := Always.returns h hrun
      exact hgood
    | error e =>
      have hended := Always.stops h hrun
      cases e with
      | refused error => exact hended
      | crashed => exact ⟨hended.1, hended.2.trans (Forward.of_stored rfl), Settled.restart _⟩

theorem Machine.step_good (hm : Kept scope m) (hs : Settled m) (input : Input scope) :
    Good scope m (m.step input) := by
  have hgood : Good scope m m := ⟨hm, Forward.refl m, hs⟩
  unfold Machine.step
  cases input.action with
  | restart => exact ⟨hm.restart, Forward.of_stored rfl, Settled.restart m⟩
  | recover =>
    cases hc : m.control with
    | none => exact Machine.perform_good (always_recoveredStop hm hc)
    | some c => exact hgood
  | request context reason time =>
    cases hc : m.control with
    | none => exact Machine.perform_good (always_requestStop hm hc)
    | some c => exact hgood
  | stopOnce =>
    cases hc : m.control with
    | none => exact hgood
    | some c => exact Machine.perform_good (always_stopOnce hm hs hc)

theorem after_kept (inputs : List (Input scope)) :
    Kept scope (after inputs) ∧ Settled (after inputs) := by
  refine Runs.invariant (P := fun m => Kept scope m ∧ Settled m) (fun m input hm => ?_)
    ⟨Kept.start, by simp [Settled, Machine.start]⟩ inputs
  have hstep := Machine.step_good hm.1 hm.2 input
  exact ⟨hstep.kept, hstep.settled⟩

/-- Whatever is asked of a service, whatever the platform answers and wherever its processes die:
each record handed to the journal passes its checks and is saved unless the transaction fails, each
key of a stop is taken only when the keys before it were rejected, and there are at most 64 of
them. A process that still writes holds what is stored. What is stored stays the first intent, and
stays as it is once its phase is terminal. -/
theorem stop_records_forward (inputs more : List (Input scope)) :
    History.Every (Ordered scope) (after inputs).trace ∧
    (∀ id, (pausedKeys id (after inputs).trace).toFinset.card ≤ 64) ∧
    (∀ c revision, (after inputs).control = some c → c.revision = some revision →
      (after inputs).stored = some ⟨revision, c.record⟩) ∧
    ∀ row, (after inputs).stored = some row → ∃ row', (after (inputs ++ more)).stored = some row' ∧
      row'.document.identity = row.document.identity ∧
      (row.document.phase ≠ .pending → row' = row) := by
  have hkept := after_kept inputs
  refine ⟨hkept.1.trace, hkept.1.bounded, hkept.1.synced, ?_⟩
  have hrelated : Forward (after inputs) (after (inputs ++ more)) := by
    rw [after, after, Runs.after_append]
    refine Runs.related (P := fun m => Kept scope m ∧ Settled m) Forward.refl
      (fun _ _ _ => Forward.trans) (fun m input hm => ?_) (fun m input hm => ?_) hkept more
    · have hstep := Machine.step_good hm.1 hm.2 input
      exact ⟨hstep.kept, hstep.settled⟩
    · exact (Machine.step_good hm.1 hm.2 input).forward
  exact hrelated

end Rounds

end RxSolutions.Executor.Stop
