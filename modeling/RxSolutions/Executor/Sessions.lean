import RxSolutions.Durable.Runs
import RxSolutions.Executor.Pending

/-!
# Runs of the pending request queue

A session is a queue together with the requests its users were handed and have not
completed. Its calls come at any times and with any results, stale and wrong ones included.
-/

namespace RxSolutions.Executor

open Domain Durable

/-- The calls on a queue, at any times and with any results. -/
inductive PendingCall
  | accept (requests : List Request) (now : ℕ)
  | requestPause (now : ℕ)
  | next (now : ℕ)
  | complete (request : Request) (result : Except Error Outcome) (now : ℕ)

/-- A queue and the requests that were handed out and not yet completed. -/
structure Session where
  queue : PendingRequests
  outstanding : List Request

namespace Session

/-- A session without requests. -/
def new (identity : Identity) (root : Name) : Session :=
  { queue := .new identity root, outstanding := [] }

/-- One call. A completion that the queue rejects leaves its request outstanding. -/
def step (s : Session) : PendingCall → Session
  | .accept requests now => { s with queue := (s.queue.accept requests now).2 }
  | .requestPause now => { s with queue := s.queue.requestPause now }
  | .next now =>
    let (given, queue) := s.queue.next now
    { queue, outstanding := s.outstanding ++ given.toList }
  | .complete request result now =>
    match s.queue.complete request result now with
    | (.ok _, queue) => { queue, outstanding := s.outstanding.filter (· ≠ request) }
    | (.error _, queue) => { s with queue }

/-- The session after a list of calls. -/
def run (s : Session) (calls : List PendingCall) : Session := Runs.after step s calls

/-- What is in flight is what is outstanding, except for the one normal request that may
have been handed out before the queue started to pause. -/
structure Valid (s : Session) : Prop where
  queue : s.queue.Valid
  running : s.queue.stop = .running → s.outstanding = s.queue.flying
  pauses : s.outstanding.filter (¬ ·.Normal) = s.queue.flying.filter (¬ ·.Normal)
  normals : (s.outstanding.filter (·.Normal)).length ≤ 1

variable {s : Session}

theorem valid_new (identity : Identity) (root : Name) : (new identity root).Valid where
  queue := PendingRequests.valid_new identity root
  running _ := rfl
  pauses := rfl
  normals := Nat.zero_le _

theorem Valid.requestPause (hs : s.Valid) (now : ℕ) :
    Valid { s with queue := s.queue.requestPause now } where
  queue := hs.queue.requestPause now
  running hrun := by
    -- a pause request never leaves the queue running
    obtain ⟨heq, hstop⟩ | ⟨-, heq⟩ := hs.queue.requestPause_cases now
    · rw [heq] at hrun; exact absurd hrun hstop
    · rw [heq] at hrun; cases hrun
  pauses := by
    rw [hs.queue.flying_requestPause, hs.pauses]
    simp
  normals := hs.normals

theorem Valid.accept (hs : s.Valid) (requests : List Request) (now : ℕ) :
    (s.step (.accept requests now)).Valid := by
  simp only [step]
  obtain heq | heq | ⟨candidate, hstop, hext, -, -, heq⟩ :=
    PendingRequests.accept_cases s.queue requests now
  · rw [heq]; exact hs
  · rw [heq]; exact hs.requestPause now
  · have hvalid := hs.queue.accept requests now
    rw [heq] at hvalid ⊢
    have hflying := PendingRequests.flying_extends hext
    constructor
    · exact hvalid
    · intro hrun
      rw [hflying]
      exact hs.running hstop
    · rw [hflying]; exact hs.pauses
    · exact hs.normals

theorem Valid.next (hs : s.Valid) (now : ℕ) : (s.step (.next now)).Valid := by
  have hvalid := hs.queue.next now
  simp only [step]
  obtain heq | ⟨before, value, after, hitems, hnone, hrunning, heq⟩ := hs.queue.next_cases now
  · rw [heq]
    simpa using hs
  · rw [heq] at hvalid ⊢
    have hflying := PendingRequests.flying_mark hitems hnone
    constructor
    · exact hvalid
    · intro hrun
      rw [hflying, hs.running hrun, hnone]
      rfl
    · rw [hflying, List.filter_append, hs.pauses, hnone]
      rfl
    · rw [List.filter_append, List.length_append]
      by_cases hnormal : value.request.Normal
      · rw [hs.running (hrunning hnormal), hnone]
        simp [hnormal]
      · have hnormals := hs.normals
        simpa [hnormal] using hnormals

theorem Valid.complete (hs : s.Valid) (request : Request) (result : Except Error Outcome)
    (now : ℕ) : (s.step (.complete request result now)).Valid := by
  have hvalid := hs.queue.complete request result now
  have hnext := hs.queue.stop_complete request result now
  have hnormals : ((s.outstanding.filter (· ≠ request)).filter (·.Normal)).length ≤ 1 :=
    ((List.filter_sublist).filter _).length_le.trans hs.normals
  simp only [step]
  obtain ⟨e, heq⟩ | ⟨hstop, hnormal, heq⟩ |
      ⟨before, value, after, verdict, hitems, rfl, hfly, hjudge, heq⟩ :=
    PendingRequests.complete_cases s.queue request result now
  · rw [heq]; exact hs
  · rw [heq]
    refine ⟨hs.queue, fun hrun => absurd hrun hstop, ?_, hnormals⟩
    rw [← hs.pauses, List.filter_filter]
    apply List.filter_congr
    intro r _
    by_cases hr : r = request
    · simp [hr, hnormal]
    · simp [hr]
  · rw [heq] at hvalid hnext ⊢
    have hnone := (hs.queue.settle hitems hfly (PendingRequests.judge_sound hjudge) now).2
    have hflying := (hs.queue.flying_settled hitems hfly).1
    refine ⟨hvalid, fun hrun => ?_, ?_, hnormals⟩
    · have hwas : s.queue.stop = .running := by
        by_contra hnot
        exact hnext.not_running hnot hrun
      rw [hnone, hs.running hwas, hflying]
      simp
    · rw [hnone, List.filter_comm, hs.pauses, hflying]
      simp

theorem Valid.step (hs : s.Valid) (call : PendingCall) : (s.step call).Valid := by
  cases call with
  | accept requests now => exact hs.accept requests now
  | requestPause now => exact hs.requestPause now
  | next now => exact hs.next now
  | complete request result now => exact hs.complete request result now

theorem Valid.run (hs : s.Valid) (calls : List PendingCall) : (s.run calls).Valid :=
  Runs.invariant (P := Valid) (fun _ call h => h.step call) hs calls

/-- Every call moves the stop state forward. -/
theorem Valid.stop_step (hs : s.Valid) (call : PendingCall) :
    s.queue.stop.Next (s.step call).queue.stop := by
  cases call with
  | accept requests now => exact hs.queue.stop_accept requests now
  | requestPause now => exact hs.queue.stop_requestPause now
  | next now =>
    have hstop := hs.queue.stop_next now
    simp only [Session.step]
    rw [hstop]
    exact .refl _
  | complete request result now =>
    have hnext := hs.queue.stop_complete request result now
    simp only [Session.step]
    split <;> simp_all

/-- A queue that stopped running never runs again. -/
theorem Valid.stopped_run (hs : s.Valid) (hstop : s.queue.stop ≠ .running)
    (calls : List PendingCall) : (s.run calls).queue.stop ≠ .running := by
  have hstep : ∀ (s : Session) (call : PendingCall), s.Valid ∧ s.queue.stop ≠ .running →
      (s.step call).Valid ∧ (s.step call).queue.stop ≠ .running :=
    fun s call h => ⟨h.1.step call, (h.1.stop_step call).not_running h.2⟩
  have hboth := Runs.invariant (P := fun s : Session => s.Valid ∧ s.queue.stop ≠ .running) hstep
    ⟨hs, hstop⟩ calls
  exact hboth.2

/-- A running queue keeps every request through every call, except for a completion that
reports it done, or when the whole queue starts to pause. -/
theorem Valid.kept_step (hs : s.Valid) (hrun : s.queue.stop = .running) (call : PendingCall)
    {p : Pending} (hp : p ∈ s.queue.items) :
    (∃ p' ∈ (s.step call).queue.items, p'.request = p.request) ∨
      (∃ outcome now, call = .complete p.request (.ok outcome) now ∧ p.request.DoneBy outcome) ∨
      (s.step call).queue.stop = .pausePending := by
  cases call with
  | accept requests now =>
    obtain hkept | hpausing := hs.queue.kept_accept hrun requests now hp
    · exact Or.inl hkept
    · exact Or.inr (Or.inr hpausing)
  | requestPause now =>
    right; right
    simp only [Session.step, hs.queue.requestPause_running hrun]
  | next now => exact Or.inl (hs.queue.kept_next now hp)
  | complete request result now =>
    have hqueue : (s.step (.complete request result now)).queue =
        (s.queue.complete request result now).2 := by
      simp only [Session.step]
      split <;> simp_all
    rw [hqueue]
    obtain hkept | ⟨rfl, outcome, rfl, hdone⟩ | hpausing :=
      hs.queue.kept_complete hrun request result now hp
    · exact Or.inl hkept
    · exact Or.inr (Or.inl ⟨outcome, now, rfl, hdone⟩)
    · exact Or.inr (Or.inr hpausing)

/-- The contract of the queue at one moment of a run. -/
structure Kept (s : Session) : Prop where
  unique : (s.queue.items.map (·.request.key)).Nodup
  bounded : s.queue.items.length ≤ 32
  oneNormal : (s.outstanding.filter (·.Normal)).length ≤ 1
  onePause : (s.outstanding.filter (¬ ·.Normal)).length ≤ 1
  leaves : s.queue.stop = .running → ∀ call, ∀ p ∈ s.queue.items,
    (∃ p' ∈ (s.step call).queue.items, p'.request = p.request) ∨
    (∃ outcome now, call = .complete p.request (.ok outcome) now ∧ p.request.DoneBy outcome) ∨
    (s.step call).queue.stop = .pausePending
  silent : s.queue.stop ≠ .running → ∀ later now,
    ∀ r ∈ ((s.run later).queue.next now).1, r.kind = .pauseExecutor
  pausing : s.queue.stop = .pausePending →
    (∃ p, s.queue.items = [p] ∧ p.request = s.queue.pauseRequest) ∧
    ∀ call, (s.step call).queue.stop = .pausePending ∨
      (s.step call).queue.stop = .pauseObserved ∨ (s.step call).queue.stop = .attention
  ended : s.queue.stop = .pauseObserved ∨ s.queue.stop = .attention →
    ∀ call, (s.step call).queue.stop = s.queue.stop
  rollback : ∀ requests now e, (s.queue.accept requests now).1 = .error e →
    (s.queue.accept requests now).2 = s.queue
  backoff : ∀ request result now, ∀ p ∈ (s.queue.complete request result now).2.items,
    p ∈ s.queue.items ∨ p.due ≤ now + secs 5

/-- A valid session keeps the contract of the queue. -/
theorem Valid.kept (hs : s.Valid) : s.Kept where
  unique := hs.queue.unique
  bounded := hs.queue.bounded
  oneNormal := hs.normals
  onePause := by
    rw [hs.pauses]
    exact (List.length_filter_le _ _).trans hs.queue.single
  leaves hrun call _ hp := hs.kept_step hrun call hp
  silent hstop later now r hr := by
    have hlater := (hs.run later).queue
    obtain heq | ⟨before, value, after, -, -, hrunning, heq⟩ := hlater.next_cases now
    · rw [heq] at hr; cases hr
    · rw [heq] at hr
      cases hr
      by_contra hnormal
      exact hs.stopped_run hstop later (hrunning hnormal)
  pausing hpausing := by
    refine ⟨hs.queue.pausing hpausing, fun call => ?_⟩
    have hnext := hs.stop_step call
    rw [hpausing] at hnext
    cases hstop : (s.step call).queue.stop <;> simp_all [StopState.Next]
  ended hended call := by
    have hnext := hs.stop_step call
    obtain hstop | hstop := hended
    · rw [hstop] at hnext ⊢; exact hnext
    · rw [hstop] at hnext ⊢; exact hnext
  rollback requests now e he := by
    obtain heq | heq | ⟨candidate, -, -, -, -, heq⟩ :=
      PendingRequests.accept_cases s.queue requests now
    · exact heq
    · rw [heq] at he; cases he
    · rw [heq] at he; cases he
  backoff request result now _ hp := hs.queue.due_complete request result now hp

end Session

/-- After any calls at any times and with any results, the queue holds at most 32 requests
with distinct keys; one normal request and one pause are outstanding at most; requests leave
a running queue only when they are done or the queue pauses; a pause is never lost and ends
in a state that is never left; a rejected batch changes nothing; and a retry is due within
five seconds. -/
theorem pending_requests_are_kept (identity : Identity) (root : Name)
    (calls : List PendingCall) : ((Session.new identity root).run calls).Kept :=
  ((Session.valid_new identity root).run calls).kept

end RxSolutions.Executor
