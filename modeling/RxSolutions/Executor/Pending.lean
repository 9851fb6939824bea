import RxSolutions.Durable.Queue
import RxSolutions.Executor.Requests

/-!
# The pending request queue

The bounded, volatile queue between the behaviour tree and the worker. Suggestions are
accepted in whole batches, handed out one at a time, retried with a back-off and dropped
when they are done. A request to pause displaces everything else and ends in one of two
terminal states.

Instants and durations are nanosecond counts.
-/

namespace RxSolutions.Executor

open Domain Durable

/-- How far the stop of a run has come. -/
inductive StopState
  | running | pausePending | pauseObserved | attention
  deriving DecidableEq, Repr

/-- How the state may change: a queue that pauses never resumes, and the two last states
are never left. -/
def StopState.Next : StopState → StopState → Prop
  | .running, s => s = .running ∨ s = .pausePending
  | .pausePending, s => s ≠ .running
  | .pauseObserved, s => s = .pauseObserved
  | .attention, s => s = .attention

theorem StopState.Next.refl (s : StopState) : s.Next s := by
  cases s <;> simp [StopState.Next]

theorem StopState.Next.not_running {s s' : StopState} (h : s.Next s') (hs : s ≠ .running) :
    s' ≠ .running := by
  cases s <;> simp_all [StopState.Next]

/-- What a checkpoint is to record. -/
inductive CheckpointAction
  | chooseBranch | startWait | checkWait
  deriving DecidableEq, Repr

/-- What a worker reports about one request. -/
inductive Outcome
  | checkpointObserved (node : Name) (action : CheckpointAction)
  | checkpointCommitted (node : Name) (action : CheckpointAction)
  | waitingCondition
  | observedOperation (operation : Id)
  | admitted (operation : Id)
  | refreshRequired
  | waitingForAuthority
  | contextChanged
  | attention (reason : Name)
  | unsupported (kind : RequestKind)
  | reconciliationPending (operation : Id)
  | resourcesReleased (operation : Id)
  | paused (run : Id) (revision : Counter)
  deriving DecidableEq, Repr

/-- The status codes of a remote call. -/
inductive Code
  | ok | cancelled | unknown | invalidArgument | deadlineExceeded | notFound | alreadyExists
  | permissionDenied | resourceExhausted | failedPrecondition | aborted | outOfRange
  | unimplemented | internal | unavailable | dataLoss | unauthenticated
  deriving DecidableEq, Repr

/-- Why a call fails. -/
inductive Error
  | transport
  | rpc (code : Code)
  | invalid (why : String)
  | store
  | expired
  deriving DecidableEq, Repr

/-- The codes after which a call is tried again. -/
def Code.transient (code : Code) : Prop :=
  code ∈ [Code.unavailable, .deadlineExceeded, .cancelled, .internal, .unknown,
    .resourceExhausted]

instance (code : Code) : Decidable code.transient := inferInstanceAs (Decidable (_ ∈ _))

/-- A request, when it is due and how long the next delay is. -/
structure Pending where
  request : Request
  due : ℕ
  delay : ℕ
  inFlight : Bool
  deriving DecidableEq, Repr

/-- The requests of one execution context that are not settled. -/
structure PendingRequests where
  identity : Identity
  root : Name
  items : List Pending
  stop : StopState
  deriving DecidableEq, Repr

/-- Milliseconds in nanoseconds. -/
def millis (n : ℕ) : ℕ := n * 1000000

/-- Seconds in nanoseconds. -/
def secs (n : ℕ) : ℕ := n * 1000000000

/-- The worker's report that a request needs nothing more. -/
def Request.DoneBy (r : Request) (outcome : Outcome) : Prop :=
  match r.kind with
  | .submitOperation => ∃ operation, outcome = .admitted operation ∨
      outcome = .observedOperation operation
  | .requestHandover => ∃ operation, outcome = .resourcesReleased operation
  | .resolveBranch => outcome = .checkpointCommitted r.node .chooseBranch ∨
      outcome = .checkpointObserved r.node .chooseBranch
  | .beginWait => outcome = .checkpointCommitted r.node .checkWait ∨
      outcome = .checkpointObserved r.node .checkWait
  | .requestIntervention | .pauseExecutor => False

theorem Request.DoneBy.normal {r : Request} {outcome : Outcome} (h : r.DoneBy outcome) :
    r.Normal := by
  intro hpause
  simp [Request.DoneBy, hpause] at h

namespace PendingRequests

/-- Nothing is pending. -/
def new (identity : Identity) (root : Name) : PendingRequests :=
  { identity, root, items := [], stop := .running }

/-- The request the queue makes by itself to pause the executor. -/
def pauseRequest (q : PendingRequests) : Request :=
  { identity := q.identity, node := q.root, kind := .pauseExecutor, argument := "", timeoutNs := 0 }

/-- A new entry, due at once. -/
def entry (request : Request) (now : ℕ) : Pending :=
  { request, due := now, delay := 0, inFlight := false }

/-- Adds one suggestion of a batch to the candidate queue. -/
def admitInto (q : PendingRequests) (now : ℕ) (candidate : List Pending) (request : Request) :
    Except Error (List Pending) :=
  if request.identity ≠ q.identity then .error (.invalid "pending request context differs")
  else if request.kind = .pauseExecutor ∧
      (request.node ≠ q.root ∨ request.argument ≠ "" ∨ request.timeoutNs ≠ 0) then
    .error (.invalid "pause request shape differs")
  else match candidate.find? (fun p => p.request.key = request.key) with
    | some old =>
      if old.request ≠ request then .error (.invalid "queued request meaning changed")
      else .ok candidate
    | none => .ok (candidate ++ [entry request now])

/-- From now on only the pause is pending. -/
def requestPause (q : PendingRequests) (now : ℕ) : PendingRequests :=
  if q.stop = .pauseObserved ∨ q.stop = .attention then q
  else
    let items := q.items.filter fun p => p.request.kind = .pauseExecutor
    { q with
      stop := .pausePending
      items := if items = [] then [entry q.pauseRequest now] else items }

/-- The batch is checked as a whole on a copy of the queue before any of it is taken. -/
def accept (q : PendingRequests) (requests : List Request) (now : ℕ) :
    Except Error Unit × PendingRequests :=
  if 32 < requests.length then (.error (.invalid "request batch limit"), q)
  else match requests.foldlM (q.admitInto now) q.items with
    | .error e => (.error e, q)
    | .ok candidate =>
      if ∃ r ∈ requests, r.kind = .pauseExecutor then (.ok (), q.requestPause now)
      else if q.stop ≠ .running then (.ok (), q)
      else if 32 < candidate.length then
        (.error (.invalid "pending request capacity exceeded"), q)
      else (.ok (), { q with items := candidate })

/-- Whether an entry may be handed out. -/
def ready (q : PendingRequests) (now : ℕ) (p : Pending) : Bool :=
  !p.inFlight && decide (p.due ≤ now) &&
    (p.request.kind = .pauseExecutor || !q.items.any (·.inFlight))

/-- The first request that is ready. -/
def next (q : PendingRequests) (now : ℕ) : Option Request × PendingRequests :=
  match Queue.splitFirst (q.ready now) q.items with
  | none => (none, q)
  | some (before, value, after) =>
    (some value.request, { q with items := before ++ { value with inFlight := true } :: after })

/-- What a completion means for its entry. -/
inductive Verdict
  | done
  | retry (delay : ℕ)
  | fatal
  | paused
  deriving DecidableEq, Repr

/-- The reading of a worker's result, in the order of the source's match arms. -/
def judge (q : PendingRequests) (request : Request) (delay : ℕ) (result : Except Error Outcome) :
    Except Error Verdict :=
  let checkpoint (node : Name) (action : CheckpointAction) : Except Error Verdict :=
    if node = request.node then
      match request.kind, action with
      | .resolveBranch, .chooseBranch => .ok .done
      | .beginWait, .checkWait => .ok .done
      | .beginWait, .startWait => .ok (.retry (millis 20))
      | _, _ => .error (.invalid "checkpoint outcome/request kind differs")
    else .error (.invalid "worker outcome/request kind differs")
  let only (expected : Prop) [Decidable expected] (verdict : Verdict) : Except Error Verdict :=
    if expected then .ok verdict else .error (.invalid "worker outcome/request kind differs")
  match result with
  | .ok (.admitted _) => only (request.kind = .submitOperation) .done
  | .ok (.observedOperation _) => only (request.kind = .submitOperation) .done
  | .ok (.resourcesReleased _) => only (request.kind = .requestHandover) .done
  | .ok (.reconciliationPending _) => only (request.kind = .requestHandover) (.retry (millis 100))
  | .ok (.checkpointCommitted node action) => checkpoint node action
  | .ok (.checkpointObserved node action) => checkpoint node action
  | .ok (.paused run _) => only (request.kind = .pauseExecutor ∧ run = q.identity.run) .paused
  | .ok .waitingCondition => .ok (.retry (millis 20))
  | .ok .refreshRequired => .ok (.retry (millis 20))
  | .error .expired => .ok (.retry (millis 20))
  | .ok .waitingForAuthority => .ok (.retry (millis 100))
  | .error (.rpc code) =>
    if code.transient then .ok (.retry (min (max (delay * 2) (millis 100)) (secs 5)))
    else .ok .fatal
  | .ok .contextChanged => .ok .fatal
  | .ok (.attention _) => .ok .fatal
  | .ok (.unsupported _) => .ok .fatal
  | .error _ => .ok .fatal

/-- What a verdict does to the queue around the entry it is about. -/
def settle (q : PendingRequests) (before : List Pending) (value : Pending) (after : List Pending)
    (now : ℕ) : Verdict → PendingRequests
  | .paused => { q with items := [], stop := .pauseObserved }
  | .fatal =>
    if value.request.kind = .pauseExecutor then { q with items := [], stop := .attention }
    else { q with items := before ++ after }.requestPause now
  | .retry delay =>
    { q with
      items := before ++ after ++ [{ value with due := now + delay, delay, inFlight := false }] }
  | .done => { q with items := before ++ after }

/-- Settle a request by its result. -/
def complete (q : PendingRequests) (request : Request) (result : Except Error Outcome) (now : ℕ) :
    Except Error Unit × PendingRequests :=
  match Queue.splitFirst (fun p => p.request.key = request.key) q.items with
  | none =>
    if q.stop ≠ .running ∧ request.kind ≠ .pauseExecutor then (.ok (), q)
    else (.error (.invalid "completion without queued request"), q)
  | some (before, value, after) =>
    if value.request ≠ request ∨ ¬ value.inFlight then
      (.error (.invalid "completion does not match in-flight request"), q)
    else match q.judge request value.delay result with
      | .error e => (.error e, q)
      | .ok verdict => (.ok (), q.settle before value after now verdict)

/-! ## The invariant -/

/-- The requests that are handed out and still queued. -/
def flying (q : PendingRequests) : List Request :=
  (q.items.filter (·.inFlight)).map (·.request)

/-- While it runs the queue holds normal requests only; while it pauses, exactly the
request to pause; and afterwards nothing. -/
structure Valid (q : PendingRequests) : Prop where
  unique : (q.items.map (·.request.key)).Nodup
  bounded : q.items.length ≤ 32
  single : q.flying.length ≤ 1
  running : q.stop = .running → ∀ p ∈ q.items, p.request.Normal
  pausing : q.stop = .pausePending → ∃ p, q.items = [p] ∧ p.request = q.pauseRequest
  ended : q.stop = .pauseObserved ∨ q.stop = .attention → q.items = []

variable {q : PendingRequests} {now : ℕ}

theorem valid_new (identity : Identity) (root : Name) : (new identity root).Valid where
  unique := List.nodup_nil
  bounded := Nat.zero_le _
  single := Nat.zero_le _
  running _ _ hp := by cases hp
  pausing h := by cases h
  ended _ := rfl

/-! ### Accepting a batch -/

/-- A batch only appends fresh entries, for keys that are not queued yet. -/
structure Extends (items candidate : List Pending) (requests : List Request) (now : ℕ) :
    Prop where
  appended : ∃ added : List Request,
    candidate = items ++ added.map (entry · now) ∧ ∀ r ∈ added, r ∈ requests
  unique : (items.map (·.request.key)).Nodup → (candidate.map (·.request.key)).Nodup

theorem admit_extends {items candidate : List Pending} {request : Request}
    (h : q.admitInto now items request = .ok candidate) :
    Extends items candidate [request] now := by
  unfold admitInto at h
  split at h
  · cases h
  split at h
  · cases h
  split at h
  · split at h
    · cases h
    · cases h
      exact ⟨⟨[], by simp, by simp⟩, fun hs => hs⟩
  · rename_i hnone
    cases h
    rw [List.find?_eq_none] at hnone
    constructor
    · exact ⟨[request], rfl, by simp⟩
    · intro hunique
      rw [List.map_append, List.nodup_append]
      refine ⟨hunique, by simp, ?_⟩
      intro k hk k' hk' heq
      obtain ⟨p, hp, rfl⟩ := List.mem_map.mp hk
      simp only [List.map_cons, List.map_nil, List.mem_singleton] at hk'
      exact hnone p hp (by simp [heq, hk', entry])

theorem admits_extend {requests : List Request} {items candidate : List Pending}
    (h : requests.foldlM (q.admitInto now) items = .ok candidate) :
    Extends items candidate requests now := by
  induction requests generalizing items with
  | nil =>
    cases h
    exact ⟨⟨[], by simp, by simp⟩, fun hs => hs⟩
  | cons request requests ih =>
    rw [List.foldlM_cons] at h
    obtain ⟨mid, hmid, hrest⟩ : ∃ mid, q.admitInto now items request = .ok mid ∧
        requests.foldlM (q.admitInto now) mid = .ok candidate := by
      cases hinto : q.admitInto now items request with
      | error e => rw [hinto] at h; cases h
      | ok mid => rw [hinto] at h; exact ⟨mid, rfl, h⟩
    obtain ⟨⟨one, hone, hfrom⟩, hunique⟩ := admit_extends hmid
    obtain ⟨⟨rest, hrests, hfroms⟩, huniques⟩ := ih hrest
    constructor
    · refine ⟨one ++ rest, by simp [hone, hrests], fun r hr => ?_⟩
      obtain hr | hr := List.mem_append.mp hr
      · exact List.mem_cons.mpr (Or.inl (List.mem_singleton.mp (hfrom r hr)))
      · exact List.mem_cons_of_mem _ (hfroms r hr)
    · exact fun hs => huniques (hunique hs)

/-- Everything `accept` can do. -/
theorem accept_cases (q : PendingRequests) (requests : List Request) (now : ℕ) :
    (q.accept requests now).2 = q ∨
    (q.accept requests now) = (.ok (), q.requestPause now) ∨
    ∃ candidate, q.stop = .running ∧ Extends q.items candidate requests now ∧
      (∀ r ∈ requests, r.Normal) ∧ candidate.length ≤ 32 ∧
      q.accept requests now = (.ok (), { q with items := candidate }) := by
  unfold accept
  split
  · exact Or.inl rfl
  split
  · exact Or.inl rfl
  · rename_i candidate hfold
    split
    · exact Or.inr (Or.inl rfl)
    rename_i hnone
    split
    · exact Or.inl rfl
    rename_i hrunning
    split
    · exact Or.inl rfl
    · rename_i hlength
      right; right
      exact ⟨candidate, not_not.mp hrunning, admits_extend hfold,
        fun r hr hpause => hnone ⟨r, hr, hpause⟩, not_lt.mp hlength, rfl⟩

theorem flying_append (q : PendingRequests) (a b : List Pending) :
    flying { q with items := a ++ b } =
      flying { q with items := a } ++ flying { q with items := b } := by
  simp [flying]

theorem flying_entries (q : PendingRequests) (requests : List Request) (now : ℕ) :
    flying { q with items := requests.map (entry · now) } = [] := by
  induction requests with
  | nil => rfl
  | cons r requests ih => simp [flying, entry]

theorem flying_extends {candidate : List Pending} {requests : List Request}
    (h : Extends q.items candidate requests now) :
    flying { q with items := candidate } = q.flying := by
  obtain ⟨added, rfl, -⟩ := h.appended
  rw [flying_append, flying_entries, List.append_nil]

/-! ### Pausing -/

/-- The queue after a pause request, unless the executor has already stopped. -/
theorem requestPause_ended (h : q.stop = .pauseObserved ∨ q.stop = .attention) :
    q.requestPause now = q := if_pos h

theorem Valid.requestPause_running (hq : q.Valid) (hrun : q.stop = .running) :
    q.requestPause now =
      { q with stop := .pausePending, items := [entry q.pauseRequest now] } := by
  have hnone : (q.items.filter fun p => p.request.kind = .pauseExecutor) = [] := by
    rw [List.filter_eq_nil_iff]
    intro p hp
    simpa [Request.Normal] using hq.running hrun p hp
  simp [PendingRequests.requestPause, hrun, hnone]

variable {p : Pending} {before after : List Pending} {value : Pending}

theorem requestPause_pending (hstop : q.stop = .pausePending) (hitems : q.items = [p])
    (hp : p.request = q.pauseRequest) : q.requestPause now = q := by
  have hkind : p.request.kind = .pauseExecutor := by rw [hp]; rfl
  cases q
  simp_all [requestPause]

/-- The three things a pause request can meet. -/
theorem Valid.requestPause_cases (hq : q.Valid) (now : ℕ) :
    q.requestPause now = q ∧ q.stop ≠ .running ∨
    q.stop = .running ∧ q.requestPause now =
      { q with stop := .pausePending, items := [entry q.pauseRequest now] } := by
  cases hstop : q.stop with
  | running => exact Or.inr ⟨rfl, hq.requestPause_running hstop⟩
  | pausePending =>
    obtain ⟨p, hitems, hp⟩ := hq.pausing hstop
    exact Or.inl ⟨requestPause_pending hstop hitems hp, by simp⟩
  | pauseObserved => exact Or.inl ⟨requestPause_ended (Or.inl hstop), by simp⟩
  | attention => exact Or.inl ⟨requestPause_ended (Or.inr hstop), by simp⟩

/-- The queue that holds nothing but the request to pause. -/
theorem valid_pausing (q : PendingRequests) (now : ℕ) :
    Valid { q with stop := .pausePending, items := [entry q.pauseRequest now] } where
  unique := by simp
  bounded := by simp
  single := by simp [flying, entry]
  running h := by cases h
  pausing _ := ⟨_, rfl, rfl⟩
  ended h := by simp at h

theorem valid_ended (q : PendingRequests) {stop : StopState}
    (h : stop = .pauseObserved ∨ stop = .attention) : Valid { q with items := [], stop } where
  unique := List.nodup_nil
  bounded := Nat.zero_le _
  single := Nat.zero_le _
  running _ _ hp := by cases hp
  pausing hs := by obtain rfl | rfl := h <;> cases hs
  ended _ := rfl

theorem Valid.requestPause (hq : q.Valid) (now : ℕ) : (q.requestPause now).Valid := by
  obtain ⟨heq, -⟩ | ⟨-, heq⟩ := hq.requestPause_cases now
  · rw [heq]; exact hq
  · rw [heq]; exact valid_pausing q now

/-- A pause request leaves in flight only what already was a request to pause. -/
theorem Valid.flying_requestPause (hq : q.Valid) (now : ℕ) :
    (q.requestPause now).flying = q.flying.filter (¬ ·.Normal) := by
  have hflying : ∀ r ∈ q.flying, ∃ p ∈ q.items, p.request = r := by
    intro r hr
    obtain ⟨p, hp, rfl⟩ := List.mem_map.mp hr
    exact ⟨p, List.mem_of_mem_filter hp, rfl⟩
  obtain ⟨heq, hstop⟩ | ⟨hstop, heq⟩ := hq.requestPause_cases now
  · rw [heq, eq_comm, List.filter_eq_self]
    intro r hr
    obtain ⟨p, hp, rfl⟩ := hflying r hr
    cases hs : q.stop with
    | running => exact absurd hs hstop
    | pausePending =>
      obtain ⟨p', hitems, hp'⟩ := hq.pausing hs
      rw [hitems, List.mem_singleton] at hp
      simp [hp, hp', Request.Normal, pauseRequest]
    | pauseObserved => simp [hq.ended (Or.inl hs)] at hp
    | attention => simp [hq.ended (Or.inr hs)] at hp
  · have hnone : q.flying.filter (¬ ·.Normal) = [] := by
      rw [List.filter_eq_nil_iff]
      intro r hr
      obtain ⟨p, hp, rfl⟩ := hflying r hr
      simpa using hq.running hstop p hp
    rw [hnone, heq]
    rfl

theorem Valid.accept (hq : q.Valid) (requests : List Request) (now : ℕ) :
    (q.accept requests now).2.Valid := by
  obtain heq | heq | ⟨candidate, hstop, hext, hnormal, hlength, heq⟩ :=
    accept_cases q requests now
  · rw [heq]; exact hq
  · rw [heq]; exact hq.requestPause now
  · rw [heq]
    obtain ⟨added, hadded, hfrom⟩ := hext.appended
    constructor
    · exact hext.unique hq.unique
    · exact hlength
    · rw [flying_extends hext]; exact hq.single
    · intro _ p hp
      have hp : p ∈ q.items ++ added.map (entry · now) := hadded ▸ hp
      obtain hp | hp := List.mem_append.mp hp
      · exact hq.running hstop p hp
      · obtain ⟨r, hr, rfl⟩ := List.mem_map.mp hp
        exact hnormal r (hfrom r hr)
    · intro hs; cases hstop.symm.trans hs
    · intro hs; simp [hstop] at hs

/-! ### Handing out -/

/-- A request is handed out only when none is in flight, and a normal one only while the
queue runs. -/
theorem Valid.next_cases (hq : q.Valid) (now : ℕ) :
    q.next now = (none, q) ∨
    ∃ before value after, q.items = before ++ value :: after ∧ q.flying = [] ∧
      (value.request.Normal → q.stop = .running) ∧
      q.next now = (some value.request,
        { q with items := before ++ { value with inFlight := true } :: after }) := by
  unfold next
  split
  · exact Or.inl rfl
  · rename_i before value after hsplit
    obtain ⟨hitems, hready, -⟩ := Queue.splitFirst_eq_some hsplit
    have hmem : value ∈ q.items := by rw [hitems]; simp
    simp only [ready, Bool.and_eq_true, Bool.not_eq_true', Bool.or_eq_true,
      decide_eq_true_eq] at hready
    obtain ⟨⟨hidle, -⟩, hlane⟩ := hready
    have hstop : q.stop = .running ∨ q.stop = .pausePending := by
      cases hs : q.stop with
      | running => exact Or.inl rfl
      | pausePending => exact Or.inr rfl
      | pauseObserved => simp [hq.ended (Or.inl hs)] at hmem
      | attention => simp [hq.ended (Or.inr hs)] at hmem
    have hidle : q.flying = [] ∧ (value.request.Normal → q.stop = .running) := by
      obtain hs | hs := hstop
      · obtain hpause | hnone := hlane
        · exact absurd hpause (hq.running hs value hmem)
        · refine ⟨?_, fun _ => hs⟩
          simpa [flying, List.filter_eq_nil_iff] using hnone
      · -- while pausing the queue is the one entry, which is not in flight
        obtain ⟨p, hsingle, hp⟩ := hq.pausing hs
        obtain rfl : value = p := by rw [hsingle] at hmem; exact List.mem_singleton.mp hmem
        refine ⟨by simp [flying, hsingle, hidle], fun hnormal => ?_⟩
        exact absurd (by rw [hp]; rfl) hnormal
    exact Or.inr ⟨before, value, after, hitems, hidle.1, hidle.2, rfl⟩

/-- Marking an entry as handed out changes no request. -/
theorem map_request_mark (before after : List Pending) (value : Pending) (flag : Bool) :
    (before ++ { value with inFlight := flag } :: after).map (·.request) =
      (before ++ value :: after).map (·.request) := by
  simp

theorem flying_mark (hitems : q.items = before ++ value :: after) (hnone : q.flying = []) :
    flying { q with items := before ++ { value with inFlight := true } :: after } =
      [value.request] := by
  have hidle : ∀ p ∈ before ++ value :: after, p.inFlight = false := by
    rw [← hitems]
    simpa [flying, List.filter_eq_nil_iff] using hnone
  have hb : before.filter (·.inFlight) = [] := by
    rw [List.filter_eq_nil_iff]
    intro p hp
    simp [hidle p (by simp [hp])]
  have ha : after.filter (·.inFlight) = [] := by
    rw [List.filter_eq_nil_iff]
    intro p hp
    simp [hidle p (by simp [hp])]
  simp [flying, hb, ha]

theorem Valid.next (hq : q.Valid) (now : ℕ) : (q.next now).2.Valid := by
  obtain heq | ⟨before, value, after, hitems, hnone, -, heq⟩ := hq.next_cases now
  · rw [heq]; exact hq
  rw [heq]
  have hrequests := map_request_mark before after value true
  rw [← hitems] at hrequests
  have hsome : ∀ p ∈ before ++ { value with inFlight := true } :: after,
      ∃ p' ∈ q.items, p'.request = p.request := by
    intro p hp
    have hp := List.mem_map_of_mem (f := (·.request)) hp
    rw [hrequests] at hp
    exact List.mem_map.mp hp
  constructor
  · have hkeys := congrArg (List.map Request.key) hrequests
    simp only [List.map_map] at hkeys
    exact (congrArg List.Nodup hkeys).mpr hq.unique
  · have hlength := congrArg List.length hrequests
    simp only [List.length_map] at hlength
    exact hlength.le.trans hq.bounded
  · rw [flying_mark hitems hnone]; rfl
  · intro hs p hp
    obtain ⟨p', hp', heq'⟩ := hsome p hp
    rw [← heq']
    exact hq.running hs p' hp'
  · intro hs
    obtain ⟨p, hsingle, hp⟩ := hq.pausing hs
    obtain ⟨rfl, rfl, rfl⟩ : before = [] ∧ value = p ∧ after = [] := by
      rw [hitems] at hsingle
      simpa [List.append_eq_cons_iff] using hsingle
    exact ⟨_, rfl, hp⟩
  · intro hs
    simp [hq.ended hs] at hitems

/-! ### Completing -/

/-- Everything `complete` can do: nothing, with an error or for a stale normal request; or
settle the one entry in flight. -/
theorem complete_cases (q : PendingRequests) (request : Request) (result : Except Error Outcome)
    (now : ℕ) :
    (∃ e, q.complete request result now = (.error e, q)) ∨
    (q.stop ≠ .running ∧ request.Normal ∧ q.complete request result now = (.ok (), q)) ∨
    ∃ before value after verdict, q.items = before ++ value :: after ∧
      value.request = request ∧ value.inFlight = true ∧
      q.judge request value.delay result = .ok verdict ∧
      q.complete request result now = (.ok (), q.settle before value after now verdict) := by
  unfold complete
  split
  · split
    · rename_i h
      exact Or.inr (Or.inl ⟨h.1, h.2, rfl⟩)
    · exact Or.inl ⟨_, rfl⟩
  · rename_i before value after hsplit
    obtain ⟨hitems, -, -⟩ := Queue.splitFirst_eq_some hsplit
    split
    · exact Or.inl ⟨_, rfl⟩
    rename_i hmatch
    rw [not_or, not_not, not_not] at hmatch
    split
    · exact Or.inl ⟨_, rfl⟩
    · rename_i verdict hjudge
      right; right
      exact ⟨before, value, after, verdict, hitems, hmatch.1, hmatch.2, hjudge, rfl⟩

/-- The entry being settled is the one in flight. -/
theorem Valid.flying_settled (hq : q.Valid)
    (hitems : q.items = before ++ value :: after) (hfly : value.inFlight = true) :
    q.flying = [value.request] ∧ flying { q with items := before ++ after } = [] := by
  have hsingle := hq.single
  simp only [flying, hitems, List.filter_append, List.filter_cons, hfly, if_true,
    List.length_map, List.length_append, List.length_cons] at hsingle ⊢
  have hb : before.filter (·.inFlight) = [] := by
    apply List.eq_nil_of_length_eq_zero
    omega
  have ha : after.filter (·.inFlight) = [] := by
    apply List.eq_nil_of_length_eq_zero
    omega
  simp [hb, ha]

theorem Valid.removed (hq : q.Valid)
    (hitems : q.items = before ++ value :: after) (hrun : q.stop = .running) :
    Valid { q with items := before ++ after } := by
  have hsub : List.Sublist (before ++ after) q.items := by
    rw [hitems]
    exact (List.Sublist.refl before).append (List.sublist_cons_self value after)
  constructor
  · exact hq.unique.sublist (hsub.map _)
  · exact hsub.length_le.trans hq.bounded
  · have hle := ((hsub.filter (·.inFlight)).map (·.request)).length_le
    exact hle.trans hq.single
  · intro hs p hp
    exact hq.running hrun p (hsub.subset hp)
  · intro hs; cases hrun.symm.trans hs
  · intro hs; simp [hrun] at hs

/-- An entry put back at the end of the queue, to be retried. -/
theorem Valid.retried (hq : q.Valid) {value value' : Pending}
    (hitems : q.items = before ++ value :: after) (hfly : value.inFlight = true)
    (hsame : value'.request = value.request) (hidle : value'.inFlight = false) :
    Valid { q with items := before ++ after ++ [value'] } ∧
      flying { q with items := before ++ after ++ [value'] } = [] := by
  have hflying : flying { q with items := before ++ after ++ [value'] } = [] := by
    rw [flying_append, (hq.flying_settled hitems hfly).2]
    simp [flying, hidle]
  have hperm : (q.items.map (·.request)).Perm ((before ++ after ++ [value']).map (·.request)) := by
    rw [hitems]
    simp only [List.map_append, List.map_cons, List.map_nil, hsame, List.append_assoc]
    exact List.Perm.append_left _ (List.perm_append_singleton _ _).symm
  refine ⟨?_, hflying⟩
  constructor
  · have hkeys := hperm.map Request.key
    simp only [List.map_map] at hkeys
    exact hkeys.nodup hq.unique
  · have hlength := hperm.length_eq
    simp only [List.length_map] at hlength
    exact hlength.symm.le.trans hq.bounded
  · rw [hflying]; exact Nat.zero_le _
  · intro hs p hp
    have hp := hperm.mem_iff.mpr (List.mem_map_of_mem (f := (·.request)) hp)
    obtain ⟨p', hp', heq⟩ := List.mem_map.mp hp
    rw [← heq]
    exact hq.running hs p' hp'
  · intro hs
    obtain ⟨p, hsingle, hp⟩ := hq.pausing hs
    obtain ⟨rfl, rfl, rfl⟩ : before = [] ∧ value = p ∧ after = [] := by
      rw [hitems] at hsingle
      simpa [List.append_eq_cons_iff] using hsingle
    exact ⟨value', rfl, hsame.trans hp⟩
  · intro hs
    simp [hq.ended hs] at hitems

/-- What each verdict says about the result it was read from. -/
def Verdict.Sound (request : Request) (result : Except Error Outcome) : Verdict → Prop
  | .done => ∃ outcome, result = .ok outcome ∧ request.DoneBy outcome
  | .retry delay => delay ≤ secs 5
  | .paused => request.kind = .pauseExecutor
  | .fatal => True

variable {verdict : Verdict}

theorem judge_sound {request : Request} {delay : ℕ} {result : Except Error Outcome}
    (h : q.judge request delay result = .ok verdict) :
    verdict.Sound request result := by
  have h20 : millis 20 ≤ secs 5 := by decide
  have h100 : millis 100 ≤ secs 5 := by decide
  cases result with
  | error e =>
    cases e with
    | rpc code =>
      simp only [judge] at h
      split at h
      · cases h; exact min_le_right _ _
      · cases h; trivial
    | expired => cases h; exact h20
    | transport | invalid _ | store => cases h; trivial
  | ok outcome =>
    cases outcome with
    | waitingCondition | refreshRequired => cases h; exact h20
    | waitingForAuthority => cases h; exact h100
    | contextChanged | attention _ | unsupported _ => cases h; trivial
    | checkpointObserved node action | checkpointCommitted node action =>
      -- a checkpoint must be about the node, and of the kind that was asked for
      simp only [judge] at h
      split at h
      · split at h <;> cases h
        all_goals simp_all [Verdict.Sound, Request.DoneBy]
      · cases h
    | paused run revision =>
      simp only [judge] at h
      split at h
      · cases h; exact (‹_ ∧ _›).1
      · cases h
    | admitted _ | observedOperation _ | resourcesReleased _ | reconciliationPending _ =>
      simp only [judge] at h
      split at h <;> cases h
      all_goals simp_all [Verdict.Sound, Request.DoneBy]

/-- A normal entry is queued only while the queue runs. -/
theorem Valid.running_of_normal (hq : q.Valid) (hp : p ∈ q.items) (hnormal : p.request.Normal) :
    q.stop = .running := by
  cases hs : q.stop with
  | running => rfl
  | pausePending =>
    obtain ⟨p', hsingle, hp'⟩ := hq.pausing hs
    rw [hsingle, List.mem_singleton] at hp
    exact absurd (by rw [hp, hp']; rfl) hnormal
  | pauseObserved => simp [hq.ended (Or.inl hs)] at hp
  | attention => simp [hq.ended (Or.inr hs)] at hp

/-- Whatever the verdict, the queue stays valid and nothing is left in flight. -/
theorem Valid.settle (hq : q.Valid)
    {result : Except Error Outcome} (hitems : q.items = before ++ value :: after)
    (hfly : value.inFlight = true) (hsound : verdict.Sound value.request result) (now : ℕ) :
    (q.settle before value after now verdict).Valid ∧
      (q.settle before value after now verdict).flying = [] := by
  have hmem : value ∈ q.items := by rw [hitems]; simp
  have hrest := (hq.flying_settled hitems hfly).2
  cases verdict with
  | done =>
    obtain ⟨outcome, -, hdone⟩ := hsound
    exact ⟨hq.removed hitems (hq.running_of_normal hmem hdone.normal), hrest⟩
  | retry delay => exact hq.retried hitems hfly rfl rfl
  | paused => exact ⟨valid_ended q (Or.inl rfl), rfl⟩
  | fatal =>
    simp only [PendingRequests.settle]
    split
    · exact ⟨valid_ended q (Or.inr rfl), rfl⟩
    · rename_i hnormal
      have hremoved := hq.removed hitems (hq.running_of_normal hmem hnormal)
      refine ⟨hremoved.requestPause now, ?_⟩
      rw [hremoved.flying_requestPause, hrest]
      rfl

theorem Valid.complete (hq : q.Valid) (request : Request) (result : Except Error Outcome)
    (now : ℕ) : (q.complete request result now).2.Valid := by
  obtain ⟨e, heq⟩ | ⟨-, -, heq⟩ | ⟨before, value, after, verdict, hitems, rfl, hfly, hjudge, heq⟩ :=
    complete_cases q request result now
  · rw [heq]; exact hq
  · rw [heq]; exact hq
  · rw [heq]; exact (hq.settle hitems hfly (judge_sound hjudge) now).1

/-! ### How the state changes, and what leaves the queue -/

theorem Valid.stop_requestPause (hq : q.Valid) (now : ℕ) :
    q.stop.Next (q.requestPause now).stop := by
  obtain ⟨heq, -⟩ | ⟨hstop, heq⟩ := hq.requestPause_cases now
  · rw [heq]; exact .refl _
  · rw [heq, hstop]; exact Or.inr rfl

theorem Valid.stop_settle (hq : q.Valid)
    {result : Except Error Outcome} (hitems : q.items = before ++ value :: after)
    (hsound : verdict.Sound value.request result) (now : ℕ) :
    q.stop.Next (q.settle before value after now verdict).stop := by
  have hmem : value ∈ q.items := by rw [hitems]; simp
  -- an entry that asks to pause is queued only while pausing
  have hpausing : value.request.kind = .pauseExecutor → q.stop = .pausePending := by
    intro hkind
    cases hs : q.stop with
    | running => exact absurd hkind (hq.running hs value hmem)
    | pausePending => rfl
    | pauseObserved => simp [hq.ended (Or.inl hs)] at hmem
    | attention => simp [hq.ended (Or.inr hs)] at hmem
  cases verdict with
  | done => exact .refl _
  | retry delay => exact .refl _
  | paused => rw [hpausing hsound]; simp [StopState.Next, PendingRequests.settle]
  | fatal =>
    simp only [PendingRequests.settle]
    split
    · rename_i hkind
      rw [hpausing hkind]
      simp [StopState.Next]
    · rename_i hnormal
      exact (hq.removed hitems (hq.running_of_normal hmem hnormal)).stop_requestPause now

theorem Valid.stop_accept (hq : q.Valid) (requests : List Request) (now : ℕ) :
    q.stop.Next (q.accept requests now).2.stop := by
  obtain heq | heq | ⟨candidate, -, -, -, -, heq⟩ := accept_cases q requests now
  · rw [heq]; exact .refl _
  · rw [heq]; exact hq.stop_requestPause now
  · rw [heq]; exact .refl _

theorem Valid.stop_next (hq : q.Valid) (now : ℕ) : (q.next now).2.stop = q.stop := by
  obtain heq | ⟨before, value, after, -, -, -, heq⟩ := hq.next_cases now
  · rw [heq]
  · rw [heq]

theorem Valid.stop_complete (hq : q.Valid) (request : Request) (result : Except Error Outcome)
    (now : ℕ) : q.stop.Next (q.complete request result now).2.stop := by
  obtain ⟨e, heq⟩ | ⟨-, -, heq⟩ | ⟨before, value, after, verdict, hitems, rfl, hfly, hjudge, heq⟩ :=
    complete_cases q request result now
  · rw [heq]; exact .refl _
  · rw [heq]; exact .refl _
  · rw [heq]; exact hq.stop_settle hitems (judge_sound hjudge) now

/-- A running queue keeps its requests under `accept`, unless it starts to pause. -/
theorem Valid.kept_accept (hq : q.Valid) (hrun : q.stop = .running) (requests : List Request)
    (now : ℕ) (hp : p ∈ q.items) :
    (∃ p' ∈ (q.accept requests now).2.items, p'.request = p.request) ∨
      (q.accept requests now).2.stop = .pausePending := by
  obtain heq | heq | ⟨candidate, -, hext, -, -, heq⟩ := accept_cases q requests now
  · exact Or.inl ⟨p, by rw [heq]; exact hp, rfl⟩
  · rw [heq, hq.requestPause_running hrun]
    exact Or.inr rfl
  · obtain ⟨added, hadded, -⟩ := hext.appended
    refine Or.inl ⟨p, ?_, rfl⟩
    rw [heq]
    exact hadded ▸ List.mem_append_left _ hp

theorem Valid.kept_next (hq : q.Valid) (now : ℕ) (hp : p ∈ q.items) :
    ∃ p' ∈ (q.next now).2.items, p'.request = p.request := by
  obtain heq | ⟨before, value, after, hitems, -, -, heq⟩ := hq.next_cases now
  · exact ⟨p, by rw [heq]; exact hp, rfl⟩
  · rw [heq]
    have hrequests := map_request_mark before after value true
    rw [← hitems] at hrequests
    have hp := List.mem_map_of_mem (f := (·.request)) hp
    rw [← hrequests] at hp
    exact List.mem_map.mp hp

/-- A completion removes only the request it is about, and only when it reports it done or
the queue starts to pause. -/
theorem Valid.kept_complete (hq : q.Valid) (hrun : q.stop = .running) (request : Request)
    (result : Except Error Outcome) (now : ℕ) (hp : p ∈ q.items) :
    (∃ p' ∈ (q.complete request result now).2.items, p'.request = p.request) ∨
      (p.request = request ∧ ∃ outcome, result = .ok outcome ∧ request.DoneBy outcome) ∨
      (q.complete request result now).2.stop = .pausePending := by
  obtain ⟨e, heq⟩ | ⟨-, -, heq⟩ | ⟨before, value, after, verdict, hitems, rfl, hfly, hjudge, heq⟩ :=
    complete_cases q request result now
  · exact Or.inl ⟨p, by rw [heq]; exact hp, rfl⟩
  · exact Or.inl ⟨p, by rw [heq]; exact hp, rfl⟩
  have hmem : value ∈ q.items := by rw [hitems]; simp
  have hnormal := hq.running hrun value hmem
  have hsound := judge_sound hjudge
  have hsplit : p = value ∨ p ∈ before ++ after := by
    rw [hitems] at hp
    simpa [or_left_comm] using hp
  rw [heq]
  cases verdict with
  | done =>
    obtain rfl | hrest := hsplit
    · exact Or.inr (Or.inl ⟨rfl, hsound⟩)
    · exact Or.inl ⟨p, hrest, rfl⟩
  | retry delay =>
    left
    obtain rfl | hrest := hsplit
    · exact ⟨_, List.mem_append_right _ (List.mem_singleton.mpr rfl), rfl⟩
    · exact ⟨p, List.mem_append_left _ hrest, rfl⟩
  | paused => exact absurd hsound hnormal
  | fatal =>
    right; right
    have hremoved := hq.removed hitems hrun
    simp only [PendingRequests.settle, if_neg hnormal]
    rw [hremoved.requestPause_running hrun]

/-- What a completion puts back or adds is due within five seconds. -/
theorem Valid.due_complete (hq : q.Valid) (request : Request) (result : Except Error Outcome)
    (now : ℕ) (hp : p ∈ (q.complete request result now).2.items) :
    p ∈ q.items ∨ p.due ≤ now + secs 5 := by
  obtain ⟨e, heq⟩ | ⟨-, -, heq⟩ | ⟨before, value, after, verdict, hitems, rfl, hfly, hjudge, heq⟩ :=
    complete_cases q request result now
  · exact Or.inl (by rw [heq] at hp; exact hp)
  · exact Or.inl (by rw [heq] at hp; exact hp)
  have hmem : value ∈ q.items := by rw [hitems]; simp
  have hsound := judge_sound hjudge
  have hrest : ∀ p ∈ before ++ after, p ∈ q.items := by
    intro p hp
    rw [hitems]
    simp only [List.mem_append, List.mem_cons] at hp ⊢
    tauto
  rw [heq] at hp
  cases verdict with
  | done => exact Or.inl (hrest p hp)
  | retry delay =>
    obtain hp | hp := List.mem_append.mp hp
    · exact Or.inl (hrest p hp)
    · rw [List.mem_singleton.mp hp]
      exact Or.inr (Nat.add_le_add_left hsound now)
  | paused => cases hp
  | fatal =>
    simp only [PendingRequests.settle] at hp
    split at hp
    · cases hp
    · rename_i hnormal
      have hrun := hq.running_of_normal hmem hnormal
      rw [(hq.removed hitems hrun).requestPause_running hrun] at hp
      rw [List.mem_singleton.mp hp]
      exact Or.inr (Nat.le_add_right _ _)

end PendingRequests

end RxSolutions.Executor
