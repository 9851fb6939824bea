import RxSolutions.Host.Store

/-!
# The command gate as a program over an environment

Every entry point of the gate runs under one lock, so a call is a sequential
program. What it reads from outside (the clock, the native adapter, the store's
health) is a stream of answers, one for each effect, and any answer may say that the
process dies at that point. A call that dies keeps the store as it was and loses the
volatile core.

`Disk.entries` logs each entry into native submission together with the store and
the core at that moment. It records what the gate did and is read by no entry point.
-/

namespace RxSolutions.Host

open Domain Durable

/-- The volatile part of a running host. `bindings` is in cell order. -/
structure Core where
  boot : Id
  bindings : List Binding
  caller : Option Caller
  armed : Finset Name

/-- One entry into native submission: what the adapter was given, the request it was
made for with the clock reading and the guard it was last checked against, and the
core and the store at that moment. -/
structure NativeEntry where
  operation : Id
  invocation : Id
  intent : Intent
  context : NativeDispatch
  request : Request
  checkedAt : TimePoint
  guard : Guard
  core : Core
  store : Store

/-- What outlives a process: its store, the entries into native submission made so far,
and the number of identifiers generated so far. -/
structure Disk where
  store : Store
  entries : List NativeEntry
  drawn : ℕ

/-- A running host. -/
structure Machine extends Disk where
  core : Core

/-- What the environment answers to one effect. Each effect reads its own field. -/
structure Answer where
  crash : Bool
  stop : Bool
  fault : Option StoreError
  now : TimePoint
  guard : Except HostError Guard
  canHandover : Bool
  handover : Except HostError LocalHandover
  capture : Except HostError NativeCapture
  found : Except HostError (Option NativeCapture)
  shutdown : Option NativeShutdown
  healthy : Bool

/-- A machine, its admission latch, and the answers it will get. -/
structure GateState where
  machine : Machine
  accepting : Bool
  answers : ℕ → Answer
  tick : ℕ

/-- How a call ends without a result. -/
inductive Failure
  | crashed
  | refused (error : HostError)
  deriving DecidableEq

/-- A call of the host: it may be refused, and the process may end in it. -/
abbrev Gate (α : Type) := Program GateState Failure α

/-! ## Effects -/

/-- The next answer. The process may die here, and another thread may have closed the
admission latch. -/
def answer : Gate Answer := do
  let s ← get
  let a := s.answers s.tick
  set { s with tick := s.tick + 1, accepting := s.accepting && !a.stop }
  ensure (a.crash = false) .crashed
  return a

/-- A refusal. -/
def refuse {α : Type} (e : HostError) : Gate α := throw (.refused e)

/-- Refuse with `e` unless `p` holds. -/
def require (p : Prop) [Decidable p] (e : HostError) : Gate Unit := ensure p (.refused e)

/-- The core of the running host. -/
def core : Gate Core := do
  return (← get).machine.core

/-- Change what the process keeps in memory. -/
def setCore (c : Core) : Gate Unit :=
  modify fun s => { s with machine := { s.machine with core := c } }

/-- `Repository::transact`: commit all writes of the body, or none if it fails. -/
def transactWith {α : Type} (f : StoreError → HostError) (t : Tx α) : Gate α := do
  match (← answer).fault with
  | some e => refuse (f e)
  | none =>
    let s ← get
    match t s.machine.store with
    | (.ok v, store) =>
      set { s with machine := { s.machine with store := store } }
      return v
    | (.error e, _) => refuse (f e)

/-- A transaction of the host's store. -/
def transact {α : Type} (t : Tx α) : Gate α := transactWith .store t

/-- `Repository::journal_head`. -/
def journalHead : Gate Counter :=
  transact do return (← MonadState.get).journalHead

/-- `Repository::events_after`. -/
def eventsAfter (after : Counter) (limit : ℕ) : Gate (List (Counter × Id × EvidenceRecord)) :=
  transact do
    ensure (0 < limit ∧ limit ≤ 128) (.invalid "event batch must be 1..128")
    return (← MonadState.get).eventsAfter after limit

/-- `id()`: an identifier never generated before. -/
def drawId [Ideal] : Gate Id := do
  let s ← get
  set { s with machine := { s.machine with drawn := s.machine.drawn + 1 } }
  return Ideal.freshId s.machine.drawn

/-- The reading of the host's clock. -/
def clockNow : Gate TimePoint := do
  return (← answer).now

/-- An answer of the adapter that may be an error. -/
def replied {α : Type} (r : Except HostError α) : Gate α :=
  match r with
  | .ok a => pure a
  | .error e => refuse e

/-- The guard of the device for an intent. -/
def nativeGuard (_intent : Intent) (_now : TimePoint) : Gate Guard := do
  replied (← answer).guard

/-- Whether the device can be handed over. -/
def canHandover (_resources : List Name) : Gate Bool := do
  return (← answer).canHandover

/-- The device's report on a handover. -/
def handoverSnapshot (_resources : List Name) : Gate (Except HostError LocalHandover) := do
  return (← answer).handover

/-- The final status of an operation, if the device has it. -/
def nativeLookup (_operation _invocation : Id) : Gate (Option NativeCapture) := do
  replied (← answer).found

/-- Log an entry into native submission. -/
def Machine.enter (h : Machine) (entry : Core → Store → NativeEntry) : Machine :=
  { h with entries := h.entries ++ [entry h.core h.store] }

/-- `NativeAdapter::submit_with_context`. The process may die before the call, and
after it was entered. -/
def submitWithContext (entry : Core → Store → NativeEntry) : Gate NativeCapture := do
  let _ ← answer
  modify fun s => { s with machine := s.machine.enter entry }
  replied (← answer).capture

/-- `require_admission`: the latch is read without the lock. -/
def requireAdmission : Gate Unit := do
  let _ ← answer
  let s ← get
  require s.accepting .guard

/-- The latch is closed: `accepting.load` says no. -/
def requireStopping : Gate Unit := do
  let _ ← answer
  let s ← get
  require (s.accepting = false) .guard

/-- `prepare_shutdown` and then `shutdown_snapshot`; `none` if either fails. -/
def nativeShutdown (_resources : List Name) : Gate (Option NativeShutdown) := do
  return (← answer).shutdown

/-- `Clock::healthy`. -/
def clockHealthy : Gate Bool := do
  return (← answer).healthy

/-! ## Checks shared by the entry points -/

/-- `authorized`: the caller is the bound platform session. -/
def authorized (caller : Caller) : Gate Unit := do
  require ((← core).caller = some caller) .forbidden

/-- `validate_scopes`. -/
def validateScopes (binding : Binding) (scopes : Counters) : Gate Unit :=
  require (scopes.keys = binding.scopeIds.toFinset ∧ scopes.Positive) .stale

/-- `before`: a point strictly earlier on the same clock. -/
def before (now until_ : TimePoint) : Prop :=
  now.clockId = until_.clockId ∧ now.ticksNs < until_.ticksNs

instance (now until_ : TimePoint) : Decidable (before now until_) :=
  inferInstanceAs (Decidable (now.clockId = until_.clockId ∧ now.ticksNs < until_.ticksNs))

/-- The binding of a cell. -/
def Core.binding (c : Core) (cell : Name) : Option Binding :=
  c.bindings.find? fun b => b.cell = cell

/-- The cells the host is bound to. -/
def Core.cells (c : Core) : List Name := c.bindings.map Binding.cell

/-- Every resource an approved intent uses, in ascending order. -/
def Core.resources (c : Core) : List Name :=
  sorted (c.bindings.flatMap fun b => b.allowedIntents.flatMap Intent.resourceSet).dedup

/-! ## What an effect can do to a machine -/

namespace Gate

variable {α β : Type}

/-- Every run of `m` from the machine `h`, whatever the environment answers. -/
abbrev Runs (m : Gate α) (ok : α → Machine → Prop) (err : Failure → Machine → Prop)
    (h : Machine) : Prop :=
  Program.Always GateState.machine m ok err h

/-- Every run of `m` leaves the machine `h` alone, and a returned value satisfies `p`. -/
abbrev Reads (m : Gate α) (p : α → Prop) (h : Machine) : Prop :=
  Program.Reads GateState.machine m p h

variable {ok : α → Machine → Prop} {err : Failure → Machine → Prop} {h : Machine}

namespace Runs

theorem answer {ok : Answer → Machine → Prop} (hok : ∀ a, ok a h) (hcrash : err .crashed h) :
    Runs Host.answer ok err h := by
  rintro s rfl
  simp only [Host.answer, Program.wp_bind, Program.wp_get, Program.wp_set, Program.wp_ensure,
    Program.wp_pure]
  exact ⟨fun _ => hok _, fun _ => hcrash⟩

theorem refuse {e : HostError} (he : err (.refused e) h) : Runs (Host.refuse e) ok err h :=
  Program.Always.throw he

theorem setCore {ok : Unit → Machine → Prop} {c : Core} (hok : ok () { h with core := c }) :
    Runs (Host.setCore c) ok err h := by
  rintro s rfl
  exact hok

/-- A transaction fails and leaves the store, or commits what its body wrote. -/
theorem transactWith {f : StoreError → HostError} {t : Tx α}
    (hok : t.Commits (fun a store => ok a { h with store := store }) h.store)
    (herr : ∀ e, err e h) : Runs (Host.transactWith f t) ok err h := by
  refine Program.Always.bind (answer (fun a => ?_) (herr _))
  rcases a.fault with _ | e
  · rintro s rfl
    simp only [Program.wp_bind, Program.wp_get]
    rcases ht : t s.machine.store with ⟨r, store⟩
    simp only [Program.Commits, Program.wp, ht] at hok
    cases r with
    | ok a => exact hok
    | error e => exact herr _
  · exact refuse (herr _)

theorem transact {t : Tx α}
    (hok : t.Commits (fun a store => ok a { h with store := store }) h.store)
    (herr : ∀ e, err e h) : Runs (Host.transact t) ok err h :=
  transactWith hok herr

theorem drawId [Ideal] {ok : Id → Machine → Prop}
    (hok : ok (Ideal.freshId h.drawn) { h with drawn := h.drawn + 1 }) :
    Runs Host.drawId ok err h := by
  rintro s rfl
  exact hok

theorem submitWithContext {ok : NativeCapture → Machine → Prop}
    {entry : Core → Store → NativeEntry} (hok : ∀ c, ok c (h.enter entry))
    (herr : ∀ e, err e (h.enter entry)) (hcrash : err .crashed h) :
    Runs (Host.submitWithContext entry) ok err h := by
  have hreply : Runs (do Host.replied (← Host.answer).capture) ok err (h.enter entry) := by
    refine Program.Always.bind (answer (fun a => ?_) (herr .crashed))
    cases a.capture with
    | ok c => exact Program.Always.pure (hok c)
    | error e => exact refuse (herr _)
  refine Program.Always.bind (answer (fun _ => ?_) hcrash)
  refine Program.Always.bind ?_
  rintro s rfl
  exact hreply

end Runs

namespace Reads

variable {p q : α → Prop} {m : Gate α}

/-- What follows a program that only reads starts from the same machine. -/
theorem bind {p : β → Prop} {m : Gate β} {f : β → Gate α} (hm : Reads m p h)
    (herr : ∀ e, err e h) (hf : ∀ b, p b → Runs (f b) ok err h) : Runs (m >>= f) ok err h :=
  Program.Reads.bind hm herr hf

theorem seq {q : β → Prop} {m : Gate β} {f : β → Gate α} (hm : Reads m q h)
    (hf : ∀ b, q b → Reads (f b) p h) : Reads (m >>= f) p h :=
  Program.Reads.seq hm hf

theorem mono (hm : Reads m p h) (hpq : ∀ a, p a → q a) : Reads m q h :=
  Program.Reads.mono hm hpq

theorem runs (hm : Reads m p h) (hok : ∀ a, p a → ok a h) (herr : ∀ e, err e h) :
    Runs m ok err h :=
  Program.Reads.runs hm hok herr

theorem pure {a : α} (ha : p a) : Reads (Pure.pure a) p h := Program.Reads.pure ha

theorem refuse {e : HostError} : Reads (Host.refuse e) p h := Program.Reads.throw

theorem answer : Reads Host.answer (fun _ => True) h :=
  Runs.answer (fun _ => ⟨rfl, trivial⟩) rfl

theorem core : Reads Host.core (· = h.core) h := by
  rintro s rfl
  exact ⟨rfl, rfl⟩

theorem require {p : Prop} [Decidable p] {e : HostError} :
    Reads (Host.require p e) (fun _ => p) h :=
  Program.Reads.ensure

theorem replied {r : Except HostError α} : Reads (Host.replied r) (fun a => r = .ok a) h := by
  cases r with
  | ok a => exact pure rfl
  | error e => exact refuse

theorem transactWith {f : StoreError → HostError} {t : Tx α}
    (ht : t.Commits (fun a s => s = h.store ∧ p a) h.store) : Reads (Host.transactWith f t) p h :=
  Runs.transactWith (ht.mono fun _ _ hs => ⟨by rw [hs.1], hs.2⟩) fun _ => rfl

theorem transact {t : Tx α} (ht : t.Commits (fun a s => s = h.store ∧ p a) h.store) :
    Reads (Host.transact t) p h :=
  transactWith ht

/-- Reading one row. -/
theorem row (k : Key) : Reads (Host.transact (Tx.get k)) (· = h.store.get k) h :=
  transact ⟨rfl, rfl⟩

theorem journalHead : Reads Host.journalHead (· = h.store.events.length) h :=
  transact ⟨rfl, rfl⟩

theorem eventsAfter {after : Counter} {limit : ℕ} :
    Reads (Host.eventsAfter after limit) (· = h.store.eventsAfter after limit) h := by
  refine transact ?_
  simp only [Program.commits_bind, Program.commits_ensure]
  intro _
  exact ⟨rfl, rfl⟩

theorem clockNow : Reads Host.clockNow (fun _ => True) h :=
  answer.seq fun _ _ => pure trivial

theorem nativeGuard {intent : Intent} {now : TimePoint} :
    Reads (Host.nativeGuard intent now) (fun _ => True) h :=
  answer.seq fun _ _ => replied.mono fun _ _ => trivial

theorem canHandover {resources : List Name} :
    Reads (Host.canHandover resources) (fun _ => True) h :=
  answer.seq fun _ _ => pure trivial

theorem handoverSnapshot {resources : List Name} :
    Reads (Host.handoverSnapshot resources) (fun _ => True) h :=
  answer.seq fun _ _ => pure trivial

theorem nativeLookup {operation invocation : Id} :
    Reads (Host.nativeLookup operation invocation) (fun _ => True) h :=
  answer.seq fun _ _ => replied.mono fun _ _ => trivial

theorem nativeShutdown {resources : List Name} :
    Reads (Host.nativeShutdown resources) (fun _ => True) h :=
  answer.seq fun _ _ => pure trivial

theorem clockHealthy : Reads Host.clockHealthy (fun _ => True) h :=
  answer.seq fun _ _ => pure trivial

/-- A fold that only reads returns only if every round does. -/
theorem foldlM {γ : Type} {f : α → γ → Gate α} {l : List γ} {p : γ → Prop} {a : α}
    (hf : ∀ a, ∀ c ∈ l, Reads (f a c) (fun _ => p c) h) :
    Reads (l.foldlM f a) (fun _ => ∀ c ∈ l, p c) h := by
  induction l generalizing a with
  | nil => exact pure (by simp)
  | cons c l ih =>
    rw [List.foldlM_cons]
    refine (hf a c List.mem_cons_self).seq fun b hc => ?_
    exact (ih fun a d hd => hf a d (List.mem_cons_of_mem c hd)).mono fun _ hl =>
      List.forall_mem_cons.mpr ⟨hc, hl⟩

theorem requireAdmission : Reads Host.requireAdmission (fun _ => True) h := by
  refine answer.seq fun _ _ => ?_
  rintro s rfl
  exact (require.mono fun _ _ => trivial) s rfl

theorem requireStopping : Reads Host.requireStopping (fun _ => True) h := by
  refine answer.seq fun _ _ => ?_
  rintro s rfl
  exact (require.mono fun _ _ => trivial) s rfl

theorem authorized {caller : Caller} :
    Reads (Host.authorized caller) (fun _ => h.core.caller = some caller) h :=
  core.seq fun _ hc => hc ▸ require

theorem validateScopes {binding : Binding} {scopes : Counters} :
    Reads (Host.validateScopes binding scopes)
      (fun _ => scopes.keys = binding.scopeIds.toFinset ∧ scopes.Positive) h :=
  require

end Reads

/-! ### An environment that does not fail -/

/-- The environment neither ends the process nor fails the store. -/
def Reliable (answers : ℕ → Answer) : Prop :=
  ∀ n, (answers n).crash = false ∧ (answers n).fault = none

/-- In a reliable environment, `m` returns from the machine `h`, into `ok`. -/
def Returns (m : Gate α) (ok : α → Machine → Prop) (h : Machine) : Prop :=
  ∀ s, s.machine = h → Reliable s.answers →
    Program.wp m (fun a t => ok a t.machine ∧ Reliable t.answers) (fun _ _ => False) s

namespace Returns

variable {m : Gate β} {f : β → Gate α} {mid : β → Machine → Prop}

theorem pure {a : α} (hok : ok a h) : Returns (Pure.pure a) ok h := by
  rintro s rfl hs
  exact ⟨hok, hs⟩

theorem bind (hm : Returns m mid h) (hf : ∀ b t, mid b t → Returns (f b) ok t) :
    Returns (m >>= f) ok h := by
  intro s hs hreliable
  rw [Program.wp_bind]
  exact Program.wp_mono (hm s hs hreliable) (fun b t hb => hf b _ hb.1 t rfl hb.2) fun _ _ => id

theorem core : Returns Host.core (fun c t => c = h.core ∧ t = h) h := by
  rintro s rfl hs
  exact ⟨⟨rfl, rfl⟩, hs⟩

theorem require {p : Prop} [Decidable p] {e : HostError} (hp : p) :
    Returns (Host.require p e) (fun _ t => t = h) h := by
  rintro s rfl hs
  exact Program.wp_ensure.mpr ⟨fun _ => ⟨rfl, hs⟩, fun hn => hn hp⟩

theorem authorized {caller : Caller} (hcaller : h.core.caller = some caller) :
    Returns (Host.authorized caller) (fun _ t => t = h) h := by
  refine bind core ?_
  rintro _ _ ⟨rfl, rfl⟩
  exact require hcaller

/-- A transaction whose body returns commits it. -/
theorem transact {t : Tx α}
    (ht : Program.wp t (fun a store => ok a { h with store := store }) (fun _ _ => False) h.store) :
    Returns (Host.transact t) ok h := by
  rintro s rfl hs
  obtain ⟨hcrash, hfault⟩ := hs s.tick
  simp only [Host.transact, Host.transactWith, Host.answer, Program.wp_bind, Program.wp_get,
    Program.wp_set, Program.wp_ensure, Program.wp_pure]
  refine ⟨fun _ => ?_, fun hn => absurd hcrash hn⟩
  rw [hfault]
  simp only [Program.wp_bind, Program.wp_get]
  rcases htx : t s.machine.store with ⟨r, store⟩
  simp only [Program.wp, htx] at ht
  cases r with
  | ok a => exact ⟨ht, hs⟩
  | error e => exact ht.elim

end Returns

end Gate

end RxSolutions.Host
