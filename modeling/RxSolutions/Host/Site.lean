import RxSolutions.Host.Changes
import RxSolutions.Host.Records

/-!
# A host store under its service

A site is a store with its files, used only through the service and its tools. A run of the
service holds the runtime lock from before its startup marker is written until it ends; its
gate is open from `openHost` on. Every tool needs that lock, so it works only while no service
runs. Inputs come one at a time, since each holds a lock on the store: calls interleave freely
with the two halves of `seal_service_stop`, and any input may be cut short.
-/

namespace RxSolutions.Host

open Domain Durable Program Relation

/-- A run of the service: its startup attempt, its configuration, and the stop snapshot it is
about to seal. -/
structure Service where
  attempt : Id
  loaded : Loaded
  snapshot : Option StopSnapshot

/-- A store with its files, and the run of the service that holds the runtime lock. -/
structure Site extends World where
  files : Files
  service : Option Service

/-- A store that differs in bookkeeping only is one commit away. -/
theorem Disk.moves_of_frame [Ideal] {d : Disk} {s : Store} {touched : Key → Prop}
    (frame : Repository.Frame touched d.store s)
    (h : ∀ k, touched k → k.bookkeeping = true) : Disk.Moves d { d with store := s } :=
  .single (.booked (frame.mono h))

theorem Sealed.moves [Ideal] [ServiceIdeal] {h h' : Machine} {snapshot : StopSnapshot}
    {stop : StopSeal} (hs : Sealed h snapshot stop h') : Disk.Moves h.toDisk h'.toDisk := by
  have hmoves : Disk.Moves h.toDisk { h.toDisk with store := h'.store } := by
    refine Disk.moves_of_frame hs.frame ?_
    rintro k (rfl | ⟨attempt, rfl⟩) <;> rfl
  have hrest : h'.toDisk = { h.toDisk with store := h'.store } :=
    congrArg Machine.toDisk hs.rest
  rwa [hrest]

namespace Site

variable {α : Type}

/-- What a tool sees of a site. -/
def installed (s : Site) : Installed := ⟨s.store, s.files⟩

/-- What the service does, or a run of an offline tool. -/
inductive Input
  | startup (loaded : Loaded) (replies : ℕ → Reply)
  | openHost (environment : Environment) (answers : ℕ → Answer)
  | call (call : Call) (answers : ℕ → Answer)
  | requestStop
  | snapshot (answers : ℕ → Answer)
  | sealStop (answers : ℕ → Answer)
  | exit
  | prepare (plan : Plan) (current proposed : Loaded) (request : Id) (replies : ℕ → Reply)
  | cancel (current : Loaded) (request : Id) (replies : ℕ → Reply)
  | commit (plan : Plan) (current proposed : Loaded) (request : Id) (replies : ℕ → Reply)

/-- Run a tool. It is refused while a service holds the lock. -/
def offline (s : Site) (m : Offline α) (replies : ℕ → Reply) : Except Halt α × Site :=
  match s.service with
  | some _ =>
    (.error (.refused ("host/runtime-ownership-unavailable; service admission refused; " ++
      "owner identity is not established")), s)
  | none =>
    match m ⟨s.installed, replies, 0⟩ with
    | (r, t) => (r, { s with store := t.installed.store, files := t.installed.files })

/-- Run a program of the gate in the process `p`. A process that dies ends the service with it.
No program opens the admission latch again. -/
def gate (s : Site) (p : Process) (m : Gate α) (answers : ℕ → Answer) : Except Failure α × Site :=
  match m ⟨s.machine p, p.accepting, answers, 0⟩ with
  | (.error .crashed, t) => (.error .crashed,
      { t.machine.toDisk with process := none, files := s.files, service := none })
  | (r, t) => (r, { t.machine.toDisk with
      process := some ⟨t.machine.core, p.accepting && t.accepting⟩
      files := s.files
      service := s.service })

variable [Ideal] [ServiceIdeal]

/-- `run_with` up to its startup marker, under a new attempt. -/
def startup (s : Site) (loaded : Loaded) (replies : ℕ → Reply) : Except Halt Unit × Site :=
  let attempt := Ideal.freshId s.drawn
  match { s with drawn := s.drawn + 1 }.offline (runStartup loaded attempt) replies with
  | (.ok _, t) => (.ok (), { t with service := some ⟨attempt, loaded, none⟩ })
  | (.error e, t) => (.error e, t)

/-- `Host::open` of the service that has marked its startup. -/
def openHost (s : Site) (environment : Environment) (answers : ℕ → Answer) : Site :=
  match s.service, s.process with
  | some v, none =>
    let w := s.toWorld.start environment v.loaded.bindings answers
    { w with files := s.files, service := if w.process.isSome then some v else none }
  | _, _ => s

/-- The first half of `seal_service_stop`. -/
def snapshot (s : Site) (answers : ℕ → Answer) : Except Failure StopSnapshot × Site :=
  match s.process with
  | none => (.error .crashed, s)
  | some p =>
    match s.gate p serviceStopSnapshot answers with
    | (.ok snapshot, t) => (.ok snapshot,
        { t with service := t.service.map fun v => { v with snapshot := some snapshot } })
    | (.error e, t) => (.error e, t)

/-- The second half of `seal_service_stop`. -/
def sealStop (s : Site) (answers : ℕ → Answer) : Except Failure StopSeal × Site :=
  match s.process, s.service with
  | some p, some ⟨attempt, loaded, some snapshot⟩ =>
    s.gate p (sealServiceStop loaded.identity (ServiceIdeal.startupDigest loaded.config) attempt
      snapshot) answers
  | _, _ => (.error .crashed, s)

/-- A call of the gate. -/
def call (s : Site) (c : Call) (answers : ℕ → Answer) : Except Failure c.Reply × Site :=
  match s.process with
  | none => (.error .crashed, s)
  | some p => s.gate p c.exec answers

/-- One input. -/
def step (s : Site) : Input → Site
  | .startup loaded replies => (s.startup loaded replies).2
  | .openHost environment answers => s.openHost environment answers
  | .call c answers => (s.call c answers).2
  | .requestStop => { s with process := s.process.map fun p => { p with accepting := false } }
  | .snapshot answers => (s.snapshot answers).2
  | .sealStop answers => (s.sealStop answers).2
  | .exit => { s with process := none, service := none }
  | .prepare plan current proposed request replies =>
    (s.offline (prepareInner plan current proposed request) replies).2
  | .cancel current request replies => (s.offline (Host.cancel current request) replies).2
  | .commit plan current proposed request replies =>
    (s.offline (commitInner plan current proposed request) replies).2

/-- Inputs one after the other. -/
abbrev steps (s : Site) (inputs : List Input) : Site := Durable.Runs.after step s inputs

/-- What an installation starts from: its descriptor, and how its store was opened. -/
structure Setup where
  descriptor : Installation
  environment : Environment
  bindings : List Binding
  answers : ℕ → Answer

/-- The site that `initialize_with` leaves. -/
def install (o : Setup) : Site where
  toDisk := (World.empty.start o.environment o.bindings o.answers).toDisk
  process := none
  files := ⟨o.descriptor, fun _ => none⟩
  service := none

/-- The site after the inputs. -/
def run (o : Setup) (inputs : List Input) : Site := (install o).steps inputs

/-- The input begins a new startup. -/
def Starts (s : Site) (i : Input) : Prop :=
  ∃ loaded replies, i = .startup loaded replies ∧ (s.startup loaded replies).1 = .ok ()

/-- None of the inputs begins a new startup. -/
def NoStartup (s : Site) (inputs : List Input) : Prop :=
  ∀ a i b, inputs = a ++ i :: b → ¬ (s.steps a).Starts i

section Steps

variable {s : Site} {i : Input} {o : Setup}

theorem run_append (o : Setup) (before after : List Input) :
    run o (before ++ after) = (run o before).steps after :=
  Durable.Runs.after_append ..

theorem run_concat (o : Setup) (inputs : List Input) (i : Input) :
    run o (inputs ++ [i]) = (run o inputs).step i :=
  Durable.Runs.after_concat ..

theorem NoStartup.nil (s : Site) : s.NoStartup [] := by
  intro a i b h
  simp at h

theorem NoStartup.concat {inputs : List Input} (h : s.NoStartup inputs)
    (hi : ¬ (s.steps inputs).Starts i) : s.NoStartup (inputs ++ [i]) := by
  intro a j b heq
  rcases List.eq_nil_or_concat b with rfl | ⟨b', x, rfl⟩
  · obtain ⟨rfl, hij⟩ := List.append_inj' heq rfl
    cases hij
    exact hi
  · refine h a j b' ?_
    have heq' : inputs ++ [i] = (a ++ j :: b') ++ [x] := by simpa using heq
    exact (List.append_inj' heq' rfl).1

theorem NoStartup.of_concat {inputs : List Input} (h : s.NoStartup (inputs ++ [i])) :
    s.NoStartup inputs ∧ ¬ (s.steps inputs).Starts i :=
  ⟨fun a j b heq => h a j (b ++ [i]) (by simp [heq]), h inputs i [] rfl⟩

end Steps

/-! ## What an input can do -/

/-- What running a program of the gate can do to a site. -/
inductive Ran (s : Site) (p : Process) (ok : α → Machine → Prop) (err : Failure → Machine → Prop) :
    Except Failure α × Site → Prop
  | died {h : Machine} (stopped : err .crashed h) :
      Ran s p ok err (.error .crashed,
        { h.toDisk with process := none, files := s.files, service := none })
  | refused {e : HostError} {h : Machine} {accepting : Bool} (stopped : err (.refused e) h) :
      Ran s p ok err (.error (.refused e), { h.toDisk with
        process := some ⟨h.core, p.accepting && accepting⟩
        files := s.files
        service := s.service })
  | returned {v : α} {h : Machine} {accepting : Bool} (done : ok v h) :
      Ran s p ok err (.ok v, { h.toDisk with
        process := some ⟨h.core, p.accepting && accepting⟩
        files := s.files
        service := s.service })

section Cases

variable {s : Site} {p : Process} {ok : α → Machine → Prop} {err : Failure → Machine → Prop}

omit [Ideal] [ServiceIdeal] in
/-- A program of the gate dies, is refused or returns. -/
theorem gate_cases {m : Gate α} (hrun : Gate.Runs m ok err (s.machine p)) (answers : ℕ → Answer) :
    Ran s p ok err (s.gate p m answers) := by
  rcases hexec : m ⟨s.machine p, p.accepting, answers, 0⟩ with ⟨r, t⟩
  simp only [gate, hexec]
  rcases r with (_ | e) | v
  · exact .died (Always.stops hrun hexec)
  · exact .refused (Always.stops hrun hexec)
  · exact .returned (Always.returns hrun hexec)

/-- What running a tool can do to a site. -/
inductive Worked (s : Site) (ok : α → Installed → Prop) (err : Halt → Installed → Prop) :
    Except Halt α × Site → Prop
  | contended {e : Halt} (busy : s.service ≠ none) : Worked s ok err (.error e, s)
  | halted {e : Halt} {i : Installed} (idle : s.service = none) (stopped : err e i) :
      Worked s ok err (.error e, { s with store := i.store, files := i.files })
  | returned {v : α} {i : Installed} (idle : s.service = none) (done : ok v i) :
      Worked s ok err (.ok v, { s with store := i.store, files := i.files })

omit [Ideal] [ServiceIdeal] in
/-- A tool finds the lock taken, halts or returns. -/
theorem offline_cases {m : Offline α} {ok : α → Installed → Prop} {err : Halt → Installed → Prop}
    (hrun : Offline.Runs m ok err s.installed) (replies : ℕ → Reply) :
    Worked s ok err (s.offline m replies) := by
  cases hservice : s.service with
  | some v =>
    simp only [offline, hservice]
    exact .contended (by simp [hservice])
  | none =>
    rcases hexec : m ⟨s.installed, replies, 0⟩ with ⟨r, t⟩
    have heq : s.offline m replies =
        (r, { s with store := t.installed.store, files := t.installed.files }) := by
      simp only [offline, hservice, hexec]
    rw [heq]
    cases r with
    | ok v => exact .returned hservice (Always.returns hrun hexec)
    | error e => exact .halted hservice (Always.stops hrun hexec)

/-- What an attempt to start the service can do to a site. -/
inductive Started (s : Site) (loaded : Loaded) : Except Halt Unit × Site → Prop
  | refused {e : Halt} : Started s loaded (.error e, { s with drawn := s.drawn + 1 })
  | begun {store : Store} (idle : s.service = none)
      (begun : Begun s.store loaded.identity (ServiceIdeal.startupDigest loaded.config)
        (Ideal.freshId s.drawn) store) :
      Started s loaded (.ok (), { s with
        drawn := s.drawn + 1
        store := store
        service := some ⟨Ideal.freshId s.drawn, loaded, none⟩ })

omit [ServiceIdeal] in
/-- The first half of `seal_service_stop` is a call of the gate. -/
theorem snapshot_toWorld (hp : s.process = some p) (answers : ℕ → Answer) :
    (s.snapshot answers).2.toWorld =
      (s.gate p (Call.exec .serviceStopSnapshot) answers).2.toWorld := by
  have hexec : Call.exec .serviceStopSnapshot = serviceStopSnapshot := rfl
  simp only [snapshot, hp, hexec]
  rcases s.gate p serviceStopSnapshot answers with ⟨_ | v, t⟩ <;> rfl

omit [Ideal] in
/-- The second half of `seal_service_stop` does nothing, or runs under the snapshot of the first. -/
theorem sealStop_cases (s : Site) (answers : ℕ → Answer) :
    s.sealStop answers = (.error .crashed, s) ∨ ∃ p v snapshot, s.process = some p ∧
      s.service = some v ∧ v.snapshot = some snapshot ∧
      Ran s p (Sealed (s.machine p) snapshot) (fun _ h => h = s.machine p)
      (s.sealStop answers) := by
  simp only [sealStop]
  split
  · next p attempt loaded snapshot hp hv =>
    exact .inr ⟨p, ⟨attempt, loaded, some snapshot⟩, snapshot, hp, hv, rfl,
      gate_cases sealServiceStop_runs answers⟩
  · exact .inl rfl

/-- A startup is refused, or leaves its marker. -/
theorem startup_cases (s : Site) (loaded : Loaded) (replies : ℕ → Reply) :
    Started s loaded (s.startup loaded replies) := by
  have hcases := offline_cases (s := { s with drawn := s.drawn + 1 })
    (@runStartup_runs _ _ loaded (Ideal.freshId s.drawn)) replies
  simp only [startup]
  generalize offline _ _ replies = r at hcases ⊢
  cases hcases with
  | contended busy => exact .refused
  | halted idle stopped => subst stopped; exact .refused
  | returned idle done =>
    obtain ⟨store, rfl, hbegun⟩ := done
    exact .begun idle hbegun

/-- What opening the host can do to a site. -/
inductive HostOpened (s : Site) : Site → Prop
  | ignored : HostOpened s s
  | failed {n : ℕ} (le : s.drawn ≤ n) :
      HostOpened s { s with drawn := n, process := none, service := none }
  | opened {v : Service} {h : Machine} {accepting : Bool} (running : s.service = some v)
      (idle : s.process = none) (step : OpenStep s.toDisk h) :
      HostOpened s { h.toDisk with
        process := some ⟨h.core, accepting⟩
        files := s.files
        service := some v }

omit [ServiceIdeal] in
theorem openHost_cases (s : Site) (environment : Environment) (answers : ℕ → Answer) :
    HostOpened s (s.openHost environment answers) := by
  cases hservice : s.service with
  | none => simp only [openHost, hservice]; exact .ignored
  | some v =>
    cases hprocess : s.process with
    | some p => simp only [openHost, hservice, hprocess]; exact .ignored
    | none =>
      simp only [openHost, hservice, hprocess]
      rcases s.toWorld.start_cases environment v.loaded.bindings answers with
        ⟨h, accepting, hopen, heq⟩ | ⟨n, hn, heq⟩ <;> simp only [heq]
      · exact .opened hservice hprocess hopen
      · exact .failed hn

/-- The inputs that run a tool. -/
def Input.tool : Input → Bool
  | .prepare .. | .cancel .. | .commit .. => true
  | _ => false

/-- A tool makes atomic changes to the store and the files. -/
inductive Altered (s : Site) : Site → Prop
  | mk {i : Installed} (alters : s.installed.Alters i) :
      Altered s { s with store := i.store, files := i.files }

omit [Ideal] in
theorem Worked.altered {ok : α → Installed → Prop} {err : Halt → Installed → Prop}
    {r : Except Halt α × Site} (hw : Worked s ok err r)
    (hok : ∀ v i, ok v i → Installed.Alters s.installed i)
    (herr : ∀ e i, err e i → Installed.Alters s.installed i) : Altered s r.2 := by
  cases hw with
  | contended => exact .mk .refl
  | halted idle stopped => exact .mk (herr _ _ stopped)
  | returned idle done => exact .mk (hok _ _ done)

theorem tool_cases {i : Input} (hi : i.tool = true) : Altered s (s.step i) := by
  cases i with
  | prepare plan current proposed request replies =>
    refine (offline_cases prepareInner_runs replies).altered ?_ ?_
    · rintro p i (⟨rfl, -⟩ | ⟨store, rfl, happroved⟩)
      · exact .refl
      · exact .single happroved.alter
    · rintro _ _ rfl
      exact .refl
  | cancel current request replies =>
    refine (offline_cases cancel_runs replies).altered (fun _ _ h => h.1.alters) ?_
    rintro _ _ rfl
    exact .refl
  | commit plan current proposed request replies =>
    exact (offline_cases commitInner_runs replies).altered (fun _ _ h => h.1.alters)
      fun _ _ h => h.1.alters
  | _ => cases hi

end Cases

/-! ## Runs are made of commits -/

omit [Ideal] [ServiceIdeal] in
theorem bookkeeping_of_touched {k : Key} (h : Installed.Touched k) : k.bookkeeping = true := by
  rcases h with h | ⟨cell, rfl⟩
  · cases k <;> simp_all [Key.maintains, Key.bookkeeping]
  · rfl

section Moves

variable {s : Site} {i : Input}

omit [ServiceIdeal] in
theorem Ran.moves {p : Process} {ok : α → Machine → Prop} {err : Failure → Machine → Prop}
    {r : Except Failure α × Site} (hr : Ran s p ok err r)
    (hok : ∀ v h, ok v h → Disk.Moves s.toDisk h.toDisk)
    (herr : ∀ e h, err e h → Disk.Moves s.toDisk h.toDisk) : Disk.Moves s.toDisk r.2.toDisk := by
  cases hr with
  | died stopped | refused stopped => exact herr _ _ stopped
  | returned done => exact hok _ _ done

theorem Altered.moves {t : Site} (h : Altered s t) : Disk.Moves s.toDisk t.toDisk := by
  cases h with
  | mk alters => exact Disk.moves_of_frame alters.frame fun _ => bookkeeping_of_touched

/-- Every input makes commits. -/
theorem step_moves (hs : s.Regular) (i : Input) : Disk.Moves s.toDisk (s.step i).toDisk := by
  cases i with
  | startup loaded replies =>
    have hcases := s.startup_cases loaded replies
    simp only [step]
    generalize s.startup loaded replies = r at hcases
    cases hcases with
    | refused => exact .single (.drew (Nat.le_succ _))
    | begun idle hbegun =>
      refine ReflTransGen.trans (.single (.drew (Nat.le_succ _)))
        (Disk.moves_of_frame (d := { s.toDisk with drawn := s.drawn + 1 }) hbegun.frame ?_)
      rintro k (rfl | rfl) <;> rfl
  | openHost environment answers =>
    have hcases := s.openHost_cases environment answers
    simp only [step]
    generalize s.openHost environment answers = t at hcases
    cases hcases with
    | ignored => exact .refl
    | failed le => exact .single (.drew le)
    | opened running idle step => exact .single (.opened step)
  | call c answers =>
    simp only [step, Site.call]
    cases s.process with
    | none => exact .refl
    | some p =>
      have hrun := c.exec_runs (h := s.machine p) hs
      exact (gate_cases hrun answers).moves (fun _ _ h => h.moves) fun _ _ h => h.moves
  | requestStop => exact .refl
  | snapshot answers =>
    simp only [step]
    cases hp : s.process with
    | none => simp only [snapshot, hp]; exact .refl
    | some p =>
      have hrun := Call.exec_runs (h := s.machine p) .serviceStopSnapshot hs
      rw [snapshot_toWorld hp answers]
      exact (gate_cases hrun answers).moves (fun _ _ h => h.moves) fun _ _ h => h.moves
  | sealStop answers =>
    simp only [step]
    rcases s.sealStop_cases answers with heq | ⟨p, v, snapshot, -, -, -, hran⟩
    · rw [heq]
    · refine hran.moves (fun _ _ h => h.moves) ?_
      rintro _ _ rfl
      exact .refl
  | exit => exact .refl
  | prepare | cancel | commit => exact (tool_cases (by rfl)).moves

theorem steps_moves (hs : s.Regular) (inputs : List Input) :
    Disk.Moves s.toDisk (s.steps inputs).toDisk :=
  Durable.Runs.related (P := fun s : Site => s.Regular)
    (R := fun s s' => Disk.Moves s.toDisk s'.toDisk) (fun _ => .refl) (fun _ _ _ => .trans)
    (fun _ i hs => (step_moves hs i).regular hs) (fun _ i hs => step_moves hs i) hs inputs

end Moves

omit [ServiceIdeal] in
theorem install_reachable (o : Setup) : (install o).Reachable := by
  exact World.steps_moves (w := .empty) (Disk.Reachable.regular .refl)
    [.start o.environment o.bindings o.answers]

/-- The store of a site is one that commits lead to. -/
theorem run_reachable (o : Setup) (inputs : List Input) : (run o inputs).Reachable :=
  (install_reachable o).moves (steps_moves (install_reachable o).regular inputs)

theorem run_regular (o : Setup) (inputs : List Input) : (run o inputs).Regular :=
  (run_reachable o inputs).regular

end Site

end RxSolutions.Host
