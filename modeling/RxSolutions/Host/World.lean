import RxSolutions.Durable.Runs
import RxSolutions.Host.Run

/-!
# Worlds and their inputs

A world is a store on disk with at most one process on it. Inputs start a process,
call it, end it, or let offline maintenance write its own records while no process
runs. Each start and each call comes with the answers its environment will give,
which decide where it fails or dies, so a run is a list of inputs.

`Disk.Move` collects what any input can do to the disk, commit by commit.
-/

namespace RxSolutions.Host

open Domain Durable Program Relation

/-- A running process: its volatile core, and whether it still admits work. -/
structure Process where
  core : Core
  accepting : Bool

/-- A store with at most one process on it. -/
structure World extends Disk where
  process : Option Process

/-- The machine a process of the world runs on. -/
def World.machine (w : World) (p : Process) : Machine := { w.toDisk with core := p.core }

/-- A process that was not opened yet. -/
def Process.blank : Process := ⟨⟨"", [], none, ∅⟩, true⟩

/-- No process, and nothing stored. -/
def World.empty : World where
  store := .empty
  entries := []
  drawn := 0
  process := none

/-- A start, a call, the end of a process, or a document that maintenance writes. -/
inductive Input
  | start (environment : Environment) (bindings : List Binding) (answers : ℕ → Answer)
  | call (call : Call) (answers : ℕ → Answer)
  | stop
  | maintain (k : Key) (v : k.Doc)

variable [Ideal]

namespace World

/-- A call to the process `p`: its result, and the world after it. A process that dies is
gone, with what it kept in memory. -/
def call (w : World) (p : Process) (c : Call) (answers : ℕ → Answer) :
    Except Failure c.Reply × World :=
  match c.exec
    { machine := w.machine p, accepting := p.accepting, answers := answers, tick := 0 } with
  | (.error .crashed, s) => (.error .crashed, { s.machine.toDisk with process := none })
  | (r, s) => (r, { s.machine.toDisk with process := some ⟨s.machine.core, s.accepting⟩ })

/-- Start a process on the store. -/
def start (w : World) (environment : Environment) (bindings : List Binding)
    (answers : ℕ → Answer) : World :=
  -- `withHooks` sets the core before anything reads it
  match withHooks environment bindings
    { machine := w.machine .blank, accepting := true, answers := answers, tick := 0 } with
  | (.ok _, s) => { s.machine.toDisk with process := some ⟨s.machine.core, s.accepting⟩ }
  | (.error _, s) => { s.machine.toDisk with process := none }

/-- One input. A process is started, and maintenance done, only while none runs; a call
needs one. -/
def step (w : World) : Input → World
  | .start environment bindings answers =>
    match w.process with
    | none => w.start environment bindings answers
    | some _ => w
  | .call c answers =>
    match w.process with
    | none => w
    | some p => (w.call p c answers).2
  | .stop => { w with process := none }
  | .maintain k v =>
    if w.process.isNone ∧ k.bookkeeping then { w with store := w.store.write k v } else w

/-- Inputs one after the other. -/
abbrev steps (w : World) (inputs : List Input) : World := Durable.Runs.after step w inputs

/-- The world after the inputs, from an empty store. -/
def run (inputs : List Input) : World := empty.steps inputs

theorem run_append (before after : List Input) : run (before ++ after) = (run before).steps after :=
  Durable.Runs.after_append ..

end World

/-! ## What can happen to a disk -/

namespace Disk

/-- One commit, whoever makes it. -/
inductive Move : Disk → Disk → Prop
  | drew {d : Disk} {n : ℕ} (le : d.drawn ≤ n) : Move d { d with drawn := n }
  | booked {d : Disk} {s : Store}
      (frame : Repository.Frame (fun k => k.bookkeeping = true) d.store s) :
      Move d { d with store := s }
  | opened {d : Disk} {h : Machine} (step : OpenStep d h) : Move d h.toDisk
  | stepped {c : Call} {h h' : Machine} (step : Step c h h') : Move h.toDisk h'.toDisk

/-- Any number of moves. -/
abbrev Moves : Disk → Disk → Prop := ReflTransGen Move

/-- A disk that commits can lead to, from an empty one. -/
def Reachable (d : Disk) : Prop := Moves World.empty.toDisk d

/-- An invariant of reachable disks: it holds of the empty one, and every commit keeps it. -/
theorem Reachable.inductionOn {P : Disk → Prop} (hempty : P World.empty.toDisk)
    (hmove : ∀ d d', Move d d' → d.Reachable → P d → P d') {d : Disk} (hd : d.Reachable) : P d := by
  induction hd with
  | refl => exact hempty
  | tail hmoves hlast ih => exact hmove _ _ hlast hmoves ih

theorem Reachable.moves {d d' : Disk} (hd : d.Reachable) (hm : Moves d d') : d'.Reachable :=
  ReflTransGen.trans hd hm

/-- A relation that every commit keeps between a row and what replaces it holds along all
moves. -/
theorem Moves.row {k : Key} {R : k.Doc → k.Doc → Prop} (hrefl : ∀ v, R v v)
    (htrans : ∀ v v' v'', R v v' → R v' v'' → R v v'')
    (hmove : ∀ d d', Move d d' → d.Reachable → ∀ v, d.store.doc k = some v →
      ∃ v', d'.store.doc k = some v' ∧ R v v')
    {d d' : Disk} (hd : d.Reachable) (hm : Moves d d') {v : k.Doc} (hv : d.store.doc k = some v) :
    ∃ v', d'.store.doc k = some v' ∧ R v v' := by
  induction hm with
  | refl => exact ⟨v, hv, hrefl v⟩
  | tail hmoves hlast ih =>
    obtain ⟨v₁, hv₁, hR⟩ := ih
    obtain ⟨v₂, hv₂, hR'⟩ := hmove _ _ hlast (hd.moves hmoves) v₁ hv₁
    exact ⟨v₂, hv₂, htrans _ _ _ hR hR'⟩

/-- Nothing stored about operations has changed. -/
structure SameOperations (d d' : Disk) : Prop where
  get : ∀ k : Key, k.operational = true → d'.store.get k = d.store.get k
  events : d'.store.events = d.store.events
  entries : d'.entries = d.entries

end Disk

/-- The steps that change what is stored about operations. -/
inductive OperationStep : Machine → Machine → Prop
  | prepared {h h' : Machine} {caller : Caller} {request : Request} {r : DeliveryRecord}
      (step : PrepareStep h caller request r h') : OperationStep h h'
  | sent {h h' : Machine} {caller : Caller} {request : Request} {invocation : Id}
      (step : SendStep h caller request invocation h') : OperationStep h h'
  | entered {h h' : Machine} {caller : Caller} {request : Request} {invocation : Id}
      {r : DeliveryRecord} (step : EnterStep h caller request invocation r h') : OperationStep h h'
  | captured {h h' : Machine} {record r : DeliveryRecord} (step : CaptureStep h record r h') :
      OperationStep h h'
  | voided {h h' : Machine} {operation : Id} {digest : Digest} {v : VoidRecord}
      (step : VoidStep h operation digest v h') : OperationStep h h'

/-! ## Deliveries are filed, and identifiers generated, in every world -/

section Regular

variable {c : Call} {h h' : Machine} {d d' : Disk}

/-- A call on an operation. -/
def Call.operates : Call → Bool
  | .prepare .. | .authorize .. | .voidBeforeSend .. | .reconcile .. => true
  | _ => false

omit [Ideal] in
theorem Call.operational_of_writes {k : Key} (hc : c.operates = false) (hk : c.Writes k) :
    k.operational = false := by
  cases c with
  | prepare | authorize | voidBeforeSend | reconcile => cases hc
  | claimRpc => exact Key.operational_eq_false (Key.bookkeeping_of_booked hk)
  | bindBoot => cases hk; rfl
  | fence | arm => rcases hk with rfl | rfl | rfl <;> rfl
  | acquireGrant => rcases hk with ⟨x, rfl⟩ | ⟨g, rfl⟩ | rfl <;> rfl
  | renewGrant => cases hk; rfl
  | acceptProcessConfiguration =>
    rcases hk with rfl | ⟨cell, rfl⟩ | hk | rfl | rfl | ⟨n, rfl⟩
    · rfl
    · rfl
    · exact Key.operational_eq_false (Key.bookkeeping_of_booked hk)
    all_goals rfl
  | acceptQualification =>
    rcases hk with rfl | ⟨t, -, rfl | rfl | rfl⟩ | rfl | rfl | ⟨n, rfl⟩ <;> rfl
  | acknowledgePublication => obtain ⟨j, rfl⟩ := hk; rfl
  | bindPlatform | serviceStopSnapshot | receipt | receiptView | evidenceAfter | currentTarget
  | publicationChunk => exact hk.elim

/-- A step changes what is stored about operations in one of five ways, or not at all. -/
theorem Step.operation (step : Step c h h') :
    h.SameOperations h'.toDisk ∨ OperationStep h h' := by
  have hget : c.operates = false → ∀ k : Key, k.operational = true →
      h'.store.get k = h.store.get k := by
    intro hc k hk
    refine step.get_eq fun hw => ?_
    rw [Call.operational_of_writes hc hw] at hk
    cases hk
  cases step with
  | prepared step => exact .inr (.prepared step)
  | sent step => exact .inr (.sent step)
  | entered step => exact .inr (.entered step)
  | finished step | captured step => exact .inr (.captured step)
  | voided step => exact .inr (.voided step)
  | drew | disarmed => exact .inl ⟨fun _ _ => rfl, rfl, rfl⟩
  | claimed step => cases step with
    | mk frame => exact .inl ⟨hget rfl, frame.events, rfl⟩
  | granted step => cases step with
    | mk granted => exact .inl ⟨hget rfl, granted.frame.events, rfl⟩
  | configured step => cases step with
    | mk configured => exact .inl ⟨hget rfl, configured.frame.events, rfl⟩
  | qualified step => cases step with
    | mk _ qualifies => exact .inl ⟨hget rfl, qualifies.frame.events, rfl⟩
  | bound step | booted step | fenced step | armed step | renewed step | acknowledged step =>
    cases step
    exact .inl ⟨hget rfl, rfl, rfl⟩

theorem Step.drawn_le (step : Step c h h') : h.drawn ≤ h'.drawn := by
  cases step with
  | drew le => exact le
  | prepared step => cases step with
    | fresh => exact Nat.le_succ _
    | rebind => exact le_rfl
  | finished step | captured step | granted step => cases step; exact Nat.le_succ _
  | voided step => cases step <;> exact le_rfl
  | disarmed => exact le_rfl
  | bound step | claimed step | booted step | sent step | entered step | fenced step | armed step
  | renewed step | configured step | qualified step | acknowledged step => cases step; exact le_rfl

/-- The same for a commit. -/
theorem Disk.Move.operation (move : d.Move d') : d.SameOperations d' ∨
    ∃ h h' : Machine, d = h.toDisk ∧ d' = h'.toDisk ∧ OperationStep h h' := by
  cases move with
  | drew le => exact .inl ⟨fun _ _ => rfl, rfl, rfl⟩
  | booked frame =>
    refine .inl ⟨fun k hk => frame.get k fun hb => ?_, frame.events, rfl⟩
    rw [Key.operational_eq_false hb] at hk
    cases hk
  | opened step =>
    cases step with
    | mk opened =>
      refine .inl ⟨fun k hk => opened.frame.get k ?_, opened.frame.events, rfl⟩
      rintro (rfl | ⟨cell, rfl⟩) <;> cases hk
  | stepped step => exact step.operation.imp id fun hs => ⟨_, _, rfl, rfl, hs⟩

theorem Disk.Move.drawn_le (move : d.Move d') : d.drawn ≤ d'.drawn := by
  cases move with
  | drew le => exact le
  | booked => exact le_rfl
  | opened step => cases step; exact Nat.le_add_right _ 3
  | stepped step => exact step.drawn_le

theorem OperationStep.filed (step : OperationStep h h') (hs : Store.Filed h.store) :
    Store.Filed h'.store := by
  cases step with
  | prepared step => cases step with
    | fresh => exact hs.delivered
    | rebind => exact (hs.write_of_ne (by simp) _).delivered
  | sent step | entered step => cases step; exact (hs.write_of_ne (by simp) _).delivered
  | captured step => cases step; exact Store.Filed.delivered hs
  | voided step => cases step with
    | unknown => exact (hs.write_of_ne (by simp) _).write_of_ne (by simp) _
    | prepared => exact (hs.delivered.write_of_ne (by simp) _).write_of_ne (by simp) _

/-- An event is logged under the identifier that was drawn for it. -/
theorem OperationStep.events (step : OperationStep h h') : h'.store.events = h.store.events ∨
    ∃ v, h'.store.events = h.store.events ++ [(Ideal.freshId h.drawn, v)] ∧
      h'.drawn = h.drawn + 1 := by
  cases step with
  | prepared step => cases step <;> exact .inl rfl
  | sent step | entered step => cases step; exact .inl rfl
  | captured step => cases step; exact .inr ⟨_, rfl, rfl⟩
  | voided step => cases step <;> exact .inl rfl

theorem Disk.Move.regular (move : d.Move d') (hd : d.Regular) : d'.Regular := by
  have hdrawn := move.drawn_le
  have hold : ∀ e ∈ d.store.events, ∃ n < d'.drawn, e.1 = Ideal.freshId n := by
    intro e he
    obtain ⟨n, hn, hid⟩ := hd.generated e he
    exact ⟨n, hn.trans_le hdrawn, hid⟩
  rcases move.operation with hsame | ⟨h, h', rfl, rfl, hstep⟩
  · refine ⟨hd.filed.congr fun op => Repository.doc_congr (hsame.get _ rfl), ?_⟩
    rw [hsame.events]
    exact hold
  · refine ⟨hstep.filed hd.filed, ?_⟩
    rcases hstep.events with heq | ⟨v, heq, hnext⟩ <;> rw [heq]
    · exact hold
    · intro e he
      rcases List.mem_append.mp he with he | he
      · exact hold e he
      · obtain rfl := List.mem_singleton.mp he
        exact ⟨h.drawn, hnext ▸ Nat.lt_succ_self _, rfl⟩

theorem Disk.Moves.regular (hm : d.Moves d') (hd : d.Regular) : d'.Regular := by
  induction hm with
  | refl => exact hd
  | tail _ hlast ih => exact hlast.regular ih

theorem Disk.Reachable.regular (hd : d.Reachable) : d.Regular := by
  refine Disk.Moves.regular hd ⟨fun op r hr => ?_, by simp [World.empty, Repository.empty]⟩
  simp [World.empty, Repository.doc] at hr

end Regular

/-! ## Runs are made of commits -/

theorem Steps.moves {c : Call} {h h' : Machine} (hs : Steps c h h') :
    Disk.Moves h.toDisk h'.toDisk := by
  induction hs with
  | refl => exact .refl
  | tail _ hlast ih => exact ih.tail (.stepped hlast)

namespace World

variable {w : World} {p : Process} {c : Call} {answers : ℕ → Answer} {i : Input}

section Call

variable {ok : c.Reply → Machine → Prop} {err : Failure → Machine → Prop}

/-- The world after a call that returns. -/
theorem call_eq {v : c.Reply} {s : GateState}
    (h : c.exec ⟨w.machine p, p.accepting, answers, 0⟩ = (.ok v, s)) :
    w.call p c answers =
      (.ok v, { s.machine.toDisk with process := some ⟨s.machine.core, s.accepting⟩ }) := by
  simp only [call, h]

/-- A call that returns meets its specification, and its process runs on. -/
theorem call_ok (hrun : Gate.Runs c.exec ok err (w.machine p)) {v : c.Reply} {w' : World}
    (hcall : w.call p c answers = (.ok v, w')) :
    ∃ h accepting, ok v h ∧ w' = { h.toDisk with process := some ⟨h.core, accepting⟩ } := by
  rcases hexec : c.exec ⟨w.machine p, p.accepting, answers, 0⟩ with ⟨r, s⟩
  simp only [call, hexec] at hcall
  rcases r with (_ | e) | v
  · cases hcall
  · cases hcall
  · cases hcall
    exact ⟨_, _, Always.returns hrun hexec, rfl⟩

/-- A call that does not return meets its specification, and its process runs on unless it
died. -/
theorem call_error (hrun : Gate.Runs c.exec ok err (w.machine p)) {e : Failure} {w' : World}
    (hcall : w.call p c answers = (.error e, w')) :
    ∃ h, err e h ∧ w'.toDisk = h.toDisk ∧ ∀ q, w'.process = some q → q.core = h.core := by
  rcases hexec : c.exec ⟨w.machine p, p.accepting, answers, 0⟩ with ⟨r, s⟩
  have herr : ∀ {e}, r = .error e → err e s.machine := by
    rintro e rfl
    exact Always.stops hrun hexec
  simp only [call, hexec] at hcall
  rcases r with (_ | e) | v
  · cases hcall
    exact ⟨_, herr rfl, rfl, by simp⟩
  · cases hcall
    exact ⟨_, herr rfl, rfl, by simp⟩
  · cases hcall

end Call

/-- A call that is an input meets its specification, whether it returns or not. -/
theorem step_call {ok : Process → c.Reply → Machine → Prop}
    {err : Process → Failure → Machine → Prop}
    (hrun : ∀ p, Gate.Runs c.exec (ok p) (err p) (w.machine p)) (answers : ℕ → Answer) :
    w.step (.call c answers) = w ∨ ∃ p h, w.process = some p ∧
      (w.step (.call c answers)).toDisk = h.toDisk ∧
      (∀ q, (w.step (.call c answers)).process = some q → q.core = h.core) ∧
      ((∃ v, ok p v h) ∨ ∃ e, err p e h) := by
  cases hp : w.process with
  | none => exact .inl (by simp only [step, hp])
  | some p =>
    right
    simp only [step, hp]
    rcases hcall : w.call p c answers with ⟨e | v, w'⟩
    · obtain ⟨h, herr, hdisk, hcore⟩ := call_error (hrun p) hcall
      exact ⟨p, h, rfl, hdisk, hcore, .inr ⟨e, herr⟩⟩
    · obtain ⟨h, a, hok, rfl⟩ := call_ok (hrun p) hcall
      exact ⟨p, h, rfl, rfl, by simp, .inl ⟨v, hok⟩⟩

/-- In a reliable environment, a call that must return does. -/
theorem call_returns {ok : c.Reply → Machine → Prop} (hrun : Gate.Returns c.exec ok (w.machine p))
    (hanswers : Gate.Reliable answers) : ∃ v h, (w.call p c answers).1 = .ok v ∧ ok v h := by
  have hwp := hrun ⟨w.machine p, p.accepting, answers, 0⟩ rfl hanswers
  rcases hexec : c.exec ⟨w.machine p, p.accepting, answers, 0⟩ with ⟨r, s⟩
  simp only [Program.wp, hexec] at hwp
  cases r with
  | error e => exact hwp.elim
  | ok v => exact ⟨v, s.machine, by simp only [call, hexec], hwp.1⟩

/-- A call makes steps on its machine, and leaves the core they lead to unless it dies. -/
theorem call_steps (p : Process) (c : Call) (answers : ℕ → Answer) (hw : w.Regular) :
    ∃ h, Steps c (w.machine p) h ∧ (w.call p c answers).2.toDisk = h.toDisk ∧
    ∀ q, (w.call p c answers).2.process = some q → q.core = h.core := by
  have hrun := c.exec_runs (h := w.machine p) hw
  rcases hcall : w.call p c answers with ⟨_ | v, w'⟩
  · exact call_error hrun hcall
  · obtain ⟨h, accepting, hsteps, rfl⟩ := call_ok hrun hcall
    exact ⟨h, hsteps, rfl, by simp⟩

/-- A start opens the store, or fails and only draws identifiers. -/
theorem start_cases (w : World) (environment : Environment) (bindings : List Binding)
    (answers : ℕ → Answer) :
    (∃ h accepting, OpenStep w.toDisk h ∧ w.start environment bindings answers =
      { h.toDisk with process := some ⟨h.core, accepting⟩ }) ∨
    ∃ n, w.drawn ≤ n ∧ w.start environment bindings answers =
      { w.toDisk with drawn := n, process := none } := by
  rcases hexec : withHooks environment bindings ⟨w.machine .blank, true, answers, 0⟩ with ⟨r, s⟩
  have hrun := @withHooks_runs bindings (w.machine .blank) _ environment
  simp only [start, hexec]
  cases r with
  | ok v =>
    have hopen := Always.returns hrun hexec
    exact .inl ⟨_, _, hopen, rfl⟩
  | error e =>
    obtain ⟨n, hn, hs⟩ := Always.stops hrun hexec
    simp only [hs]
    exact .inr ⟨n, hn, rfl⟩

/-- What an input can do to a world. -/
inductive Change (w : World) : Input → World → Prop
  | ignored {i : Input} : Change w i w
  | started {environment : Environment} {bindings : List Binding} {answers : ℕ → Answer}
      {h : Machine} {accepting : Bool} (idle : w.process = none) (step : OpenStep w.toDisk h) :
      Change w (.start environment bindings answers)
        { h.toDisk with process := some ⟨h.core, accepting⟩ }
  | failed {environment : Environment} {bindings : List Binding} {answers : ℕ → Answer} {n : ℕ}
      (idle : w.process = none) (le : w.drawn ≤ n) :
      Change w (.start environment bindings answers) { w.toDisk with drawn := n, process := none }
  | called {c : Call} {answers : ℕ → Answer} {p : Process} {h : Machine} {q : Option Process}
      (running : w.process = some p) (steps : Steps c (w.machine p) h)
      (kept : ∀ p', q = some p' → p'.core = h.core) :
      Change w (.call c answers) { h.toDisk with process := q }
  | stopped : Change w .stop { w with process := none }
  | maintained {k : Key} {v : k.Doc} (idle : w.process = none) (hk : k.bookkeeping = true) :
      Change w (.maintain k v) { w with store := w.store.write k v }

theorem step_change (hw : w.Regular) : Change w i (w.step i) := by
  cases i with
  | start environment bindings answers =>
    simp only [step]
    cases hp : w.process with
    | some p => exact .ignored
    | none =>
      rcases w.start_cases environment bindings answers with ⟨h, a, hopen, heq⟩ | ⟨n, hn, heq⟩ <;>
        simp only [heq]
      · exact .started hp hopen
      · exact .failed hp hn
  | call c answers =>
    simp only [step]
    cases hp : w.process with
    | none => exact .ignored
    | some p =>
      obtain ⟨h, hsteps, hdisk, hkept⟩ := call_steps p c answers hw
      change Change w _ (w.call p c answers).2
      generalize (w.call p c answers).2 = w' at hdisk hkept ⊢
      obtain ⟨disk, q⟩ := w'
      obtain rfl : disk = h.toDisk := hdisk
      exact .called hp hsteps hkept
  | stop => exact .stopped
  | maintain k v =>
    simp only [step]
    split
    next hk => exact .maintained (Option.isNone_iff_eq_none.mp hk.1) hk.2
    · exact .ignored

theorem Change.moves {w' : World} (hc : Change w i w') : Disk.Moves w.toDisk w'.toDisk := by
  cases hc with
  | ignored | stopped => exact .refl
  | started idle step => exact .single (.opened step)
  | failed idle le => exact .single (.drew le)
  | called running steps => exact steps.moves
  | maintained idle hk => exact .single (.booked (.write (by exact hk) _))

/-- Along every run the disk makes moves. -/
theorem steps_moves (hw : w.Regular) (inputs : List Input) :
    Disk.Moves w.toDisk (w.steps inputs).toDisk :=
  Durable.Runs.related (P := fun w : World => w.Regular)
    (R := fun w w' => Disk.Moves w.toDisk w'.toDisk) (fun _ => .refl) (fun _ _ _ => .trans)
    (fun _ _ hw => (step_change hw).moves.regular hw) (fun _ _ hw => (step_change hw).moves) hw
    inputs

theorem run_reachable (inputs : List Input) : (run inputs).Reachable :=
  steps_moves (Disk.Reachable.regular .refl) inputs

theorem steps_reachable (hw : w.Reachable) (inputs : List Input) : (w.steps inputs).Reachable :=
  hw.moves (steps_moves hw.regular inputs)

theorem step_moves (hw : w.Reachable) (i : Input) : Disk.Moves w.toDisk (w.step i).toDisk :=
  steps_moves hw.regular [i]

theorem step_reachable (hw : w.Reachable) (i : Input) : (w.step i).Reachable :=
  steps_reachable hw [i]

/-- An invariant of worlds: it holds of the empty one, and every input keeps it. -/
theorem run_induct {P : World → Prop} (hempty : P empty)
    (hchange : ∀ w i w', w.Reachable → P w → Change w i w' → P w') (inputs : List Input) :
    P (run inputs) := by
  induction inputs using List.reverseRecOn with
  | nil => exact hempty
  | append_singleton inputs i ih =>
    rw [run_append]
    have hreach := run_reachable inputs
    exact hchange _ i _ hreach ih (step_change hreach.regular)

/-- The world after a call is the run with the call added. -/
theorem run_call {inputs : List Input} {r : Except Failure c.Reply} {w' : World}
    (hp : (run inputs).process = some p) (hcall : (run inputs).call p c answers = (r, w')) :
    w' = run (inputs ++ [.call c answers]) := by
  rw [run_append]
  simp only [Durable.Runs.after_cons, Durable.Runs.after_nil, step, hp, hcall]

theorem run_moves (before after : List Input) :
    Disk.Moves (run before).toDisk (run (before ++ after)).toDisk := by
  rw [run_append]
  exact steps_moves (run_reachable before).regular after

end World

/-! ## Which rows an input writes -/

/-- The rows an input may write. -/
def Input.Writes : Input → Key → Prop
  | .start .. => fun k => k = .hostMeta ∨ ∃ cell, k = .cell cell
  | .call c _ => c.Writes
  | .stop => fun _ => False
  | .maintain k _ => fun k' => k' = k ∧ k.bookkeeping = true

theorem Steps.get_eq {c : Call} {h h' : Machine} {k : Key} (hs : Steps c h h')
    (hk : ¬ c.Writes k) : h'.store.get k = h.store.get k := by
  induction hs with
  | refl => rfl
  | tail _ hlast ih => exact (hlast.get_eq hk).trans ih

namespace World

variable {w : World} {c : Call} {answers : ℕ → Answer} {i : Input} {k : Key}

/-- An input leaves every other row alone. -/
theorem step_get_eq (hw : w.Reachable) (hk : ¬ i.Writes k) :
    (w.step i).store.get k = w.store.get k := by
  have hchange := step_change (i := i) hw.regular
  generalize w.step i = w' at hchange
  cases hchange with
  | ignored | failed | stopped => rfl
  | started idle step => cases step with
    | mk opened => exact opened.frame.get k hk
  | called running steps => exact steps.get_eq hk
  | maintained idle hb => exact Repository.get_write_of_ne (fun heq => hk ⟨heq, hb⟩) _

/-- A document that an input stores is in a row it may write. -/
theorem writes_of_stored {v : k.Doc} (hw : w.Reachable) (hnew : w.store.doc k ≠ some v)
    (hstored : (w.step i).store.doc k = some v) : i.Writes k := by
  by_contra hk
  rw [Repository.doc_congr (step_get_eq hw hk)] at hstored
  exact hnew hstored

/-- A call that stores a document has made its step. -/
theorem committed {v : k.Doc} {S : Process → Machine → Prop}
    (hnew : w.store.doc k ≠ some v) (hstored : (w.step (.call c answers)).store.doc k = some v)
    (hrun : ∀ p, Gate.Runs c.exec (fun _ h => h.store = w.store ∨ S p h)
      (fun _ h => h.store = w.store ∨ S p h) (w.machine p)) :
    ∃ p h, w.process = some p ∧ (w.step (.call c answers)).toDisk = h.toDisk ∧ S p h := by
  rcases step_call hrun answers with hsame | ⟨p, h, hp, hdisk, -, hstep⟩
  · rw [hsame] at hstored
    exact absurd hstored hnew
  · have hmade : h.store = w.store ∨ S p h := hstep.elim (fun ⟨_, h⟩ => h) fun ⟨_, h⟩ => h
    rcases hmade with hstore | hmade
    · rw [hdisk, hstore] at hstored
      exact absurd hstored hnew
    · exact ⟨p, h, hp, hdisk, hmade⟩

/-- The same for a call that answers from what is stored or makes its step. -/
theorem committed_step {v : k.Doc} {Q : Process → c.Reply → Prop}
    {S : Process → c.Reply → Machine → Prop} {E : Process → Failure → Machine → Prop}
    (hnew : w.store.doc k ≠ some v) (hstored : (w.step (.call c answers)).store.doc k = some v)
    (hrun : ∀ p, Gate.Runs c.exec (fun a h => h = w.machine p ∧ Q p a ∨ S p a h) (E p)
      (w.machine p)) (herr : ∀ p e h, E p e h → h.store = w.store) :
    ∃ p h, w.process = some p ∧ (w.step (.call c answers)).toDisk = h.toDisk ∧ ∃ a, S p a h := by
  refine committed hnew hstored fun p => (hrun p).mono ?_ fun e h he => .inl (herr p e h he)
  rintro a h (⟨rfl, -⟩ | hstep)
  · exact .inl rfl
  · exact .inr ⟨a, hstep⟩

variable {caller : Caller}

theorem configure_committed {request : HostConfiguration.Request} {v : k.Doc}
    (hnew : w.store.doc k ≠ some v)
    (hstored : (w.step (.call (.acceptProcessConfiguration caller request) answers)).store.doc k =
      some v) :
    ∃ p h, w.process = some p ∧
      (w.step (.call (.acceptProcessConfiguration caller request) answers)).toDisk = h.toDisk ∧
      ∃ r, ConfigureStep (w.machine p) caller request r h := by
  refine committed hnew hstored fun p => acceptProcessConfiguration_runs.mono ?_ ?_
  · rintro o h ⟨r, -, ⟨rfl, -⟩ | hstep⟩
    · exact .inl rfl
    · exact .inr ⟨r, hstep⟩
  · rintro e h (rfl | hstep)
    · exact .inl rfl
    · exact .inr hstep

theorem qualify_committed {request : HostQualification.Request} {v : k.Doc}
    (hnew : w.store.doc k ≠ some v)
    (hstored : (w.step (.call (.acceptQualification caller request) answers)).store.doc k =
      some v) :
    ∃ p h, w.process = some p ∧
      (w.step (.call (.acceptQualification caller request) answers)).toDisk = h.toDisk ∧
      ∃ r, QualifyStep (w.machine p) caller request r h := by
  refine committed hnew hstored fun p => acceptQualification_runs.mono ?_ ?_
  · rintro o h ⟨r, -, ⟨rfl, -⟩ | hstep⟩
    · exact .inl rfl
    · exact .inr ⟨r, hstep⟩
  · rintro e h (rfl | hstep)
    · exact .inl rfl
    · exact .inr hstep

end World

end RxSolutions.Host
