import RxSolutions.Host.Evidence
import RxSolutions.Host.Replays
import RxSolutions.Host.Serving

/-!
# The answer of the reconcile call

The reconcile call of the host service looks the operation up, asks the adapter for its result if
that is still missing, and then answers with a batch cut out of the evidence journal. The batch is
always the beginning of the journal, whatever the operation was, so it holds the evidence of the
operation exactly as long as that is one of the first 128 events. The journal only grows, so for an
operation whose result is already there this is settled before the call.
-/

namespace RxSolutions.Host

open Domain Durable Program
open Gate (Serves)
open Repository (doc_eq_none doc_eq_some doc_write_of_ne get_write_of_ne)

/-- `journals`. -/
def journals : Gate HostMeta :=
  transact do return (← Tx.fetch .hostMeta (.integrity "missing host meta")).document

/-- The answer of the reconcile call. -/
structure EvidenceBatch where
  producerJournal : Id
  firstSeq : Counter
  records : List EvidenceRecord

/-- The batch of the records that `evidence_after` returned. -/
def EvidenceBatch.of (m : HostMeta) (records : List (Counter × EvidenceRecord)) :
    EvidenceBatch where
  producerJournal := m.evidenceJournal
  firstSeq := (records.head?.map Prod.fst).getD 1
  records := records.map Prod.snd

variable [Ideal]

/-- A program that a process of the world runs under its lock. -/
def World.ask {α : Type} (w : World) (p : Process) (m : Gate α) (answers : ℕ → Answer) :
    Except Failure α × World :=
  match m { machine := w.machine p, accepting := p.accepting, answers := answers, tick := 0 } with
  | (.error .crashed, s) => (.error .crashed, { s.machine.toDisk with process := none })
  | (r, s) => (r, { s.machine.toDisk with process := some ⟨s.machine.core, s.accepting⟩ })

/-- Calls that other threads make. -/
def World.others (w : World) (calls : List (Call × (ℕ → Answer))) : World :=
  w.steps (calls.map fun c => .call c.1 c.2)

/-- The reconcile call of the service. The lock is released after each of the three steps, so
other calls may come in between. -/
def reconcileRpc (w : World) (caller : Caller) (operation : Id)
    (answers : Fin 3 → ℕ → Answer) (others : Fin 2 → List (Call × (ℕ → Answer))) :
    Option (EvidenceBatch × World) := do
  let p ← w.process
  match w.ask p (reconcile caller operation) (answers 0) with
  | (.error _, _) => none
  | (.ok _, w) =>
    let w := w.others (others 0)
    let p ← w.process
    match w.ask p journals (answers 1) with
    | (.error _, _) => none
    | (.ok m, w) =>
      let w := w.others (others 1)
      let p ← w.process
      match w.ask p (evidenceAfter caller 0 128) (answers 2) with
      | (.error _, _) => none
      | (.ok records, w) => return (EvidenceBatch.of m records, w)

/-- The batch holds the evidence that a delivery record names, and its records are consecutive
events of the journal from `firstSeq` on. -/
structure EvidenceBatch.Answers (batch : EvidenceBatch) (s : Store)
    (r : DeliveryRecord) : Prop where
  named : r.evidenceIds ≠ [] ∧ ∀ id ∈ r.evidenceIds, ∃ e ∈ batch.records, e.evidenceId = id
  consecutive : batch.records <+: (s.events.drop (batch.firstSeq - 1)).map Prod.snd

/-- No result of the operation was captured. -/
def Store.Uncaptured (s : Store) (operation : Id) : Prop :=
  ∀ r, s.doc (.delivery operation) = some r → r.state ≠ .resultCaptured

/-- What a batch says about an operation, for a call that found one store and left another. -/
structure EvidenceBatch.Reconciles (batch : EvidenceBatch) (before after : Store) (operation : Id) :
    Prop where
  /-- The batch is the beginning of the journal, which has only grown. -/
  firstSeq : batch.firstSeq = 1
  records : batch.records = (after.events.take 128).map Prod.snd
  grown : before.events <+: after.events
  /-- It holds the evidence of a captured result exactly if that is one of the first events. -/
  answers : ∀ r, after.doc (.delivery operation) = some r → r.state = .resultCaptured →
    (batch.Answers after r ↔ ∃ x ∈ after.events.take 128, x.1 ∈ r.evidenceIds)
  /-- If the result was captured before the call, the journal before the call decides. -/
  settled : ∀ r, before.doc (.delivery operation) = some r → r.state = .resultCaptured →
    after.doc (.delivery operation) = some r ∧
      (batch.Answers after r ↔ ∃ x ∈ before.events.take 128, x.1 ∈ r.evidenceIds)
  /-- If it was captured during the call, it is missing once there were 128 events before. -/
  late : before.Uncaptured operation → 128 ≤ before.events.length → ∀ r,
    after.doc (.delivery operation) = some r → r.state = .resultCaptured → ¬ batch.Answers after r

/-! ## The batch is the beginning of the journal -/

omit [Ideal] in
theorem EvidenceBatch.of_eventsAfter (m : HostMeta) (s : Store) :
    EvidenceBatch.of m ((s.eventsAfter 0 128).map fun e => (e.1, e.2.2)) =
      ⟨m.evidenceJournal, 1, (s.events.take 128).map Prod.snd⟩ := by
  have hrecords : ((s.eventsAfter 0 128).map fun e => (e.1, e.2.2)).map Prod.snd =
      (s.events.take 128).map Prod.snd := by
    have hevents := Repository.map_eventsAfter s 0 128
    rw [List.drop_zero] at hevents
    rw [← hevents, List.map_map, List.map_map]
    rfl
  have hfirst : ((((s.eventsAfter 0 128).map fun e => (e.1, e.2.2)).head?).map Prod.fst).getD 1 =
      1 := by
    rw [Repository.eventsAfter]
    cases s.events <;> rfl
  rw [EvidenceBatch.of, hrecords, hfirst]

/-- Events are logged under the identifier of their evidence. -/
theorem Disk.Reachable.logged {d : Disk} (hd : d.Reachable) {x : Id × EvidenceRecord}
    (hx : x ∈ d.store.events) : x.1 = x.2.evidenceId := by
  have hmem : x ∈ d.store.evidenceOf x.2.operation := List.mem_filter.mpr ⟨hx, by simp⟩
  cases hdoc : d.store.doc (.delivery x.2.operation) with
  | none =>
    rw [hd.proven.absent _ hdoc] at hmem
    cases hmem
  | some r =>
    obtain ⟨-, e, hevidence, -⟩ | ⟨-, hevidence, -⟩ := hd.proven.record _ r hdoc
    · rw [hevidence] at hmem
      rw [List.mem_singleton.mp hmem]
    · rw [hevidence] at hmem
      cases hmem

/-- No two events are logged under one identifier. -/
theorem Disk.Reachable.distinct {d : Disk} (hd : d.Reachable) :
    (d.store.events.map Prod.fst).Nodup := by
  refine hd.inductionOn (P := fun d => (d.store.events.map Prod.fst).Nodup) List.nodup_nil ?_
  intro d d' move hreach hdistinct
  rcases move.operation with hsame | ⟨h, h', rfl, rfl, hstep⟩
  · rwa [hsame.events]
  · rcases hstep.events with heq | ⟨v, heq, -⟩ <;> rw [heq]
    · exact hdistinct
    · -- the new identifier was not generated before
      rw [List.map_append, List.nodup_append]
      refine ⟨hdistinct, List.nodup_singleton _, ?_⟩
      rintro a ha b hb rfl
      obtain ⟨x, hx, hid⟩ := List.mem_map.mp ha
      exact hreach.regular.fresh x hx (hid.trans (List.mem_singleton.mp hb))

/-- The one event of a captured result. -/
theorem Disk.Reachable.event {d : Disk} (hd : d.Reachable) {operation : Id} {r : DeliveryRecord}
    (hr : d.store.doc (.delivery operation) = some r) (hcaptured : r.state = .resultCaptured) :
    ∃ e, (e.evidenceId, e) ∈ d.store.events ∧ e.operation = operation ∧
      r.evidenceIds = [e.evidenceId] := by
  obtain ⟨-, e, hevidence, hids⟩ | ⟨hstate, -⟩ := hd.proven.record operation r hr
  case inr => exact absurd hcaptured hstate
  have hmem : (e.evidenceId, e) ∈ d.store.evidenceOf operation := by
    rw [hevidence]
    exact List.mem_singleton_self _
  obtain ⟨hevent, hoperation⟩ := List.mem_filter.mp hmem
  exact ⟨e, hevent, of_decide_eq_true hoperation, hids⟩

/-- An operation without a captured result has no event. -/
theorem Disk.Reachable.operation_ne {d : Disk} (hd : d.Reachable) {operation : Id}
    (hnone : d.store.Uncaptured operation) {x : Id × EvidenceRecord} (hx : x ∈ d.store.events) :
    x.2.operation ≠ operation := by
  intro heq
  have hmem : x ∈ d.store.evidenceOf operation := List.mem_filter.mpr ⟨hx, decide_eq_true heq⟩
  have hempty : d.store.evidenceOf operation = [] := by
    cases hdoc : d.store.doc (.delivery operation) with
    | none => exact hd.proven.absent _ hdoc
    | some r =>
      obtain ⟨hstate, -⟩ | ⟨-, hevidence, -⟩ := hd.proven.record operation r hdoc
      · exact absurd hstate (hnone r hdoc)
      · exact hevidence
  rw [hempty] at hmem
  cases hmem

/-- The beginning of the journal answers for an operation exactly if its evidence is there. -/
theorem EvidenceBatch.answers_iff {d : Disk} (hd : d.Reachable) {operation : Id}
    {r : DeliveryRecord} (hr : d.store.doc (.delivery operation) = some r)
    (hcaptured : r.state = .resultCaptured) (journal : Id) :
    (EvidenceBatch.mk journal 1 ((d.store.events.take 128).map Prod.snd)).Answers d.store r ↔
      ∃ x ∈ d.store.events.take 128, x.1 ∈ r.evidenceIds := by
  obtain ⟨e, -, -, hids⟩ := hd.event hr hcaptured
  constructor
  · intro hanswers
    obtain ⟨e', he', hid⟩ := hanswers.named.2 e.evidenceId (by simp [hids])
    obtain ⟨x, hx, rfl⟩ := List.mem_map.mp he'
    refine ⟨x, hx, ?_⟩
    rw [hd.logged (List.mem_of_mem_take hx), hid, hids]
    exact List.mem_singleton_self _
  · rintro ⟨x, hx, hid⟩
    constructor
    · rw [hids] at hid ⊢
      refine ⟨List.cons_ne_nil _ _, fun id hmem => ⟨x.2, List.mem_map_of_mem hx, ?_⟩⟩
      rw [← hd.logged (List.mem_of_mem_take hx), List.mem_singleton.mp hid,
        List.mem_singleton.mp hmem]
    · exact (List.take_prefix 128 d.store.events).map _

/-- Among the first events of a journal that grows, the event of a result that was captured before
is where it was. -/
theorem Disk.Reachable.mem_take_iff {d d' : Disk} (hd : d.Reachable) (hmoves : d.Moves d')
    {operation : Id} {r : DeliveryRecord} (hr : d.store.doc (.delivery operation) = some r)
    (hcaptured : r.state = .resultCaptured) (n : ℕ) :
    (∃ x ∈ d'.store.events.take n, x.1 ∈ r.evidenceIds) ↔
      ∃ x ∈ d.store.events.take n, x.1 ∈ r.evidenceIds := by
  obtain ⟨e, hevent, -, hids⟩ := hd.event hr hcaptured
  obtain ⟨later, hlater⟩ := hmoves.events
  have hdistinct := (hd.moves hmoves).distinct
  rw [← hlater, List.map_append, List.nodup_append] at hdistinct
  rw [← hlater, List.take_append]
  constructor
  · rintro ⟨x, hx, hid⟩
    rcases List.mem_append.mp hx with hx | hx
    · exact ⟨x, hx, hid⟩
    · -- a later event has another identifier
      have hne := hdistinct.2.2 e.evidenceId (List.mem_map.mpr ⟨_, hevent, rfl⟩) x.1
        (List.mem_map_of_mem (List.mem_of_mem_take hx))
      rw [hids, List.mem_singleton] at hid
      exact absurd hid.symm hne
  · rintro ⟨x, hx, hid⟩
    exact ⟨x, List.mem_append_left _ hx, hid⟩

/-- What the beginning of the journal says after a call. -/
theorem EvidenceBatch.reconciles {d d' : Disk} (hd : d.Reachable) (hmoves : d.Moves d')
    (operation journal : Id) :
    (EvidenceBatch.mk journal 1 ((d'.store.events.take 128).map Prod.snd)).Reconciles
      d.store d'.store operation where
  firstSeq := rfl
  records := rfl
  grown := hmoves.events
  answers r hr hcaptured := EvidenceBatch.answers_iff (hd.moves hmoves) hr hcaptured journal
  settled r hr hcaptured := by
    obtain ⟨r', hr', hevolves⟩ := hmoves.evolves hd.regular hr
    obtain rfl : r' = r := by
      apply hevolves.final
      rw [hcaptured]
      decide
    refine ⟨hr', ?_⟩
    rw [EvidenceBatch.answers_iff (hd.moves hmoves) hr' hcaptured journal]
    exact hd.mem_take_iff hmoves hr hcaptured 128
  late hnone hlength r hr hcaptured hanswers := by
    have hd' := hd.moves hmoves
    obtain ⟨x, hx, hid⟩ := (EvidenceBatch.answers_iff hd' hr hcaptured journal).mp hanswers
    obtain ⟨e, hevent, hoperation, hids⟩ := hd'.event hr hcaptured
    rw [hids, List.mem_singleton] at hid
    have hsame : x = (e.evidenceId, e) :=
      List.inj_on_of_nodup_map hd'.distinct (List.mem_of_mem_take hx) hevent hid
    -- the first events were there before the call
    obtain ⟨later, hlater⟩ := hmoves.events
    rw [← hlater, List.take_append_of_le_length hlength] at hx
    apply hd.operation_ne hnone (List.mem_of_mem_take hx)
    rw [hsame]
    exact hoperation

/-! ## The call -/

theorem World.call_eq_ask (w : World) (p : Process) (c : Call) (answers : ℕ → Answer) :
    w.call p c answers = w.ask p c.exec answers := by
  rcases hexec : c.exec ⟨w.machine p, p.accepting, answers, 0⟩ with ⟨(_ | e) | v, s⟩ <;>
    simp only [World.call, World.ask, hexec]

omit [Ideal] in
/-- A program that only reads leaves the disk as it is. -/
theorem World.ask_reads {α : Type} {w w' : World} {p : Process} {m : Gate α} {P : α → Prop}
    {answers : ℕ → Answer} {v : α} (hm : Gate.Reads m P (w.machine p))
    (hask : w.ask p m answers = (.ok v, w')) : P v ∧ w'.toDisk = w.toDisk := by
  rcases hexec : m ⟨w.machine p, p.accepting, answers, 0⟩ with ⟨r, s⟩
  simp only [World.ask, hexec] at hask
  rcases r with (_ | e) | a
  · cases hask
  · cases hask
  · cases hask
    obtain ⟨hmachine, hv⟩ := Always.returns hm hexec
    exact ⟨hv, by rw [hmachine]; rfl⟩

omit [Ideal] in
/-- A program that is served returns, and the process goes on. -/
theorem World.ask_serves {α : Type} {w : World} {p : Process} {m : Gate α}
    {ok : α → Machine → Prop} {a : Answer} (hm : Serves a m ok (w.machine p))
    (hp : p.accepting = true) :
    ∃ v w' p', w.ask p m (fun _ => a) = (.ok v, w') ∧ w'.process = some p' ∧
      p'.accepting = true ∧ ok v (w'.machine p') := by
  have hrun := hm ⟨w.machine p, p.accepting, fun _ => a, 0⟩ rfl hp rfl
  rcases hexec : m ⟨w.machine p, p.accepting, fun _ => a, 0⟩ with ⟨r, s⟩
  simp only [wp, hexec] at hrun
  cases r with
  | error e => exact hrun.elim
  | ok v =>
    obtain ⟨hok, haccepting, -⟩ := hrun
    refine ⟨v, { s.machine.toDisk with process := some ⟨s.machine.core, s.accepting⟩ },
      ⟨s.machine.core, s.accepting⟩, ?_, rfl, haccepting, hok⟩
    simp only [World.ask, hexec]

theorem World.step_serves {w : World} {p : Process} {c : Call} {ok : c.Reply → Machine → Prop}
    {a : Answer} (hprocess : w.process = some p) (hp : p.accepting = true)
    (hc : Serves a c.exec ok (w.machine p)) :
    ∃ v p', (w.step (.call c fun _ => a)).process = some p' ∧ p'.accepting = true ∧
      ok v ((w.step (.call c fun _ => a)).machine p') := by
  obtain ⟨v, w', p', hask, hprocess', haccepting, hok⟩ := World.ask_serves hc hp
  have hstep : w.step (.call c fun _ => a) = w' := by
    simp only [World.step, hprocess, World.call_eq_ask, hask]
  exact ⟨v, p', hstep ▸ hprocess', haccepting, hstep ▸ hok⟩

omit [Ideal] in
theorem journals_reads {h : Machine} : Gate.Reads journals (fun _ => True) h := by
  apply Gate.Reads.transact
  simp only [commits_bind, Tx.commits_fetch]
  exact fun _ _ => ⟨rfl, trivial⟩

/-- What the call returns is the beginning of the journal, as it is at the end of the call. -/
theorem reconcileRpc_eq_some {w w' : World} (hw : w.Reachable) {caller : Caller} {operation : Id}
    {answers : Fin 3 → ℕ → Answer} {others : Fin 2 → List (Call × (ℕ → Answer))}
    {batch : EvidenceBatch}
    (h : reconcileRpc w caller operation answers others = some (batch, w')) :
    Disk.Moves w.toDisk w'.toDisk ∧ ∃ journal,
      batch = ⟨journal, 1, (w'.store.events.take 128).map Prod.snd⟩ := by
  unfold reconcileRpc at h
  obtain ⟨p, hp, h⟩ := Option.bind_eq_some_iff.mp h
  split at h
  · cases h
  rename_i record w₁ hfirst
  have hmoves₁ : Disk.Moves w.toDisk w₁.toDisk := by
    have hstep : w.step (.call (.reconcile caller operation) (answers 0)) = w₁ := by
      have hcall : w.call p (.reconcile caller operation) (answers 0) = (.ok record, w₁) :=
        (World.call_eq_ask _ _ _ _).trans hfirst
      simp only [World.step, hp, hcall]
    exact hstep ▸ World.step_moves hw _
  have hw₁ := Disk.Reachable.moves hw hmoves₁
  have hmoves₂ := World.steps_moves hw₁.regular ((others 0).map fun c => .call c.1 c.2)
  obtain ⟨p₂, -, h⟩ := Option.bind_eq_some_iff.mp h
  split at h
  · cases h
  rename_i m w₃ hsecond
  obtain ⟨-, hdisk⟩ := World.ask_reads journals_reads hsecond
  have hmoves₃ : Disk.Moves w₁.toDisk w₃.toDisk := hdisk ▸ hmoves₂
  have hmoves₄ := World.steps_moves (hw₁.moves hmoves₃).regular
    ((others 1).map fun c => .call c.1 c.2)
  obtain ⟨p₄, -, h⟩ := Option.bind_eq_some_iff.mp h
  split at h
  · cases h
  rename_i records w₅ hthird
  obtain ⟨hrecords, hlast⟩ := World.ask_reads evidenceAfter_reads hthird
  cases h
  have hstore : w'.store = (w₃.others (others 1)).store := congrArg Disk.store hlast
  refine ⟨hlast ▸ (hmoves₁.trans hmoves₃).trans hmoves₄, m.evidenceJournal, ?_⟩
  rw [hrecords, hstore]
  exact EvidenceBatch.of_eventsAfter m _

/-- The reconcile call answers with the first 128 events of the journal, and so with the evidence of
the operation exactly as long as that is one of them, whatever happened before and whatever else is
called meanwhile. -/
theorem reconcile_answers_iff (inputs : List Input) (caller : Caller) (operation : Id)
    (answers : Fin 3 → ℕ → Answer) (others : Fin 2 → List (Call × (ℕ → Answer)))
    (batch : EvidenceBatch) (w : World)
    (hreply : reconcileRpc (World.run inputs) caller operation answers others = some (batch, w)) :
    batch.Reconciles (World.run inputs).store w.store operation := by
  obtain ⟨hmoves, journal, rfl⟩ := reconcileRpc_eq_some (World.run_reachable inputs) hreply
  exact EvidenceBatch.reconciles (World.run_reachable inputs) hmoves operation journal

/-! ## A journal that outgrows the answer -/

namespace Crowded

open Reordered (intent binding caller)

/-- What the device reports for every operation. -/
def capture : NativeCapture where
  statusSchema := "status"
  status := 0
  nativeId := none
  capturedAt := ⟨"clock", 0⟩
  deviceSession := "device"

/-- A device that is ready and answers at once. -/
def serving : Answer :=
  { Reordered.answers 0 with
    guard := .ok ⟨"device", ⟨"clock", 1⟩, {"ready"}⟩
    capture := .ok capture
    found := .ok none }

omit [Ideal] in
theorem serving_helps : serving.Helps := ⟨rfl, rfl, rfl⟩

/-- The operations of the run. -/
def operation (n : ℕ) : Id := String.ofList (List.replicate n 'o')

omit [Ideal] in
theorem operation_injective : Function.Injective operation := by
  intro m n h
  have hlists := congrArg String.toList h
  rw [operation, operation, String.toList_ofList, String.toList_ofList] at hlists
  simpa using congrArg List.length hlists

/-- The permit of an operation. -/
@[simps]
def permit (n : ℕ) : Permit where
  id := operation n
  operation := operation n
  digest := Ideal.intentDigest intent
  cell := "cell"
  epoch := 1
  scopes := binding.initialScopes
  envelope := "envelope"
  qualification := "qualification"
  qualificationRevision := 1
  grant := Ideal.freshId 3
  hostBoot := Ideal.freshId 2
  conditions := {"ready"}
  expiresAt := ⟨"clock", 1⟩
  purpose := .production
  parent := .mandate "mandate"
  sourceDigest := none

/-- The request for an operation. -/
@[simps]
def request (n : ℕ) : Request where
  operation := operation n
  intent := intent
  digest := Ideal.intentDigest intent
  grant := Ideal.freshId 3
  permit := permit n

/-- The bound host with its cell armed. -/
def armedCore : Core := { Reordered.boundCore with armed := {"cell"} }

/-- The host is armed, under the grant, and without a process context. -/
structure Open (h : Machine) : Prop where
  core : h.core = armedCore
  cell : h.store.doc (.cell "cell") = some ⟨1, binding.initialScopes, ∅⟩
  grant : h.store.doc (.grant (Ideal.freshId 3)) = some Reordered.grant
  arm : h.store.doc (.resource "arm") = some ⟨"arm", 1⟩
  gripper : h.store.doc (.resource "gripper") = some ⟨"gripper", 1⟩
  context : h.store.doc (.processContext "cell") = none
  accepted : h.store.doc (.acceptedQualification "cell") = none
  required : h.store.doc (.hostBindingRequired "cell") = none
  retired : ∀ i, h.store.doc (.retiredPermit i) = none

theorem armedCore_binding : armedCore.binding "cell" = some binding := rfl

variable {h h' : Machine} {m : HostMeta} {r : DeliveryRecord} {n : ℕ}

/-- Without a process context the cell is its own target. -/
theorem currentTarget_serves (hbindings : h.core.bindings = [binding])
    (hcontext : h.store.doc (.processContext "cell") = none)
    (haccepted : h.store.doc (.acceptedQualification "cell") = none)
    (hrequired : h.store.doc (.hostBindingRequired "cell") = none) :
    Serves serving (currentTarget "cell") (fun t h' => t = none ∧ h' = h) h := by
  apply Serves.seq Serves.core
  have hdigest : bindingDigest h.core.bindings = .ok (Ideal.bindingsDigest [binding]) := by
    rw [hbindings]
    rfl
  have hbinding : h.core.binding "cell" = some binding := by
    rw [Core.binding, hbindings]
    rfl
  apply Serves.seq (Serves.replied hdigest)
  rw [hbinding]
  apply Serves.transactWith serving_helps
  simp only [currentAcceptance, requireConfigured, wp_bind, Tx.wp_get,
    doc_eq_none.mp hrequired, wp_pure, doc_eq_none.mp hcontext,
    doc_eq_none.mp haccepted, wp_ensure]
  simp [binding]

theorem Open.currentTarget (hopen : Open h) :
    Serves serving (currentTarget "cell") (fun t h' => t = none ∧ h' = h) h :=
  currentTarget_serves (by rw [hopen.core]; rfl) hopen.context hopen.accepted hopen.required

theorem Open.validateIdentity (hopen : Open h) (n : ℕ) :
    Serves serving (validateIdentity (request n)) (fun _ h' => h' = h) h := by
  have hdigest : intent.digest Ideal.intentDigest = .ok (Ideal.intentDigest intent) := rfl
  have hpurpose : Purpose.production ∈ binding.purposes := by decide
  have hscopes : binding.initialScopes.keys = binding.scopeIds.toFinset ∧
      binding.initialScopes.Positive := ⟨by decide, by decide⟩
  apply Serves.seq hopen.currentTarget
  apply Serves.seq Serves.core
  rw [hopen.core, request_permit, permit_cell, armedCore_binding]
  apply Serves.check (Serves.require hpurpose)
  apply Serves.seq (Serves.replied (congrArg (Except.mapError HostError.invalid) hdigest))
  apply Serves.check
  · apply Serves.require
    simp [binding, hdigest, Except.toOption]
  apply Serves.check (Serves.require rfl)
  exact Serves.require hscopes

theorem Open.readCore (hopen : Open h) :
    Serves serving Host.core (fun c t => c = armedCore ∧ t = h) h := by
  rw [← hopen.core]
  exact Serves.core

/-- The device is ready. -/
def guard : Guard := ⟨"device", ⟨"clock", 1⟩, {"ready"}⟩

theorem Open.permitState (hopen : Open h) (n : ℕ) :
    Serves serving (transact (permitState (request n)))
      (fun v t => v = (⟨1, binding.initialScopes, ∅⟩, Reordered.grant) ∧ t = h) h := by
  obtain ⟨i, hcell⟩ := doc_eq_some.mp hopen.cell
  obtain ⟨j, hgrant⟩ := doc_eq_some.mp hopen.grant
  have hretired := doc_eq_none.mp (hopen.retired (request n).permit.id)
  apply Serves.transact serving_helps
  simp only [Host.permitState, wp_bind, Tx.wp_get, hretired, wp_ensure]
  refine ⟨fun _ => ?_, fun hn => hn rfl⟩
  apply (Tx.wp_fetch hcell).mpr
  apply (Tx.wp_fetch hgrant).mpr
  exact ⟨rfl, rfl⟩

theorem Open.checkResources (hopen : Open h) :
    Serves serving (transact (forM intent.resourceSet (checkResource Reordered.grant.fence)))
      (fun _ t => t = h) h := by
  obtain ⟨k, harm⟩ := doc_eq_some.mp hopen.arm
  obtain ⟨l, hgripper⟩ := doc_eq_some.mp hopen.gripper
  apply Serves.transact serving_helps
  change wp
    (checkResource 1 "arm" >>= fun _ => checkResource 1 "gripper" >>= fun _ => pure ()) _ _ _
  rw [wp_bind, checkResource, wp_bind, Tx.wp_fetch harm, wp_ensure]
  refine ⟨fun _ => ?_, fun hn => hn rfl⟩
  rw [wp_bind, checkResource, wp_bind, Tx.wp_fetch hgripper, wp_ensure]
  exact ⟨fun _ => rfl, fun hn => hn rfl⟩

theorem Open.qualifiedSession (hopen : Open h) :
    Serves serving (qualifiedSession "cell") (fun v t => v = none ∧ t = h) h := by
  apply Serves.transact serving_helps
  rw [wp_bind, Tx.wp_get, doc_eq_none.mp hopen.accepted]
  exact ⟨rfl, rfl⟩

theorem Open.validateCurrent (hopen : Open h) (n : ℕ) :
    Serves serving (validateCurrent caller (request n) ⟨"clock", 0⟩)
      (fun g h' => g = guard ∧ h' = h) h := by
  apply Serves.check (Serves.requireAdmission serving_helps)
  apply Serves.seq Serves.core
  rw [hopen.core]
  have hcurrent : Ideal.freshId 2 = armedCore.boot ∧ before ⟨"clock", 0⟩ ⟨"clock", 1⟩ ∧
      "cell" ∈ armedCore.armed := ⟨rfl, by decide, by simp [armedCore]⟩
  apply Serves.check (Serves.require hcurrent)
  apply Serves.seq hopen.currentTarget
  apply Serves.seq (hopen.permitState n)
  apply Serves.check
  · apply Serves.require
    have hbefore : before ⟨"clock", 0⟩ ⟨"clock", 1⟩ := by decide
    exact ⟨rfl, rfl, rfl, rfl, rfl, rfl, hbefore, rfl, le_rfl, fun x hx => hx⟩
  apply Serves.check hopen.checkResources
  rw [request_permit, permit_cell, armedCore_binding]
  apply Serves.check (Serves.require (p := (permit n).conditions =
    binding.conditionIds.toFinset) rfl)
  apply Serves.seq (Serves.nativeGuard serving_helps rfl)
  apply Serves.seq hopen.qualifiedSession
  apply Serves.check (Serves.require (by simp))
  have hready : binding.conditionIds.toFinset ⊆ guard.satisfied ∧
      before ⟨"clock", 0⟩ guard.validUntil := ⟨by decide, by decide⟩
  apply Serves.check (Serves.require hready)
  exact Serves.pure ⟨rfl, rfl⟩

/-- Deliveries and consumed permits do not concern the checks. -/
theorem Open.congr (hopen : Open h) (hcore : h'.core = h.core)
    (hdoc : ∀ k, k.delivers = false → (∀ i, k ≠ .consumedPermit i) →
      h'.store.doc k = h.store.doc k) : Open h' where
  core := hcore.trans hopen.core
  cell := (hdoc _ rfl (by simp)).trans hopen.cell
  grant := (hdoc _ rfl (by simp)).trans hopen.grant
  arm := (hdoc _ rfl (by simp)).trans hopen.arm
  gripper := (hdoc _ rfl (by simp)).trans hopen.gripper
  context := (hdoc _ rfl (by simp)).trans hopen.context
  accepted := (hdoc _ rfl (by simp)).trans hopen.accepted
  required := (hdoc _ rfl (by simp)).trans hopen.required
  retired i := (hdoc _ rfl (by simp)).trans (hopen.retired i)

/-- The host has taken `n` operations to their end and can take the next one. -/
structure Ready (n : ℕ) (h : Machine) : Prop extends Open h where
  journals : ∃ m, h.store.doc .hostMeta = some m ∧ m.deliverySeq = 3 * n + 1
  history : ∀ i, 3 * n + 1 < i → h.store.doc (.deliveryHistory i) = none
  void : ∀ i, h.store.doc (.void i) = none
  consumed : ∀ i, n ≤ i → h.store.doc (.consumedPermit (operation i)) = none
  delivery : ∀ i, n ≤ i → h.store.doc (.delivery (operation i)) = none
  events : h.store.events.length = n
  generated : ∀ e ∈ h.store.events, ∃ k < h.drawn, e.1 = Ideal.freshId k
  captured : ∀ i < n, ∃ r id e, h.store.doc (.delivery (operation i)) = some r ∧
    r.state = .resultCaptured ∧ r.evidenceIds = [id] ∧ h.store.events[i]? = some (id, e)

-- Checked arithmetic on the literals of the source is not to be unfolded by unification.
attribute [local irreducible] checkedMul checkedAdd

/-- The record of the operation when it is prepared. -/
def prepared (n : ℕ) (invocation : Id) (until_ : Counter) : DeliveryRecord :=
  (request n).delivery (Ideal.freshId 2) invocation ⟨"clock", until_⟩ "device"

theorem prepareDuration_request (n : ℕ) :
    ∃ d, prepareDuration (request n).intent "prepare duration overflow" = .ok d ∧ 0 < d ∧
      d < counterBound := by
  have hvalue : (prepareDuration intent "prepare duration overflow").toOption = some 1000000 := by
    decide +kernel
  rw [request_intent]
  cases hd : prepareDuration intent "prepare duration overflow" with
  | error e => simp [hd, Except.toOption] at hvalue
  | ok d =>
    obtain rfl : d = 1000000 := by simpa [hd, Except.toOption] using hvalue
    exact ⟨_, rfl, by decide, by decide⟩

omit [Ideal] in
theorem prepareExpiry_serving {d : Counter} (hd : d < counterBound) (overflow : String) :
    prepareExpiry serving.now d overflow = .ok ⟨"clock", d⟩ := by
  have hadd : checkedAdd serving.now.ticksNs d = some d := by
    change checkedAdd 0 d = some d
    rw [checkedAdd, Nat.zero_add, if_pos hd]
  rw [prepareExpiry, hadd]
  rfl

theorem Ready.prepare (hready : Ready n h) (hn : n < 1000) (hm : h.store.doc .hostMeta = some m)
    (hseq : m.deliverySeq = 3 * n + 1) :
    Serves serving (Host.prepare caller (request n)) (fun _ h' => ∃ d > 0, h' = { h with
      drawn := h.drawn + 1
      store := h.store.delivered m (prepared n (Ideal.freshId h.drawn) d) }) h := by
  have hopen := hready.toOpen
  obtain ⟨d, hduration, hpos, hd⟩ := prepareDuration_request n
  apply Serves.check
  · apply Serves.seq hopen.readCore
    exact Serves.require rfl
  apply Serves.check (Serves.requireAdmission serving_helps)
  apply Serves.check (hopen.validateIdentity n)
  apply Serves.seq (Serves.row serving_helps _)
  rw [doc_eq_none.mp (hready.void _)]
  apply Serves.seq (Serves.row serving_helps _)
  have habsent := doc_eq_none.mp (hready.delivery n le_rfl)
  rw [request_operation, habsent]
  apply Serves.seq (Serves.clockNow serving_helps)
  apply Serves.seq (hopen.validateCurrent n)
  apply Serves.seq (Serves.replied hduration)
  apply Serves.seq hopen.readCore
  apply Serves.bind Serves.drawId
  rintro _ _ ⟨rfl, rfl⟩
  apply Serves.seq (Serves.replied (prepareExpiry_serving hd _))
  apply Serves.transact serving_helps
  apply Tx.wp_recordDelivery hm
  · rw [hseq]
    change 3 * n + 1 + 1 < 2 ^ 64
    omega
  · exact congrArg _ habsent
  · rw [hseq]
    exact hready.history _ (by omega)
  · exact ⟨d, hpos, rfl⟩

/-- The store when a prepared operation has been sent and its result was captured. -/
def finished (s : Store) (m : HostMeta) (r : DeliveryRecord) (id : Id)
    (e : EvidenceRecord) : Store :=
  Store.delivered ((Store.delivered (s.write (.consumedPermit r.operation)
    (r.operation, r.operation)) m r.sent).push id e) m.next ((r.sent.numbered m).captured id)

/-- The host has prepared the operation with number `n`. -/
structure Prepared (n : ℕ) (h : Machine) (m : HostMeta) (r : DeliveryRecord) : Prop extends
    Open h where
  record : ∃ invocation d, 0 < d ∧ ∃ m, r = (prepared n invocation d).numbered m
  found : h.store.doc (.delivery (operation n)) = some r
  journals : h.store.doc .hostMeta = some m
  bounded : m.deliverySeq + 2 < counterBound
  history : ∀ i, m.deliverySeq < i → h.store.doc (.deliveryHistory i) = none
  consumed : h.store.doc (.consumedPermit (operation n)) = none
  generated : ∀ e ∈ h.store.events, ∃ k < h.drawn, e.1 = Ideal.freshId k

theorem Ready.prepared (hready : Ready n h) (hn : n < 1000) (hseq : m.deliverySeq = 3 * n + 1)
    {d : Counter} (hd : 0 < d) (invocation : Id) :
    Prepared n { h with
      drawn := h.drawn + 1
      store := h.store.delivered m (Crowded.prepared n invocation d) } m.next
      ((Crowded.prepared n invocation d).numbered m) := by
  have hother : ∀ k, k.delivers = false →
      (h.store.delivered m (Crowded.prepared n invocation d)).doc k = h.store.doc k := by
    intro k hk
    exact (Store.frame_delivered h.store m _).doc (by simp [hk])
  refine ⟨hready.toOpen.congr rfl fun k hk _ => hother k hk, ⟨_, d, hd, m, rfl⟩,
    Store.doc_delivered_delivery, Store.doc_delivered_hostMeta, ?_, ?_, ?_, ?_⟩
  · rw [HostMeta.next_deliverySeq, hseq]
    change 3 * n + 1 + 1 + 2 < 2 ^ 64
    omega
  · intro i hi
    rw [HostMeta.next_deliverySeq] at hi
    rw [Store.doc_delivered_of_ne (by simp) (by simp) (by simpa using hi.ne')]
    exact hready.history i (hseq ▸ Nat.lt_of_succ_lt hi)
  · exact (hother _ rfl).trans (hready.consumed n le_rfl)
  · intro e he
    obtain ⟨k, hk, hid⟩ := hready.generated e he
    exact ⟨k, Nat.lt_succ_of_lt hk, hid⟩

/-- The machine when the sending of a prepared operation was committed. -/
def entered (h : Machine) (m : HostMeta) (r : DeliveryRecord) : Machine :=
  { h with
    store := Store.delivered
      (h.store.write (.consumedPermit r.operation) (r.operation, r.operation)) m r.sent }

theorem Prepared.recordSend (hprepared : Prepared n h m r) {revision : Counter}
    (hrow : h.store.get (.delivery (operation n)) = some ⟨revision, r⟩) :
    Serves serving (transact (recordSend (request n) r revision))
      (fun r' h' => r' = r.sent.numbered m ∧ h' = entered h m r) h := by
  have hconsumed := doc_eq_none.mp hprepared.consumed
  obtain ⟨i, d, hd, m₀, rfl⟩ := hprepared.record
  apply Serves.transact serving_helps
  rw [Host.recordSend, wp_bind, Tx.wp_get, request_permit, permit_id, hconsumed, wp_bind, wp_ensure]
  refine ⟨fun _ => ?_, fun hn => hn rfl⟩
  rw [wp_bind]
  apply Tx.wp_put
  · rw [hconsumed]
    rfl
  apply Tx.wp_recordDelivery (m := m)
  · rw [doc_write_of_ne (by simp)]
    exact hprepared.journals
  · exact Nat.lt_of_succ_lt hprepared.bounded
  · rw [get_write_of_ne (by simp)]
    exact congrArg _ hrow
  · rw [doc_write_of_ne (by simp)]
    exact hprepared.history _ (Nat.lt_succ_self _)
  · exact ⟨rfl, rfl⟩

/-- Consuming the permit and recording the sending do not concern the checks. -/
theorem Prepared.entered (hprepared : Prepared n h m r) : Open (entered h m r) := by
  refine hprepared.toOpen.congr (by rfl) fun k hk hpermit => ?_
  rw [Crowded.entered, (Store.frame_delivered _ m _).doc (by simp [hk]),
    doc_write_of_ne (hpermit _)]

theorem Prepared.persistCapture (hprepared : Prepared n h m r)
    (hstore : h'.store = (Crowded.entered h m r).store)
    (hdrawn : h'.drawn = h.drawn) :
    Serves serving (persistCapture (r.sent.numbered m) capture) (fun _ t =>
      t.core = h'.core ∧ t.drawn = h.drawn + 1 ∧ ∃ e, t.store =
        finished h.store m r (Ideal.freshId h.drawn) e) h' := by
  obtain ⟨i, d, hd, m₀, rfl⟩ := hprepared.record
  have hfound : h'.store.doc (.delivery (operation n)) =
      some (((prepared n i d).numbered m₀).sent.numbered m) := by
    rw [hstore]
    exact Store.doc_delivered_delivery
  have hjournals : h'.store.doc .hostMeta = some m.next := by
    rw [hstore]
    exact Store.doc_delivered_hostMeta
  obtain ⟨revision, hrow⟩ := doc_eq_some.mp hfound
  apply Serves.check (Serves.require rfl)
  apply Serves.bind Serves.drawId
  rintro _ _ ⟨rfl, rfl⟩
  apply Serves.transact serving_helps
  rw [recordCapture, wp_bind]
  apply (Tx.wp_fetch hrow).mpr
  rw [wp_bind]
  apply Tx.wp_append
  · -- the identifiers in the journal were drawn before
    intro e he heq
    rw [hstore] at he
    obtain ⟨k, hk, hid⟩ := hprepared.generated e he
    rw [← hdrawn] at hk
    exact hk.ne (Ideal.freshId.injective (hid.symm.trans heq))
  apply Tx.wp_recordDelivery (m := m.next)
  · exact hjournals
  · exact hprepared.bounded
  · exact congrArg _ hrow
  · change h'.store.doc (.deliveryHistory (m.deliverySeq + 1 + 1)) = none
    rw [hstore, Crowded.entered, Store.doc_delivered_of_ne (by simp) (by simp) (by simp),
      doc_write_of_ne (by simp)]
    exact hprepared.history _ (Nat.lt_succ_of_lt (Nat.lt_succ_self _))
  · exact ⟨rfl, congrArg (· + 1) hdrawn, _, by rw [← hdrawn, hstore]; rfl⟩

theorem Prepared.authorize (hprepared : Prepared n h m r) {invocation : Id}
    (hinvocation : r.invocation = some invocation) :
    Serves serving (Host.authorize caller (request n) invocation) (fun _ h' =>
      h'.core = h.core ∧ h'.drawn = h.drawn + 1 ∧ ∃ e, h'.store =
        finished h.store m r (Ideal.freshId h.drawn) e) h := by
  have hopen := hprepared.toOpen
  have hentered := hprepared.entered
  have hsend := @Prepared.recordSend _ h m r n hprepared
  have hpersist := @Prepared.persistCapture _ h ((Crowded.entered h m r).enter
    (nativeEntry (request n) invocation (r.sent.numbered m) serving.now guard)) m r n hprepared rfl
      rfl
  obtain ⟨revision, hrow⟩ := doc_eq_some.mp hprepared.found
  obtain ⟨i, d, hd, m₀, rfl⟩ := hprepared.record
  apply Serves.check
  · apply Serves.seq hopen.readCore
    exact Serves.require rfl
  apply Serves.check (Serves.requireAdmission serving_helps)
  apply Serves.check (hopen.validateIdentity n)
  apply Serves.seq (Serves.row serving_helps _)
  rw [request_operation, hrow]
  have hsame : SameOperation ((prepared n i d).numbered m₀) (request n) :=
    ⟨rfl, rfl, fun _ => rfl⟩
  apply Serves.check (Serves.require hsame)
  apply Serves.check (Serves.require ⟨hinvocation, rfl⟩)
  have hstate : ((prepared n i d).numbered m₀).state = .prepared := rfl
  rw [if_pos hstate]
  apply Serves.seq (Serves.clockNow serving_helps)
  apply Serves.seq hopen.readCore
  have hvalid : Ideal.freshId 2 = armedCore.boot ∧ before serving.now ⟨"clock", d⟩ :=
    ⟨rfl, rfl, hd⟩
  apply Serves.check (Serves.require hvalid)
  apply Serves.seq (hopen.validateCurrent n)
  apply Serves.check (Serves.require rfl)
  apply Serves.bind (hsend hrow)
  rintro _ _ ⟨rfl, rfl⟩
  -- the second check, after the commit
  apply Serves.seq (Serves.clockNow serving_helps)
  apply Serves.seq (hentered.validateCurrent n)
  apply Serves.check (Serves.require rfl)
  apply Serves.bind (Serves.submitWithContext serving_helps rfl)
  rintro _ _ ⟨rfl, rfl⟩
  exact hpersist

/-! The documents after an operation was taken to its end. -/

section Finished

variable {s : Store} {id : Id} {e : EvidenceRecord}

omit [Ideal] in
theorem doc_finished_hostMeta : (finished s m r id e).doc .hostMeta = some m.next.next :=
  Store.doc_delivered_hostMeta

omit [Ideal] in
theorem doc_finished_delivery : (finished s m r id e).doc (.delivery r.operation) =
    some (((r.sent.numbered m).captured id).numbered m.next) :=
  Store.doc_delivered_delivery

omit [Ideal] in
theorem events_finished : (finished s m r id e).events = s.events ++ [(id, e)] := rfl

omit [Ideal] in
/-- Everything but the operation and the journals stays. -/
theorem doc_finished_of_ne {k : Key} (hmeta : k ≠ .hostMeta) (hdelivery : k ≠ .delivery r.operation)
    (hpermit : k ≠ .consumedPermit r.operation)
    (hhistory : ∀ i ≤ m.deliverySeq + 2, k ≠ .deliveryHistory i) :
    (finished s m r id e).doc k = s.doc k := by
  calc (finished s m r id e).doc k
      = (Store.delivered (s.write (.consumedPermit r.operation) (r.operation, r.operation)) m
          r.sent).doc k := Store.doc_delivered_of_ne hmeta hdelivery (hhistory _ le_rfl)
    _ = (s.write (.consumedPermit r.operation) (r.operation, r.operation)).doc k :=
        Store.doc_delivered_of_ne hmeta hdelivery (hhistory _ (Nat.le_succ _))
    _ = s.doc k := doc_write_of_ne hpermit _

end Finished

theorem Ready.next (hready : Ready n h) (hseq : m.deliverySeq = 3 * n + 1) {invocation : Id}
    {d : Counter} {e : EvidenceRecord}
    (hcore : h'.core = h.core) (hdrawn : h'.drawn = h.drawn + 2)
    (hstore : h'.store = finished (h.store.delivered m (Crowded.prepared n invocation d)) m.next
      ((Crowded.prepared n invocation d).numbered m) (Ideal.freshId (h.drawn + 1)) e) :
    Ready (n + 1) h' := by
  have hnumber : m.next.deliverySeq + 2 = 3 * (n + 1) + 1 := by
    rw [HostMeta.next_deliverySeq, hseq]
    change 3 * n + 1 + 1 + 2 = _
    omega
  -- what the operation left alone
  have hother : ∀ k : Key, k ≠ .hostMeta → k ≠ .delivery (operation n) →
      k ≠ .consumedPermit (operation n) → (∀ i ≤ 3 * (n + 1) + 1, k ≠ .deliveryHistory i) →
      h'.store.doc k = h.store.doc k := by
    intro k hmeta hdelivery hpermit hhistory
    rw [hstore, doc_finished_of_ne hmeta hdelivery hpermit (by rwa [hnumber])]
    apply Store.doc_delivered_of_ne hmeta hdelivery
    apply hhistory
    rw [hseq]
    change 3 * n + 1 + 1 ≤ _
    omega
  have hevents : h'.store.events = h.store.events ++ [(Ideal.freshId (h.drawn + 1), e)] := by
    rw [hstore, events_finished, Store.events_delivered]
  have hfinished : h'.store.doc (.delivery (operation n)) = _ := hstore ▸ doc_finished_delivery
  refine ⟨hready.toOpen.congr hcore ?_, ⟨m.next.next.next, ?_, ?_⟩, ?_, ?_, ?_, ?_, ?_, ?_, ?_⟩
  · intro k hk hpermit
    have hne : ∀ {k' : Key}, k'.delivers = true → k ≠ k' := by
      intro k' hk' heq
      rw [heq, hk'] at hk
      cases hk
    exact hother k (hne rfl) (hne rfl) (hpermit _) fun _ _ => hne rfl
  · rw [hstore]
    exact doc_finished_hostMeta
  · exact hnumber
  · intro i hi
    have hlater : ∀ j ≤ 3 * (n + 1) + 1, Key.deliveryHistory i ≠ .deliveryHistory j := by
      intro j hj heq
      cases heq
      exact absurd hi (not_lt.mpr hj)
    rw [hother _ (by simp) (by simp) (by simp) hlater]
    apply hready.history i
    exact lt_trans (show 3 * n + 1 < 3 * (n + 1) + 1 by omega) hi
  · intro i
    rw [hother _ (by simp) (by simp) (by simp) (by simp)]
    exact hready.void i
  · intro i hi
    rw [hother _ (by simp) (by simp) (by simp [operation_injective.eq_iff]; omega) (by simp)]
    exact hready.consumed i (by omega)
  · intro i hi
    rw [hother _ (by simp) (by simp [operation_injective.eq_iff]; omega) (by simp) (by simp)]
    exact hready.delivery i (by omega)
  · rw [hevents, List.length_append, hready.events, List.length_singleton]
  · intro x hx
    rw [hevents, List.mem_append, List.mem_singleton] at hx
    rw [hdrawn]
    obtain hx | rfl := hx
    · obtain ⟨k, hk, hid⟩ := hready.generated x hx
      exact ⟨k, by omega, hid⟩
    · exact ⟨h.drawn + 1, by omega, rfl⟩
  · intro i hi
    obtain hlt | rfl := Nat.lt_succ_iff_lt_or_eq.mp hi
    · -- an earlier operation
      obtain ⟨r, id, e', hr, hstate, hids, hevent⟩ := hready.captured i hlt
      refine ⟨r, id, e', ?_, hstate, hids, ?_⟩
      · rw [hother _ (by simp) (by simp [operation_injective.eq_iff]; omega) (by simp) (by simp)]
        exact hr
      · rw [hevents, List.getElem?_append_left (hready.events ▸ hlt), hevent]
    · refine ⟨_, _, e, hfinished, rfl, rfl, ?_⟩
      rw [hevents, List.getElem?_append_right hready.events.le, hready.events, Nat.sub_self]
      rfl

/-- The host is up and has taken `n` operations to their end. -/
def Served (n : ℕ) (w : World) : Prop :=
  ∃ p, w.process = some p ∧ p.accepting = true ∧ Ready n (w.machine p)

/-- The two calls for an operation. -/
def calls (n : ℕ) (invocation : Id) : List Input :=
  [.call (.prepare caller (request n)) fun _ => serving,
    .call (.authorize caller (request n) invocation) fun _ => serving]

/-- Preparing and authorizing takes the next operation to its end. -/
theorem Served.next {inputs : List Input} (hserved : Served n (World.run inputs))
    (hn : n < 1000) : ∃ inputs', Served (n + 1) (World.run inputs') := by
  obtain ⟨p, hprocess, haccepting, hready⟩ := hserved
  obtain ⟨m, hm, hseq⟩ := hready.journals
  obtain ⟨-, p₁, hprocess₁, haccepting₁, d, hd, hprepare⟩ := World.step_serves
    (c := .prepare caller (request n)) hprocess haccepting (hready.prepare hn hm hseq)
  have hprepared := hready.prepared hn hseq hd (Ideal.freshId ((World.run inputs).machine p).drawn)
  rw [← hprepare] at hprepared
  obtain ⟨-, p₂, hprocess₂, haccepting₂, hcore, hdrawn, e, hstore⟩ := World.step_serves
    (c := .authorize caller (request n) (Ideal.freshId ((World.run inputs).machine p).drawn))
    hprocess₁ haccepting₁ (hprepared.authorize rfl)
  rw [hprepare] at hcore hdrawn hstore
  have hrun :=
    World.run_append inputs (calls n (Ideal.freshId ((World.run inputs).machine p).drawn))
  refine ⟨_, p₂, (congrArg World.process hrun).trans hprocess₂, haccepting₂, ?_⟩
  rw [hrun]
  exact hready.next hseq hcore hdrawn hstore

/-- The cell when it was armed. -/
def armedCell : CellState := (CellState.mk 1 binding.initialScopes ∅).cleared ∅

omit [Ideal] in
theorem armedCell_eq : armedCell = ⟨1, binding.initialScopes, ∅⟩ := by
  rw [armedCell, CellState.cleared, Finset.sdiff_empty]

/-- What the cell is armed with. -/
def armBody : GateBody := ⟨"cell", 1, binding.initialScopes, ∅⟩

/-- The receipt of the arm. -/
def armReceipt : GateReceipt where
  id := "attempt"
  hostBoot := Ideal.freshId 2
  journal := Ideal.freshId 0
  sequence := 1
  cell := "cell"
  state := armedCell

/-- The store when the cell was armed. -/
def armedStore : Store :=
  (Store.numbered (Reordered.grantedStore.write (.cell "cell") armedCell)
    ⟨Ideal.freshId 0, Ideal.freshId 1, 0⟩).write (.armRequest "attempt")
      (Ideal.armDigest armBody, armReceipt)

/-- Open the host, acquire a grant and arm the cell. -/
def armed : List Input :=
  Reordered.opened ++ [.call (Reordered.acquire ["arm", "gripper"]) Reordered.answers,
    .call (.arm caller "attempt" armBody) fun _ => serving]

theorem recordArm_serves : Serves serving
    (transact (recordArm (Ideal.freshId 2) "attempt" armBody)) (fun v h => v = (armReceipt, false) ∧
      h = ⟨⟨armedStore, [], 4⟩, Reordered.boundCore⟩)
    (Reordered.grantedWorld.machine Reordered.process) := by
  have hcell : Reordered.grantedStore.get (.cell "cell") =
      some ⟨1, ⟨1, binding.initialScopes, ∅⟩⟩ := rfl
  have hnew : Reordered.grantedStore.get (.armRequest "attempt") = none := rfl
  have hjournals : Reordered.grantedStore.doc .hostMeta =
      some ⟨Ideal.freshId 0, Ideal.freshId 1, 0⟩ := rfl
  apply Serves.transact serving_helps
  change wp _ _ _ Reordered.grantedStore
  rw [recordArm, wp_bind, Tx.wp_get, hnew, wp_bind]
  apply (Tx.wp_fetch hcell).mpr
  rw [wp_bind, wp_ensure]
  refine ⟨fun _ => ?_, fun hn => hn ⟨rfl, rfl, rfl⟩⟩
  rw [wp_bind]
  apply Tx.wp_put
  · exact congrArg _ hcell
  rw [wp_bind]
  apply Tx.wp_nextSequence
  · rw [doc_write_of_ne (by simp)]
    exact hjournals
  · exact Nat.one_lt_two_pow (n := 64) (by decide)
  rw [wp_bind]
  apply Tx.wp_put
  · rw [Store.numbered, get_write_of_ne (by simp), get_write_of_ne (by simp),
      hnew]
    rfl
  · exact ⟨rfl, rfl⟩

theorem arm_serves : Serves serving (Call.arm caller "attempt" armBody).exec
    (fun _ h => h = ⟨⟨armedStore, [], 4⟩, armedCore⟩)
    (Reordered.grantedWorld.machine Reordered.process) := by
  apply Serves.check
  · apply Serves.seq Serves.core
    exact Serves.require rfl
  apply Serves.check (Serves.requireAdmission serving_helps)
  apply Serves.seq (currentTarget_serves rfl rfl rfl rfl)
  apply Serves.seq Serves.core
  apply Serves.bind recordArm_serves
  rintro _ _ ⟨rfl, rfl⟩
  have hunblocked : ¬ false = true ∧ armReceipt.state.blocked = ∅ :=
    ⟨Bool.false_ne_true, congrArg CellState.blocked armedCell_eq⟩
  dsimp only
  rw [if_pos hunblocked]
  apply Serves.bind Serves.setCore
  rintro _ _ rfl
  exact Serves.pure rfl

/-- What is stored when the cell was armed. -/
def armedKeys : List Key :=
  [.armRequest "attempt", .hostMeta, .cell "cell", .grantRequest "request",
    .grant (Ideal.freshId 3), .resource "gripper", .resource "arm"]

theorem doc_armedStore_of_notMem {k : Key} (hk : k ∉ armedKeys) : armedStore.doc k = none := by
  simp only [armedKeys, List.mem_cons, List.not_mem_nil, or_false, not_or] at hk
  obtain ⟨hrequest, hmeta, hcell, hgrantRequest, hgrant, hgripper, harm⟩ := hk
  rw [armedStore, doc_write_of_ne hrequest, Store.doc_numbered_of_ne hmeta,
    doc_write_of_ne hcell, Reordered.grantedStore,
    doc_write_of_ne hgrantRequest, doc_write_of_ne hgrant,
    doc_write_of_ne hgripper, doc_write_of_ne harm, Reordered.store,
    doc_write_of_ne hcell, doc_write_of_ne hmeta]
  rfl

theorem ready_armed : Ready 0 ⟨⟨armedStore, [], 4⟩, armedCore⟩ where
  core := rfl
  cell := congrArg some armedCell_eq
  grant := by
    -- the identifier of the grant is not a literal
    change armedStore.doc (.grant (Ideal.freshId 3)) = some Reordered.grant
    rw [armedStore, doc_write_of_ne (by simp), Store.doc_numbered_of_ne (by simp),
      doc_write_of_ne (by simp), Reordered.grantedStore,
      doc_write_of_ne (by simp), Repository.doc_write_self]
  arm := rfl
  gripper := rfl
  context := doc_armedStore_of_notMem (by simp [armedKeys])
  accepted := doc_armedStore_of_notMem (by simp [armedKeys])
  required := doc_armedStore_of_notMem (by simp [armedKeys])
  retired _ := doc_armedStore_of_notMem (by simp [armedKeys])
  journals := ⟨⟨Ideal.freshId 0, Ideal.freshId 1, 1⟩, rfl, rfl⟩
  history _ _ := doc_armedStore_of_notMem (by simp [armedKeys])
  void _ := doc_armedStore_of_notMem (by simp [armedKeys])
  consumed _ _ := doc_armedStore_of_notMem (by simp [armedKeys])
  delivery _ _ := doc_armedStore_of_notMem (by simp [armedKeys])
  events := rfl
  generated _ he := absurd he List.not_mem_nil
  captured _ hi := absurd hi (Nat.not_lt_zero _)

theorem served_armed : Served 0 (World.run armed) := by
  have hgranted : (World.run Reordered.opened).step
      (.call (Reordered.acquire ["arm", "gripper"]) Reordered.answers) =
        Reordered.grantedWorld := by
    rw [Reordered.run_opened]
    exact congrArg Prod.snd Reordered.call_eq
  have hrun : World.run armed = Reordered.grantedWorld.step
      (.call (.arm caller "attempt" armBody) fun _ => serving) := by
    rw [armed, World.run_append]
    simp only [Durable.Runs.after_cons, Durable.Runs.after_nil, hgranted]
  obtain ⟨-, p, hprocess, haccepting, harmed⟩ := World.step_serves rfl rfl arm_serves
  rw [hrun]
  refine ⟨p, hprocess, haccepting, ?_⟩
  rw [harmed]
  exact ready_armed

theorem exists_served (hn : n ≤ 1000) : ∃ inputs, Served n (World.run inputs) := by
  induction n with
  | zero => exact ⟨armed, served_armed⟩
  | succ n ih =>
    obtain ⟨inputs, hserved⟩ := ih (Nat.le_of_succ_le hn)
    exact hserved.next hn

theorem Open.authorized (hopen : Open h) :
    Serves serving (authorized caller) (fun _ t => t = h) h := by
  apply Serves.seq hopen.readCore
  exact Serves.require rfl

/-- Nothing is asked of the adapter for an operation that is finished. -/
theorem Ready.reconcile {n i : ℕ} (hready : Ready n h) (hi : i < n) :
    Serves serving (reconcile caller (operation i)) (fun _ t => t = h) h := by
  obtain ⟨r, id, e, hr, hstate, -⟩ := hready.captured i hi
  obtain ⟨revision, hrow⟩ := doc_eq_some.mp hr
  apply Serves.check hready.authorized
  apply Serves.seq (Serves.row serving_helps _)
  rw [hrow]
  dsimp only
  cases r.invocation with
  | none => exact Serves.pure rfl
  | some invocation =>
    dsimp only
    rw [hstate, if_neg (by decide)]
    exact Serves.pure rfl

theorem Ready.journals_serves (hready : Ready n h) :
    Serves serving Host.journals (fun _ t => t = h) h := by
  obtain ⟨m, hm, -⟩ := hready.journals
  obtain ⟨revision, hrow⟩ := doc_eq_some.mp hm
  apply Serves.transact serving_helps
  rw [wp_bind]
  exact (Tx.wp_fetch hrow).mpr rfl

theorem Ready.evidenceAfter (hready : Ready n h) :
    Serves serving (evidenceAfter caller 0 128) (fun _ t => t = h) h := by
  apply Serves.check hready.authorized
  have hread : Serves serving (eventsAfter 0 128) (fun _ t => t = h) h := by
    apply Serves.transact serving_helps
    rw [wp_bind, wp_ensure]
    exact ⟨fun _ => rfl, fun hn => hn (by decide)⟩
  apply Serves.bind hread
  rintro _ _ rfl
  exact Serves.pure rfl

/-- The reconcile call answers for an operation that is finished, and leaves the host as it is. -/
theorem Served.reconcileRpc {w : World} (hserved : Served n w) {i : ℕ} (hi : i < n) :
    ∃ batch w', Host.reconcileRpc w caller (operation i) (fun _ _ => serving) (fun _ => []) =
      some (batch, w') ∧ Served n w' := by
  obtain ⟨p, hprocess, haccepting, hready⟩ := hserved
  obtain ⟨_, w₁, p₁, hask₁, hprocess₁, haccepting₁, hsame₁⟩ :=
    World.ask_serves (hready.reconcile hi) haccepting
  rw [← hsame₁] at hready
  obtain ⟨m, w₂, p₂, hask₂, hprocess₂, haccepting₂, hsame₂⟩ :=
    World.ask_serves hready.journals_serves haccepting₁
  rw [← hsame₂] at hready
  obtain ⟨records, w₃, p₃, hask₃, hprocess₃, haccepting₃, hsame₃⟩ :=
    World.ask_serves hready.evidenceAfter haccepting₂
  rw [← hsame₃] at hready
  refine ⟨EvidenceBatch.of m records, w₃, ?_, p₃, hprocess₃, haccepting₃, hready⟩
  simp only [Host.reconcileRpc, World.others, List.map_nil, Durable.Runs.after_nil, hprocess, hask₁,
    hprocess₁, hask₂, hprocess₂, hask₃, Option.bind_eq_bind, Option.bind_some, Option.pure_def]

end Crowded

open Crowded in
omit [Ideal] in
/-- With one operation the batch holds its evidence. -/
theorem reconcile_answers_first : ∃ (_ : Ideal) (inputs : List Input) (batch : EvidenceBatch)
    (w : World) (r : DeliveryRecord),
    reconcileRpc (World.run inputs) Reordered.caller (operation 0) (fun _ _ => serving)
      (fun _ => []) = some (batch, w) ∧
    w.store.doc (.delivery (operation 0)) = some r ∧ r.state = .resultCaptured ∧
    batch.Answers w.store r := by
  obtain ⟨ideal⟩ := Ideal.nonempty
  obtain ⟨inputs, hserved⟩ := exists_served (n := 1) (by decide)
  obtain ⟨batch, w, hreply, p, -, -, hready⟩ := hserved.reconcileRpc Nat.one_pos
  obtain ⟨r, id, e, hr, hstate, hids, hevent⟩ := hready.captured 0 Nat.one_pos
  refine ⟨ideal, inputs, batch, w, r, hreply, hr, hstate, ?_⟩
  apply ((reconcile_answers_iff inputs _ _ _ _ batch w hreply).answers r hr hstate).mpr
  refine ⟨(id, e), ?_, by simp [hids]⟩
  apply List.mem_of_getElem? (i := 0)
  rw [List.getElem?_take_of_lt (by decide)]
  exact hevent

open Crowded in
omit [Ideal] in
/-- With 129 operations the batch does not hold the evidence of the last one. -/
theorem reconcile_misses_evidence : ∃ (_ : Ideal) (inputs : List Input) (batch : EvidenceBatch)
    (w : World) (r : DeliveryRecord),
    reconcileRpc (World.run inputs) Reordered.caller (operation 128) (fun _ _ => serving)
      (fun _ => []) = some (batch, w) ∧
    w.store.doc (.delivery (operation 128)) = some r ∧ r.state = .resultCaptured ∧
    ¬ batch.Answers w.store r := by
  obtain ⟨ideal⟩ := Ideal.nonempty
  obtain ⟨inputs, hserved⟩ := exists_served (n := 129) (by decide)
  obtain ⟨batch, w, hreply, p, -, -, hready⟩ := hserved.reconcileRpc (i := 128) (by decide)
  obtain ⟨r, id, e, hr, hstate, hids, hevent⟩ := hready.captured 128 (by decide)
  obtain ⟨hmoves, journal, rfl⟩ := reconcileRpc_eq_some (World.run_reachable inputs) hreply
  have hw : w.Reachable := Disk.Reachable.moves (World.run_reachable inputs) hmoves
  refine ⟨ideal, inputs, _, w, r, hreply, hr, hstate, ?_⟩
  intro hanswers
  obtain ⟨x, hx, hmem⟩ := (EvidenceBatch.answers_iff hw hr hstate journal).mp hanswers
  rw [hids, List.mem_singleton] at hmem
  -- the event of the operation is the last of 129, and identifiers are distinct
  obtain ⟨j, hget⟩ := List.mem_iff_getElem?.mp hx
  obtain ⟨hj, hget⟩ : j < 128 ∧ w.store.events[j]? = some x := by
    rw [List.getElem?_take] at hget
    split at hget
    · exact ⟨‹_›, hget⟩
    · cases hget
  have hlast : (w.store.events.map Prod.fst)[128]? = (w.store.events.map Prod.fst)[j]? := by
    rw [List.getElem?_map, List.getElem?_map, hget, Option.map_some, hmem]
    exact congrArg _ hevent
  have hlength : 128 < (w.store.events.map Prod.fst).length := by
    rw [List.length_map]
    exact hready.events ▸ Nat.lt_succ_self 128
  exact hj.ne' ((List.getElem?_inj hlength hw.distinct).mp hlast)

end RxSolutions.Host
