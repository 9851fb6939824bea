import RxSolutions.Durable.Ledger
import RxSolutions.Host.Records

/-!
# Native submission is entered at most once

The deliveries, tombstones and consumed permits of a disk are read as a ledger of
operations, and every commit is a step of that ledger or leaves it alone. So no
operation and no permit is entered twice, across any crashes and restarts, and what is
voided is never entered.
-/

namespace RxSolutions.Host

open Domain Durable Program Relation

/-- What a delivery state says of the life of its operation. -/
def ReceiptState.life : ReceiptState → Life
  | .prepared => .prepared
  | .sendEntered | .nativeAccepted => .sent
  | .nativeRejected | .resultCaptured => .settled
  | .voidedBeforeSend => .voided

theorem ReceiptState.InFlight.life {s : ReceiptState} (h : s.InFlight) : s.life = .sent := by
  rcases h with rfl | rfl <;> rfl

namespace Store

/-- What is stored about operations, as a ledger with the entries made so far. -/
def ledger (s : Store) (entered : List (Id × Id)) : Ledger Id Id where
  life operation := (s.doc (.delivery operation)).elim .absent fun r => r.state.life
  barred := { operation | s.doc (.void operation) ≠ none }
  spent := { permit | s.doc (.consumedPermit permit) ≠ none }
  entered := entered

variable {s s' : Store} {m : HostMeta} {r : DeliveryRecord} {entered : List (Id × Id)}

theorem ledger_congr (h : ∀ k : Key, k.operational = true → s'.doc k = s.doc k) :
    s'.ledger entered = s.ledger entered := by
  ext1
  · funext operation
    simp only [ledger, h (.delivery operation) rfl]
  · ext operation
    simp only [ledger, Set.mem_ofPred_eq, h (.void operation) rfl]
  · ext permit
    simp only [ledger, Set.mem_ofPred_eq, h (.consumedPermit permit) rfl]
  · rfl

/-- A delivery changes the life of its own operation. -/
theorem ledger_delivered :
    (s.delivered m r).ledger entered = (s.ledger entered).set r.operation r.state.life := by
  ext1
  · funext operation
    by_cases hop : operation = r.operation
    · subst hop
      rw [Ledger.life_set_self]
      simp only [ledger, doc_delivered_delivery]
      rfl
    · rw [Ledger.life_set_of_ne hop]
      simp only [ledger, doc_delivered_delivery_of_ne hop]
  · ext operation
    simp [ledger, Ledger.set, doc_delivered_of_ne]
  · ext permit
    simp [ledger, Ledger.set, doc_delivered_of_ne]
  · rfl

theorem ledger_consume {permit : Id} (v : Id × Id) :
    ledger (s.write (.consumedPermit permit) v) entered =
      { s.ledger entered with spent := insert permit (s.ledger entered).spent } := by
  ext1
  · funext operation
    simp [ledger, Repository.doc_write_of_ne]
  · ext operation
    simp [ledger, Repository.doc_write_of_ne]
  · ext p
    by_cases hp : p = permit
    · subst hp
      simp [ledger]
    · simp [ledger, Repository.get_write_of_ne, hp]
  · rfl

theorem ledger_void {operation : Id} (v : VoidRecord) :
    ledger (s.write (.void operation) v) entered =
      { s.ledger entered with barred := insert operation (s.ledger entered).barred } := by
  ext1
  · funext operation
    simp [ledger, Repository.doc_write_of_ne]
  · ext op
    by_cases hop : op = operation
    · subst hop
      simp [ledger]
    · simp [ledger, Repository.get_write_of_ne, hop]
  · ext permit
    simp [ledger, Repository.doc_write_of_ne]
  · rfl

theorem ledger_life {operation : Id} (h : s.doc (.delivery operation) = some r) :
    (s.ledger entered).life operation = r.state.life := by
  simp [ledger, h]

theorem ledger_life_absent {operation : Id} (h : s.doc (.delivery operation) = none) :
    (s.ledger entered).life operation = .absent := by
  simp only [ledger, h, Option.elim_none]

theorem ledger_numbered : (s.numbered m).ledger entered = s.ledger entered :=
  ledger_congr fun _ hk => doc_numbered_of_ne (by rintro rfl; cases hk)

theorem ledger_retire {permit : Id} (v : Id) :
    ledger (s.write (.retiredPermit permit) v) entered = s.ledger entered := by
  ext1
  · funext operation
    simp [ledger, Repository.doc_write_of_ne]
  · ext operation
    simp [ledger, Repository.doc_write_of_ne]
  · ext p
    simp [ledger, Repository.doc_write_of_ne]
  · rfl

end Store

/-- The disk as a ledger of operations. -/
def Disk.ledger (d : Disk) : Ledger Id Id :=
  d.store.ledger (d.entries.map fun e => (e.operation, e.request.permit.id))

section Refinement

variable [Ideal] {h h' : Machine} {d d' : Disk}

omit [Ideal] in
theorem Machine.ledger_sent {request : Request} {record : DeliveryRecord} {m : HostMeta} :
    (h.sent request record m).ledger = { h.ledger.set record.operation .sent with
      spent := insert request.permit.id h.ledger.spent } := by
  rw [Disk.ledger, Machine.sent, Store.ledger_delivered, Store.ledger_consume]
  rfl

omit [Ideal] in
theorem Machine.ledger_enter {entry : Core → Store → NativeEntry} :
    (h.enter entry).ledger = { h.ledger with
      entered := h.ledger.entered ++
        [((entry h.core h.store).operation, (entry h.core h.store).request.permit.id)] } := by
  simp only [Disk.ledger, Machine.enter, List.map_append, List.map_singleton]
  rfl

/-- A step on operations is a step of the ledger, or leaves it alone. -/
theorem OperationStep.ledger (step : OperationStep h h') (hreg : h.Regular) :
    h'.ledger = h.ledger ∨ Ledger.Step h.ledger h'.ledger := by
  cases step with
  | prepared step => cases step with
    | fresh _ _ unvoided absent =>
      rw [Disk.ledger, Store.ledger_delivered]
      exact .inr (.prepare (Store.ledger_life_absent absent) (not_not.mpr unvoided))
    | rebind _ _ _ found _ unsent =>
      -- the record stays prepared, under another permit
      rw [Disk.ledger, Store.ledger_delivered, Store.ledger_retire]
      refine .inl (Ledger.set_eq_self ?_)
      rw [DeliveryRecord.rebound_operation, hreg.filed _ _ found, Store.ledger_life found,
        DeliveryRecord.rebound_state]
  | sent step => cases step with
    | mk ready =>
      rw [Machine.ledger_sent]
      refine .inr (.send ?_ (not_not.mpr ready.unconsumed))
      rw [ready.operation, Disk.ledger, Store.ledger_life ready.found, ready.unsent]
      rfl
  | entered step => cases step with
    | mk ready =>
      rw [Machine.ledger_enter, Machine.ledger_sent]
      refine .inr (.enter ?_ (not_not.mpr ready.unconsumed))
      rw [ready.operation, Disk.ledger, Store.ledger_life ready.found, ready.unsent]
      rfl
  | captured step => cases step with
    | mk found flying =>
      rw [Disk.ledger, Store.ledger_delivered]
      refine .inr (.settle ?_)
      rw [DeliveryRecord.captured_operation, Disk.ledger, Store.ledger_life found, flying.life]
  | voided step => cases step with
    | unknown unvoided absent =>
      rw [Disk.ledger, Store.ledger_void, Store.ledger_numbered]
      exact .inr (.bar (Store.ledger_life_absent absent))
    | prepared unvoided found same unsent =>
      rw [Disk.ledger, Store.ledger_void, Store.ledger_numbered, Store.ledger_delivered,
        DeliveryRecord.voided_operation, hreg.filed _ _ found]
      refine .inr (.void ?_)
      rw [Disk.ledger, Store.ledger_life found, unsent]
      rfl

/-- Commits refine the ledger. -/
theorem Disk.Move.ledger (move : d.Move d') (hd : d.Regular) :
    d'.ledger = d.ledger ∨ Ledger.Step d.ledger d'.ledger := by
  rcases move.operation with hsame | ⟨h, h', rfl, rfl, hstep⟩
  · left
    rw [Disk.ledger, Disk.ledger, hsame.entries]
    exact Store.ledger_congr fun k hk => Repository.doc_congr (hsame.get k hk)
  · exact hstep.ledger hd

theorem Disk.Reachable.sound (hd : d.Reachable) : d.ledger.Sound := by
  refine hd.inductionOn (P := fun d => d.ledger.Sound) ?_ fun d d' hmove hreach hsound => ?_
  · exact ⟨List.nodup_nil, List.nodup_nil, by simp [Disk.ledger, World.empty, Store.ledger],
      by simp [Disk.ledger, World.empty, Store.ledger],
      by simp [Disk.ledger, World.empty, Store.ledger]⟩
  · rcases hmove.ledger hreach.regular with heq | hstep
    · rw [heq]
      exact hsound
    · exact hsound.step hstep

end Refinement

/-! ## What was checked when an entry was made -/

section Checked

variable [Ideal] {d d' : Disk}

/-- Everything an entry into native submission was checked against. -/
structure NativeEntry.Checked (e : NativeEntry) : Prop where
  sent : ∃ r, e.store.doc (.delivery e.operation) = some r ∧ r.state = .sendEntered ∧
    r.invocation = some e.invocation ∧ r.intent = e.intent ∧ r.digest = e.request.digest ∧
    r.cell = e.request.permit.cell
  operation : e.operation = e.request.operation
  digest : e.request.intent.digest Ideal.intentDigest = .ok e.request.digest
  grant : e.request.permit.grant = e.request.grant
  current : ∃ (h : Machine) (caller : Caller), h.store = e.store ∧ h.core = e.core ∧
    Current h caller e.request e.checkedAt e.guard

theorem EnterStep.checked {h h' : Machine} {caller : Caller} {request : Request} {invocation : Id}
    {r : DeliveryRecord} (step : EnterStep h caller request invocation r h') :
    ∃ e, h'.entries = h.entries ++ [e] ∧ e.store = h'.store ∧ e.core = h.core ∧
      h'.core = h.core ∧ e.request = request ∧ e.Checked := by
  cases step with
  | mk ready current session =>
    refine ⟨_, rfl, rfl, rfl, rfl, rfl, ?_⟩
    exact {
      sent := ⟨_, Store.doc_delivered_delivery, rfl, ready.invoked, rfl, ready.same.1,
        ready.same.2.1⟩
      operation := ready.operation
      digest := ready.identified.digest
      grant := ready.identified.grant
      current := ⟨_, caller, rfl, rfl, current⟩ }

/-- A commit that logs an entry has just written the store the entry was checked on. -/
theorem Disk.Move.entered (move : d.Move d') : d'.entries = d.entries ∨
    ∃ e, d'.entries = d.entries ++ [e] ∧ e.store = d'.store ∧ e.Checked := by
  rcases move.operation with hsame | ⟨h, h', rfl, rfl, hstep⟩
  · exact .inl hsame.entries
  · cases hstep with
    | prepared step | voided step => cases step <;> exact .inl rfl
    | sent step | captured step => cases step; exact .inl rfl
    | entered step =>
      obtain ⟨e, heq, hstore, -, -, -, hchecked⟩ := step.checked
      exact .inr ⟨e, heq, hstore, hchecked⟩

/-- What holds of every entry when it is made holds of every entry there is. -/
theorem Disk.Reachable.every_entry {P : NativeEntry → Prop}
    (hmade : ∀ {h h' : Machine} {caller request invocation r},
      EnterStep h caller request invocation r h' → ∀ e ∈ h'.entries, e ∈ h.entries ∨ P e)
    (hd : d.Reachable) : ∀ e ∈ d.entries, P e := by
  refine hd.inductionOn (P := fun d => ∀ e ∈ d.entries, P e) (by simp [World.empty]) ?_
  intro d d' hmove _ hold e he
  rcases hmove.operation with hsame | ⟨h, h', rfl, rfl, hstep⟩
  · exact hold e (hsame.entries ▸ he)
  · cases hstep with
    | prepared step | voided step => cases step <;> exact hold e he
    | sent step | captured step => cases step; exact hold e he
    | entered step => exact (hmade step e he).elim (hold e) id

theorem Disk.Reachable.checked (hd : d.Reachable) : ∀ e ∈ d.entries, e.Checked := by
  refine hd.every_entry fun step e he => ?_
  obtain ⟨new, heq, -, -, -, -, hchecked⟩ := step.checked
  rw [heq] at he
  rcases List.mem_append.mp he with hmem | hmem
  · exact .inl hmem
  · exact .inr (List.mem_singleton.mp hmem ▸ hchecked)

variable {e : NativeEntry}

/-- The disk an entry was made on: it held the store of the entry, and the entry itself. -/
theorem Disk.Reachable.entry_disk (hd : d.Reachable) (he : e ∈ d.entries) :
    ∃ d₀ : Disk, d₀.Reachable ∧ d₀.Moves d ∧ d₀.store = e.store ∧ e ∈ d₀.entries := by
  refine hd.inductionOn (P := fun d => ∀ e ∈ d.entries,
    ∃ d₀ : Disk, d₀.Reachable ∧ d₀.Moves d ∧ d₀.store = e.store ∧ e ∈ d₀.entries)
    (by simp [World.empty]) ?_ e he
  intro d d' hmove hreach ih e he
  have hold : e ∈ d.entries →
      ∃ d₀ : Disk, d₀.Reachable ∧ d₀.Moves d' ∧ d₀.store = e.store ∧ e ∈ d₀.entries := by
    intro hmem
    obtain ⟨d₀, hd₀, hmoves, hstore, hentry⟩ := ih e hmem
    exact ⟨d₀, hd₀, hmoves.tail hmove, hstore, hentry⟩
  rcases hmove.entered with heq | ⟨new, heq, hstore, -⟩
  · exact hold (heq ▸ he)
  · rcases List.mem_append.mp (heq ▸ he) with hmem | hmem
    · exact hold hmem
    · obtain rfl := List.mem_singleton.mp hmem
      exact ⟨d', hreach.moves (.single hmove), .refl, hstore.symm, he⟩

/-- An entry is logged by `authorize` only, with the core of its process and the store it was
checked on. -/
theorem Step.entered_cases {c : Call} {h h' : Machine} (step : Step c h h') :
    h'.entries = h.entries ∨ ∃ e, h'.entries = h.entries ++ [e] ∧ e.store = h'.store ∧
      e.core = h.core ∧ ∃ caller request invocation, c = .authorize caller request invocation := by
  rcases step.operation with hsame | hoperation
  · exact .inl hsame.entries
  · cases step with
    | entered step =>
      obtain ⟨e, heq, hstore, hcore, -⟩ := step.checked
      exact .inr ⟨e, heq, hstore, hcore, _, _, _, rfl⟩
    | prepared step | voided step => cases step <;> exact .inl rfl
    | drew | disarmed => exact .inl rfl
    | bound step | claimed step | booted step | sent step | finished step | captured step
    | fenced step | armed step | granted step | renewed step | configured step | qualified step
    | acknowledged step => cases step; exact .inl rfl

/-- `authorize` leaves the core alone. -/
theorem Steps.core_eq {caller : Caller} {request : Request} {invocation : Id} {h h' : Machine}
    (hs : Steps (.authorize caller request invocation) h h') : h'.core = h.core := by
  induction hs with
  | refl => rfl
  | tail _ hlast ih =>
    rw [← ih]
    cases hlast with
    | drew => rfl
    | sent step | entered step | finished step => cases step; rfl

/-- An entry made during a call has the core of the process, and a store the call went
through. -/
theorem Steps.entered {c : Call} {h₀ h : Machine} (hs : Steps c h₀ h)
    (he : e ∈ h.entries.drop h₀.entries.length) :
    e.core = h₀.core ∧ ∃ h₁, Steps c h₀ h₁ ∧ Steps c h₁ h ∧ e.store = h₁.store := by
  induction hs with
  | refl => simp at he
  | @tail h₁ h hsteps hlast ih =>
    have hold : e ∈ h₁.entries.drop h₀.entries.length →
        e.core = h₀.core ∧ ∃ h₂, Steps c h₀ h₂ ∧ Steps c h₂ h ∧ e.store = h₂.store := by
      intro hmem
      obtain ⟨hcore, h₂, hfirst, hthen, hstore⟩ := ih hmem
      exact ⟨hcore, h₂, hfirst, hthen.tail hlast, hstore⟩
    rcases hlast.entered_cases with heq | ⟨e', heq, hstore, hcore, _, _, _, rfl⟩
    · rw [heq] at he
      exact hold he
    · have hle : h₀.entries.length ≤ h₁.entries.length := (Steps.moves hsteps).entries.length_le
      rw [heq, List.drop_append_of_le_length hle] at he
      rcases List.mem_append.mp he with he | he
      · exact hold he
      · obtain rfl := List.mem_singleton.mp he
        exact ⟨hcore.trans (Steps.core_eq hsteps), h, hsteps.tail hlast, .refl, hstore⟩

/-- An entry made after a world was made by one of the inputs since, on the process that was
running then and on a store reached since. -/
theorem World.entered_since {w : World} (hw : w.Reachable) {after : List Input}
    (he : e ∈ (w.steps after).entries.drop w.entries.length) :
    ∃ a i b p, after = a ++ i :: b ∧
      e ∈ ((w.steps a).step i).entries.drop (w.steps a).entries.length ∧
      (w.steps a).process = some p ∧ e.core = p.core ∧
      ∃ d, w.Moves d ∧ d.Moves (w.steps after).toDisk ∧ d.store = e.store := by
  induction after using List.reverseRecOn with
  | nil => simp at he
  | append_singleton after i ih =>
    have hreach := steps_reachable hw after
    have hmoves := steps_moves hw.regular after
    have hchange := step_change (i := i) hreach.regular
    have hlast := hchange.moves
    simp only [Durable.Runs.after_concat] at he ⊢
    have hold : e ∈ (w.steps after).entries.drop w.entries.length →
        ∃ a i' b p, after ++ [i] = a ++ i' :: b ∧
          e ∈ ((w.steps a).step i').entries.drop (w.steps a).entries.length ∧
          (w.steps a).process = some p ∧ e.core = p.core ∧
          ∃ d, w.Moves d ∧ d.Moves ((w.steps after).step i).toDisk ∧ d.store = e.store := by
      intro hmem
      obtain ⟨a, i', b, p, heq, hby, hp, hcore, d, hfirst, hthen, hstore⟩ := ih hmem
      exact ⟨a, i', b ++ [i], p, by simp [heq], hby, hp, hcore, d, hfirst, hthen.trans hlast,
        hstore⟩
    generalize hw' : (w.steps after).step i = w' at hchange hlast he hold ⊢
    cases hchange with
    | ignored | stopped | failed | maintained => exact hold he
    | started idle step =>
      cases step
      exact hold he
    | @called c answers p h q running steps kept =>
      have hle : w.entries.length ≤ (w.steps after).entries.length := hmoves.entries.length_le
      obtain ⟨l, hl⟩ := steps.moves.entries
      by_cases hmem : e ∈ (w.steps after).entries.drop w.entries.length
      · exact hold hmem
      · have hnew : e ∈ h.entries.drop ((w.steps after).machine p).entries.length := by
          change e ∈ h.entries.drop w.entries.length at he
          change e ∈ h.entries.drop (w.steps after).entries.length
          rw [← hl] at he ⊢
          change e ∈ ((w.steps after).entries ++ l).drop w.entries.length at he
          rw [List.drop_append_of_le_length hle] at he
          change e ∈ ((w.steps after).entries ++ l).drop (w.steps after).entries.length
          rw [List.drop_left]
          exact (List.mem_append.mp he).resolve_left hmem
        obtain ⟨hcore, h₁, hfirst, hthen, hstore⟩ := steps.entered hnew
        refine ⟨after, _, [], p, rfl, ?_, running, hcore, h₁.toDisk,
          hmoves.trans hfirst.moves, hthen.moves, hstore.symm⟩
        rw [hw']
        exact hnew

end Checked

/-- In every run, native submission is entered at most once for each operation and for each
permit, and the store already says so when it is. -/
theorem native_entry_at_most_once [Ideal] (inputs : List Input) :
    ((World.run inputs).entries.map NativeEntry.operation).Nodup ∧
    ((World.run inputs).entries.map fun e => e.request.permit.id).Nodup ∧
    ∀ e ∈ (World.run inputs).entries, ∃ r,
      e.store.doc (.delivery e.operation) = some r ∧ r.state = .sendEntered ∧
        r.invocation = some e.invocation := by
  have hreach := World.run_reachable inputs
  refine ⟨?_, ?_, fun e he => ?_⟩
  · simpa [Disk.ledger, Store.ledger, Function.comp_def] using hreach.sound.operations
  · simpa [Disk.ledger, Store.ledger, Function.comp_def] using hreach.sound.permits
  · obtain ⟨r, hr, hstate, hinvocation, -⟩ := (hreach.checked e he).sent
    exact ⟨r, hr, hstate, hinvocation⟩

/-! ## Voided operations -/

section Void

variable [Ideal] {w w' : World} {p : Process} {operation : Id}

variable {v : VoidRecord}

omit [Ideal] in
theorem VoidStep.recorded {h h' : Machine} {digest : Digest}
    (step : VoidStep h operation digest v h') : h'.store.doc (.void operation) = some v := by
  cases step <;> exact Repository.doc_write_self _

omit [Ideal] in
/-- Reading the receipt of a voided operation returns. -/
theorem receiptView_returns {h : Machine} {caller : Caller} {m : HostMeta}
    (hcaller : h.core.caller = some caller) (hm : h.store.doc .hostMeta = some m)
    (hv : h.store.doc (.void operation) = some v) :
    Gate.Returns (receiptView caller operation)
      (fun view _ => view.hostState = .voidedBeforeSend) h := by
  refine Gate.Returns.bind (Gate.Returns.authorized hcaller) ?_
  rintro _ _ rfl
  obtain ⟨_, hmeta⟩ := Repository.doc_eq_some.mp hm
  obtain ⟨_, hvoid⟩ := Repository.doc_eq_some.mp hv
  refine Gate.Returns.transact ?_
  simp only [viewReceipt, wp_bind, Tx.wp_fetch hmeta, Tx.wp_get, hvoid, wp_pure]

/-- The operation is voided for good: it was not entered, `prepare` refuses it, and
`receipt_view` reports it as voided. -/
structure World.Voided (w : World) (operation : Id) : Prop where
  unentered : operation ∉ w.entries.map NativeEntry.operation
  unprepared : ∀ p, w.process = some p → ∀ caller request answers,
    request.operation = operation → ∀ r, (w.call p (.prepare caller request) answers).1 ≠ .ok r
  reported : ∀ p, w.process = some p → ∀ caller answers view,
    (w.call p (.receiptView caller operation) answers).1 = .ok view →
      view.hostState = .voidedBeforeSend
  readable : ∀ p, w.process = some p → ∀ caller answers, p.core.caller = some caller →
    Gate.Reliable answers → ∃ view, (w.call p (.receiptView caller operation) answers).1 = .ok view

/-- Where a tombstone is stored, the operation is voided for good. -/
theorem World.voided_of_tombstone {inputs : List Input}
    (hv : (World.run inputs).store.doc (.void operation) = some v) :
    (World.run inputs).Voided operation := by
  have hreach := World.run_reachable inputs
  have hbarred : operation ∈ (World.run inputs).ledger.barred := by
    change (World.run inputs).store.doc (.void operation) ≠ none
    rw [hv]
    exact Option.some_ne_none v
  refine ⟨?_, fun p hp caller request answers hop r hcall => ?_,
    fun p hp caller answers view hcall => ?_, fun p hp caller answers hcaller hanswers => ?_⟩
  · simpa [Disk.ledger, Store.ledger, Function.comp_def] using hreach.sound.not_mem_entered hbarred
  · obtain ⟨h, a, hok, -⟩ := World.call_ok (c := .prepare caller request) prepare_runs
      (Prod.ext hcall rfl)
    subst hop
    rw [show ((World.run inputs).machine p).store.doc (.void request.operation) = some v from hv]
      at hok
    cases hok.1
  · obtain ⟨h, a, hok, -⟩ := World.call_ok (c := .receiptView caller operation) receiptView_reads
      (Prod.ext hcall rfl)
    refine hok.2 ?_
    rw [show ((World.run inputs).machine p).store.doc (.void operation) = some v from hv]
    exact Option.some_ne_none v
  · obtain ⟨m, hm⟩ := World.run_journals inputs hp
    obtain ⟨view, -, hview, -⟩ := World.call_returns (c := .receiptView caller operation)
      (w := World.run inputs) (p := p) (receiptView_returns hcaller hm hv) hanswers
    exact ⟨view, hview⟩

/-- Void and native entry exclude each other in every continuation of a world. -/
structure World.VoidExcludesEntry (w : World) : Prop where
  voided : ∀ p, w.process = some p → ∀ caller operation digest answers v w',
    w.call p (.voidBeforeSend caller operation digest) answers = (.ok v, w') →
      operation ∉ w.entries.map NativeEntry.operation ∧
        ∀ after, (w'.steps after).Voided operation
  entered : ∀ p, w.process = some p → ∀ caller operation digest answers v,
    operation ∈ w.entries.map NativeEntry.operation →
      (w.call p (.voidBeforeSend caller operation digest) answers).1 ≠ .ok v

end Void

/-- If `void_before_send` has returned for an operation, its native submission was not
entered and never will be, every later `prepare` of it is refused and `receipt_view`
reports it as voided; if native submission was entered, `void_before_send` does not
return. -/
theorem void_excludes_native_entry [Ideal] (inputs : List Input) :
    (World.run inputs).VoidExcludesEntry := by
  have hvoided : ∀ p, (World.run inputs).process = some p → ∀ caller operation digest answers v w',
      (World.run inputs).call p (.voidBeforeSend caller operation digest) answers = (.ok v, w') →
        operation ∉ (World.run inputs).entries.map NativeEntry.operation ∧
          ∀ after, (w'.steps after).Voided operation := by
    intro p hp caller operation digest answers v w' hcall
    obtain ⟨h, a, hok, heq⟩ := World.call_ok (c := .voidBeforeSend caller operation digest)
      voidBeforeSend_runs hcall
    have htombstone : w'.store.doc (.void operation) = some v := by
      subst heq
      rcases hok with ⟨rfl, hstored, -⟩ | hstep
      · exact hstored
      · exact hstep.recorded
    have hrun := World.run_call hp hcall
    have hafter : ∀ after, (w'.steps after).Voided operation := by
      intro after
      rw [hrun] at htombstone ⊢
      have hkept := (World.run_moves _ after).keeps (.void operation) rfl v htombstone
      rw [← World.run_append]
      exact World.voided_of_tombstone hkept
    refine ⟨fun hmem => (hafter []).unentered ?_, hafter⟩
    rw [hrun]
    exact ((World.run_moves inputs _).entries.map _).subset hmem
  refine ⟨hvoided, fun p hp caller operation digest answers v hmem hcall => ?_⟩
  exact (hvoided p hp caller operation digest answers v _ (Prod.ext hcall rfl)).1 hmem

end RxSolutions.Host
