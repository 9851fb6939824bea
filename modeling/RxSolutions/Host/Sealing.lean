import RxSolutions.Host.Site

/-!
# A stop seal hides no pending work

The admission latch is closed before the pending deliveries are listed, and never opened
again by the same process, so from the listing on deliveries can only be finished. The
lifecycle row says `stopped` only from a seal until the next startup. A preparation is
granted against that row only if the digest and the tail in the seal are those of the store,
which with collision-free digests means that nothing has changed.
-/

namespace RxSolutions.Host

open Domain Durable Program Relation

/-! ## A closed latch -/

namespace Gate

variable {α β : Type}

/-- Every run of `m` from the machine `h` in a process that admits no work any more. -/
abbrev Shut (m : Gate α) (ok : α → Machine → Prop) (err : Failure → Machine → Prop)
    (h : Machine) : Prop :=
  Program.Always (fun t : GateState => (t.machine, t.accepting)) m
    (fun a x => ok a x.1) (fun e x => err e x.1) (h, false)

/-- Every run of `m` in a process that admits no work leaves it so. -/
abbrev Latched (m : Gate α) : Prop :=
  Program.Always GateState.accepting m (fun _ b => b = false) (fun _ _ => True) false

theorem Latched.bind {m : Gate β} {f : β → Gate α} (hm : Latched m) (hf : ∀ b, Latched (f b)) :
    Latched (m >>= f) := by
  refine Always.seq hm ?_
  rintro b _ rfl
  exact hf b

theorem Latched.pure {a : α} : Latched (Pure.pure a) := Always.pure rfl

theorem Latched.answer : Latched Host.answer := by
  rintro s hs
  simp only [Host.answer, wp_bind, wp_get, wp_set, wp_ensure, wp_pure, hs]
  exact ⟨fun _ => rfl, fun _ => trivial⟩

theorem Latched.core : Latched Host.core := fun _ hs => hs

theorem Latched.setCore {c : Core} : Latched (Host.setCore c) := fun _ hs => hs

theorem Latched.transact {t : Tx α} : Latched (Host.transact t) := by
  refine Latched.answer.bind fun a => ?_
  rcases a.fault with _ | e
  · intro s hs
    simp only [wp_bind, wp_get]
    rcases t s.machine.store with ⟨_ | v, store⟩
    · trivial
    · exact hs
  · exact Always.throw trivial

end Gate

variable {h : Machine} {caller : Caller} {request : Request}

theorem authorized_shut : Program.Always (fun t : GateState => (t.machine, t.accepting))
    (authorized caller) (fun _ x => x = (h, false)) (fun _ x => x.1 = h) (h, false) := by
  intro s hs
  obtain ⟨rfl, -⟩ := Prod.mk.injEq .. ▸ hs
  simp only [authorized, core, require, wp_bind, wp_get, wp_pure, wp_ensure]
  exact ⟨fun _ => hs, fun _ => trivial⟩

theorem requireAdmission_shut : Gate.Shut requireAdmission (fun _ _ => False)
    (fun _ h' => h' = h) h := by
  intro s hs
  obtain ⟨rfl, hclosed⟩ := Prod.mk.injEq .. ▸ hs
  simp only [requireAdmission, answer, require, wp_bind, wp_get, wp_set, wp_pure, wp_ensure,
    hclosed]
  exact ⟨fun _ => ⟨fun h => (Bool.false_ne_true h).elim, fun _ => trivial⟩, fun _ => trivial⟩

theorem admission_shut {α : Type} {m : Gate α} :
    Gate.Shut (do authorized caller; requireAdmission; m) (fun _ _ => False)
      (fun _ h' => h' = h) h := by
  refine Always.seq authorized_shut ?_
  rintro _ _ rfl
  refine Always.seq requireAdmission_shut ?_
  rintro _ _ ⟨⟩

/-- A process that admits no work prepares nothing. -/
theorem prepare_shut [Ideal] : Gate.Shut (prepare caller request) (fun _ _ => False)
    (fun _ h' => h' = h) h :=
  admission_shut

/-- A process that admits no work sends nothing. -/
theorem authorize_shut [Ideal] {invocation : Id} :
    Gate.Shut (authorize caller request invocation) (fun _ _ => False) (fun _ h' => h' = h) h :=
  admission_shut

/-- A stop snapshot is taken only of a process that admits no work any more. -/
theorem serviceStopSnapshot_closes {b : Bool} :
    Program.Always GateState.accepting serviceStopSnapshot (fun _ b' => b' = false)
      (fun _ _ => True) b := by
  have hstopping : Program.Always GateState.accepting requireStopping (fun _ b' => b' = false)
      (fun _ _ => True) b := by
    intro s _
    simp only [requireStopping, answer, require, wp_bind, wp_get, wp_set, wp_pure, wp_ensure]
    exact ⟨fun _ => ⟨fun h => h, fun _ => trivial⟩, fun _ => trivial⟩
  refine Always.seq hstopping ?_
  rintro _ _ rfl
  refine Gate.Latched.core.bind fun c => ?_
  refine Gate.Latched.setCore.bind fun _ => ?_
  refine Gate.Latched.transact.bind fun _ => ?_
  refine (Gate.Latched.answer.bind fun _ => Gate.Latched.pure).bind fun _ => ?_
  refine (Gate.Latched.answer.bind fun _ => Gate.Latched.pure).bind fun _ => ?_
  refine (Gate.Latched.answer.bind fun _ => Gate.Latched.pure).bind fun _ => ?_
  exact Gate.Latched.transact.bind fun _ => Gate.Latched.pure

/-! ## Deliveries that can only be finished -/

/-- Every pending delivery of `s'` is one of `s`: none has become pending. -/
def Store.Settles (s s' : Store) : Prop :=
  ∀ op r, s'.doc (.delivery op) = some r → r.state.Pending → s.doc (.delivery op) = some r

theorem Store.Settles.refl (s : Store) : s.Settles s := fun _ _ h _ => h

theorem Store.Settles.trans {s s' s'' : Store} (h : s.Settles s') (h' : s'.Settles s'') :
    s.Settles s'' :=
  fun op r hr hp => h op r (h' op r hr hp) hp

theorem Store.Settles.of_get {s s' : Store}
    (h : ∀ op, s'.get (.delivery op) = s.get (.delivery op)) : s.Settles s' :=
  fun op _ hr _ => (Repository.doc_congr (h op)).symm.trans hr

/-- Writing a record that is not pending settles its operation. -/
theorem Store.Settles.delivered {s : Store} {m : HostMeta} {r : DeliveryRecord}
    (hr : ¬ r.state.Pending) : s.Settles (s.delivered m r) := by
  intro op x hx hpending
  by_cases hop : op = r.operation
  · subst hop
    obtain rfl := Option.some.inj (Store.doc_delivered_delivery.symm.trans hx)
    exact absurd hpending hr
  · exact (Store.doc_delivered_delivery_of_ne hop).symm.trans hx

/-- The calls that admit work. -/
def Call.admits : Call → Bool
  | .prepare .. | .authorize .. => true
  | _ => false

variable {c : Call}

theorem Step.settles [Ideal] {h h' : Machine} (step : Step c h h') (hc : c.admits = false) :
    Store.Settles h.store h'.store := by
  have hother : c.operates = false → Store.Settles h.store h'.store := by
    refine fun hop => .of_get fun op => step.get_eq fun hw => ?_
    cases Call.operational_of_writes hop hw
  cases c with
  | prepare | authorize => cases hc
  | reconcile => cases step with
    | drew => exact .refl _
    | captured step => cases step with
      | mk found flying =>
        refine Store.Settles.delivered (s := h.store.push _ _) ?_
        simp [ReceiptState.Pending, ReceiptState.InFlight]
  | voidBeforeSend => cases step with
    | drew => exact .refl _
    | voided step => cases step with
      | unknown =>
        refine .of_get fun op => ?_
        rw [Repository.get_write_of_ne (by simp), Store.numbered,
          Repository.get_write_of_ne (by simp)]
      | @prepared m record =>
        have hvoided : ¬ record.voided.state.Pending := by
          simp [ReceiptState.Pending, ReceiptState.InFlight, DeliveryRecord.voided]
        refine (Store.Settles.delivered (m := m) hvoided).trans (.of_get fun op => ?_)
        rw [Repository.get_write_of_ne (by simp), Store.numbered,
          Repository.get_write_of_ne (by simp)]
  | _ => exact hother rfl

theorem Steps.settles [Ideal] {h h' : Machine} (hs : Steps c h h') (hc : c.admits = false) :
    Store.Settles h.store h'.store := by
  induction hs with
  | refl => exact .refl _
  | tail _ hlast ih => exact ih.trans (hlast.settles hc)

/-- No call stops the service: it can only tie its boot to a startup. -/
theorem Step.stopped [Ideal] {h h' : Machine} (step : Step c h h') {stop : StopSeal}
    (hstop : h'.store.doc .serviceLifecycle = some (.stopped stop)) :
    h.store.doc .serviceLifecycle = some (.stopped stop) := by
  by_cases hw : c.Writes .serviceLifecycle
  · cases step with
    | booted step =>
      cases step
      cases (Repository.doc_write_self _).symm.trans hstop
    | _ => simp_all [Call.Writes, Key.booked, Key.delivers, Touches]
  · exact (Repository.doc_congr (step.get_eq hw)).symm.trans hstop

theorem Steps.stopped [Ideal] {h h' : Machine} (hs : Steps c h h') {stop : StopSeal}
    (hstop : h'.store.doc .serviceLifecycle = some (.stopped stop)) :
    h.store.doc .serviceLifecycle = some (.stopped stop) := by
  induction hs with
  | refl => exact hstop
  | tail _ hlast ih => exact ih (hlast.stopped hstop)

/-! ## Seals and tools -/

theorem Store.mem_records {t : Store} {k : Key} (hk : k.service = false) {row : Row k.Doc} :
    (⟨k, row⟩ : Record) ∈ t.records ↔ t.get k = some row := by
  simp only [Store.records, Multiset.mem_coe, List.mem_filter, hk, Bool.not_false, and_true]
  exact AList.mem_lookup_iff.symm

/-- Stores with the same operational records have the same rows. -/
theorem Store.get_of_records {t t' : Store} (h : t.records = t'.records) {k : Key}
    (hk : k.service = false) : t.get k = t'.get k := by
  ext row
  rw [← mem_records hk, ← mem_records hk, h]

section Seals

variable [ServiceIdeal] {h h' : Machine} {snapshot : StopSnapshot} {stop : StopSeal}

/-- Sealing touches no operational record. -/
theorem Sealed.get (hs : Sealed h snapshot stop h') {k : Key} (hk : k.service = false) :
    h'.store.get k = h.store.get k := by
  refine hs.frame.get k ?_
  rintro (rfl | ⟨attempt, rfl⟩) <;> cases hk

theorem Sealed.settles (hs : Sealed h snapshot stop h') : Store.Settles h.store h'.store :=
  .of_get fun _ => hs.get rfl

/-- A tool touches no delivery. -/
theorem Installed.Alters.settles {i i' : Installed} (hm : i.Alters i') :
    Store.Settles i.store i'.store := by
  refine .of_get fun op => hm.frame.get _ ?_
  rintro (h | ⟨cell, h⟩) <;> cases h

end Seals

namespace Site

variable {s s' : Site} {p : Process} {i : Input} {α : Type}

variable {ok : α → Machine → Prop} {err : Failure → Machine → Prop}

/-- What a program can do that runs in a process which admits no work any more. -/
theorem gate_shut {m : Gate α} (hclosed : p.accepting = false)
    (hrun : Gate.Shut m ok err (s.machine p)) (answers : ℕ → Answer) :
    Ran s p ok err (s.gate p m answers) := by
  rcases hexec : m ⟨s.machine p, p.accepting, answers, 0⟩ with ⟨r, t⟩
  have hwp := hrun ⟨s.machine p, p.accepting, answers, 0⟩ (by simp [hclosed])
  simp only [wp, hexec] at hwp
  simp only [gate, hexec]
  rcases r with (_ | e) | v
  · exact .died hwp
  · exact .refused hwp
  · exact .returned hwp

/-- A program that returns only with the latch closed leaves it closed. -/
theorem gate_closes {m : Gate α} {v : α}
    (hrun : Program.Always GateState.accepting m (fun _ b => b = false)
      (fun _ _ => True) p.accepting)
    {answers : ℕ → Answer} (hgate : s.gate p m answers = (.ok v, s')) {q : Process}
    (hq : s'.process = some q) : q.accepting = false := by
  rcases hexec : m ⟨s.machine p, p.accepting, answers, 0⟩ with ⟨r, t⟩
  simp only [gate, hexec] at hgate
  rcases r with (_ | e) | w
  · cases hgate
  · cases hgate
  · cases hgate
    have hclosed : t.accepting = false := Always.returns hrun hexec
    cases hq
    simp [hclosed]

variable [Ideal]

/-- A call to a process that admits no work any more lets no delivery become pending. -/
theorem call_settles (hs : s.Regular) (hp : s.process = some p) (hclosed : p.accepting = false)
    (c : Call) (answers : ℕ → Answer) : Store.Settles s.store (s.call c answers).2.store := by
  have hsame : ∀ {m : Gate c.Reply}, Gate.Shut m (fun _ _ => False)
      (fun _ h' => h' = s.machine p) (s.machine p) →
      Store.Settles s.store (s.gate p m answers).2.store := by
    intro m hm
    have hran := gate_shut hclosed hm answers
    generalize s.gate p m answers = r at hran ⊢
    cases hran with
    | died stopped | refused stopped => subst stopped; exact .refl _
    | returned done => exact done.elim
  have hother : c.admits = false → Store.Settles s.store (s.gate p c.exec answers).2.store := by
    intro hc
    have hran := gate_cases (c.exec_runs (h := s.machine p) hs) answers
    generalize s.gate p c.exec answers = r at hran ⊢
    cases hran with
    | died steps | refused steps | returned steps => exact steps.settles (h := s.machine p) hc
  simp only [call, hp]
  cases c with
  | prepare => exact hsame prepare_shut
  | authorize => exact hsame authorize_shut
  | _ => exact hother rfl

/-! ## Snapshots list what is pending -/

/-- A process belongs to a run of the service. A snapshot that is about to be sealed was taken of
a process that admits no work any more, and lists every pending delivery. -/
structure Sound (s : Site) : Prop where
  owned : s.process ≠ none → s.service ≠ none
  live : ∀ v snapshot, s.service = some v → v.snapshot = some snapshot →
    ∃ p, s.process = some p ∧ p.accepting = false
  listed : ∀ v snapshot, s.service = some v → v.snapshot = some snapshot →
    ∀ op r, s.store.doc (.delivery op) = some r → r.state.Pending →
      op ∈ snapshot.pendingOperations

variable {r : Except Failure α × Site}

omit [Ideal] in
theorem Ran.sound (hran : Ran s p ok err r) (hs : s.Sound) (hp : s.process = some p)
    (hsettles : p.accepting = false → Store.Settles s.store r.2.store) : r.2.Sound := by
  have hclosed : ∀ v snapshot, s.service = some v → v.snapshot = some snapshot →
      p.accepting = false := by
    intro v snapshot hv hsnapshot
    obtain ⟨q, hq, hclosed⟩ := hs.live v snapshot hv hsnapshot
    cases hp.symm.trans hq
    exact hclosed
  cases hran with
  | died => exact ⟨by simp, by simp, by simp⟩
  | refused | returned =>
    refine ⟨fun _ => hs.owned (by simp [hp]), fun v snapshot hv hsnapshot => ?_, ?_⟩
    · exact ⟨_, rfl, by simp [hclosed v snapshot hv hsnapshot]⟩
    · intro v snapshot hv hsnapshot op r hr hpending
      have hbefore := hsettles (hclosed v snapshot hv hsnapshot) op r hr hpending
      exact hs.listed v snapshot hv hsnapshot op r hbefore hpending

omit [Ideal] in
/-- What holds of every store a program may leave holds of the one it left. -/
theorem Ran.store {P : Store → Prop} (hran : Ran s p ok err r) (hok : ∀ v h, ok v h → P h.store)
    (herr : ∀ e h, err e h → P h.store) : P r.2.store := by
  cases hran with
  | died stopped | refused stopped => exact herr _ _ stopped
  | returned done => exact hok _ _ done

omit [Ideal] in
theorem Ran.files (hran : Ran s p ok err r) : r.2.files = s.files := by
  cases hran <;> rfl

/-- The list of a stop snapshot is complete. -/
theorem mem_pending (hs : s.Regular) {op : Id} {r : DeliveryRecord}
    (hr : s.store.doc (.delivery op) = some r) (hpending : r.state.Pending) :
    op ∈ (s.store.deliveries.filter fun r => r.state.Pending).map DeliveryRecord.operation := by
  obtain ⟨n, hrow⟩ := Repository.doc_eq_some.mp hr
  refine List.mem_map.mpr ⟨r, List.mem_filter.mpr ⟨?_, by simpa using hpending⟩, ?_⟩
  · exact Store.mem_deliveries.mpr ⟨op, _, hrow, rfl⟩
  · exact hs.filed op r hr

theorem snapshot_sound (hs : s.Sound) (hreg : s.Regular) (answers : ℕ → Answer) :
    (s.snapshot answers).2.Sound := by
  cases hp : s.process with
  | none => simpa only [snapshot, hp] using hs
  | some p =>
    have hran := gate_cases (s := s) (p := p) serviceStopSnapshot_runs answers
    have hcloses : ∀ v t q, s.gate p serviceStopSnapshot answers = (.ok v, t) →
        t.process = some q → q.accepting = false :=
      fun v t q hgate hq => gate_closes serviceStopSnapshot_closes hgate hq
    simp only [snapshot, hp]
    generalize s.gate p serviceStopSnapshot answers = r at hran hcloses ⊢
    have hstore : r.2.store = s.store := by
      cases hran with
      | died stopped | refused stopped => rcases stopped with rfl | rfl <;> rfl
      | returned done => rw [done.1]; rfl
    have hsound : r.2.Sound := hran.sound hs hp fun _ => by rw [hstore]; exact .refl _
    obtain ⟨e | v, t⟩ := r
    · exact hsound
    · have hpending : v.pendingOperations = (s.store.deliveries.filter fun r =>
          r.state.Pending).map DeliveryRecord.operation := by
        cases hran with
        | returned done => exact done.2
      refine ⟨fun hprocess => ?_, fun v' snapshot hv hsnapshot => ?_, ?_⟩
      · simpa using hsound.owned hprocess
      · cases hran with
        | returned done => exact ⟨_, rfl, hcloses v _ _ rfl rfl⟩
      · intro v' snapshot hv hsnapshot op r hr hpend
        obtain ⟨w, -, rfl⟩ := Option.map_eq_some_iff.mp hv
        obtain rfl := Option.some.inj hsnapshot
        rw [hpending]
        exact mem_pending hreg ((congrArg (fun x => Repository.doc x _) hstore).symm.trans hr) hpend

variable [ServiceIdeal]

omit [Ideal] in
theorem Ran.sealStop_settles {snapshot : StopSnapshot} {r : Except Failure StopSeal × Site}
    (hran : Ran s p (Sealed (s.machine p) snapshot) (fun _ h => h = s.machine p) r) :
    Store.Settles s.store r.2.store :=
  hran.store (fun _ _ h => h.settles) fun _ _ h => by rw [h]; exact .refl _

omit [Ideal] in
theorem Altered.sound {t : Site} (h : Altered s t) (hs : s.Sound) : t.Sound := by
  cases h with
  | mk alters =>
    refine ⟨hs.owned, hs.live, fun v snapshot hv hsnapshot op r hr hpending => ?_⟩
    have hbefore := alters.settles op r hr hpending
    exact hs.listed v snapshot hv hsnapshot op r hbefore hpending

theorem step_sound (hs : s.Sound) (hreg : s.Regular) (i : Input) : (s.step i).Sound := by
  cases i with
  | startup loaded replies =>
    have hcases := s.startup_cases loaded replies
    simp only [step]
    generalize s.startup loaded replies = r at hcases
    cases hcases with
    | refused => exact ⟨hs.owned, hs.live, hs.listed⟩
    | begun idle hbegun =>
      refine ⟨by simp, ?_, ?_⟩
      all_goals
        rintro _ snapshot ⟨⟩ hsnapshot
        cases hsnapshot
  | openHost environment answers =>
    have hcases := s.openHost_cases environment answers
    simp only [step]
    generalize s.openHost environment answers = t at hcases
    cases hcases with
    | ignored => exact hs
    | failed le => exact ⟨by simp, by simp, by simp⟩
    | @opened v h accepting running idle step =>
      -- no snapshot was taken before there was a process
      have hnone : v.snapshot = none := by
        by_contra hsome
        obtain ⟨snapshot, hsnapshot⟩ := Option.ne_none_iff_exists'.mp hsome
        obtain ⟨q, hq, -⟩ := hs.live v snapshot running hsnapshot
        rw [idle] at hq
        cases hq
      refine ⟨by simp, ?_, ?_⟩
      all_goals
        rintro _ snapshot ⟨⟩ hsnapshot
        rw [hnone] at hsnapshot
        cases hsnapshot
  | call c answers =>
    cases hp : s.process with
    | none => simpa only [step, call, hp] using hs
    | some p =>
      have hran := gate_cases (c.exec_runs (h := s.machine p) hreg) answers
      have hsettles := fun hclosed => call_settles hreg hp hclosed c answers
      simp only [step, call, hp] at hsettles ⊢
      exact hran.sound hs hp hsettles
  | requestStop =>
    refine ⟨fun hprocess => hs.owned (by simpa [step] using hprocess), ?_, hs.listed⟩
    intro v snapshot hv hsnapshot
    obtain ⟨q, hq, -⟩ := hs.live v snapshot hv hsnapshot
    exact ⟨_, by simp only [step, hq, Option.map_some]; rfl, rfl⟩
  | snapshot answers => exact snapshot_sound hs hreg answers
  | sealStop answers =>
    simp only [step]
    rcases s.sealStop_cases answers with heq | ⟨p, v, snapshot, hp, -, -, hran⟩
    · rw [heq]
      exact hs
    · exact hran.sound hs hp fun _ => hran.sealStop_settles
  | exit => exact ⟨by simp [step], by simp [step], by simp [step]⟩
  | prepare | cancel | commit => exact (tool_cases (by rfl)).sound hs

/-- In every run, a snapshot that is about to be sealed lists every pending delivery. -/
theorem run_sound (o : Setup) (inputs : List Input) : (run o inputs).Sound := by
  induction inputs using List.reverseRecOn with
  | nil => exact ⟨by simp [run, install], by simp [run, install], by simp [run, install]⟩
  | append_singleton inputs i ih =>
    rw [run_concat]
    exact step_sound ih (run_regular o inputs) i

/-! ## Nothing is admitted from a seal to the next startup -/

/-- The site admits no work: its process has closed the latch, and without a process there is
no service that could open one. -/
structure Quiet (s : Site) : Prop where
  closed : ∀ p, s.process = some p → p.accepting = false
  idle : s.process = none → s.service = none

omit [Ideal] [ServiceIdeal] in
theorem Ran.quiet (hran : Ran s p ok err r) (hclosed : p.accepting = false) :
    r.2.Quiet := by
  cases hran with
  | died => exact ⟨by simp, by simp⟩
  | refused | returned => exact ⟨by simp [hclosed], by simp⟩

omit [Ideal] in
theorem Altered.quiet {t : Site} (h : Altered s t) (hs : s.Quiet) :
    t.Quiet ∧ Store.Settles s.store t.store := by
  cases h with
  | mk alters => exact ⟨⟨hs.closed, hs.idle⟩, alters.settles⟩

/-- Until a new startup, the site stays quiet and no delivery becomes pending. -/
theorem step_quiet (hs : s.Quiet) (hreg : s.Regular) (hi : ¬ s.Starts i) :
    (s.step i).Quiet ∧ Store.Settles s.store (s.step i).store := by
  cases i with
  | startup loaded replies =>
    have hcases := s.startup_cases loaded replies
    have hrefused : (s.startup loaded replies).1 ≠ .ok () := fun h => hi ⟨loaded, replies, rfl, h⟩
    simp only [step]
    generalize s.startup loaded replies = r at hcases hrefused ⊢
    cases hcases with
    | refused => exact ⟨⟨hs.closed, hs.idle⟩, .refl _⟩
    | begun => exact absurd rfl hrefused
  | openHost environment answers =>
    have hcases := s.openHost_cases environment answers
    simp only [step]
    generalize s.openHost environment answers = t at hcases
    cases hcases with
    | ignored => exact ⟨hs, .refl _⟩
    | failed le => exact ⟨⟨by simp, by simp⟩, .refl _⟩
    | opened running idle step =>
      rw [hs.idle idle] at running
      cases running
  | call c answers =>
    cases hp : s.process with
    | none =>
      simp only [step, call, hp]
      exact ⟨hs, .refl _⟩
    | some p =>
      have hsettles := call_settles hreg hp (hs.closed p hp) c answers
      have hran := gate_cases (c.exec_runs (h := s.machine p) hreg) answers
      simp only [step, call, hp] at hsettles ⊢
      exact ⟨hran.quiet (hs.closed p hp), hsettles⟩
  | requestStop =>
    refine ⟨⟨fun p hp => ?_, fun hnone => hs.idle (by simpa [step] using hnone)⟩, .refl _⟩
    obtain ⟨q, -, rfl⟩ := Option.map_eq_some_iff.mp hp
    rfl
  | snapshot answers =>
    cases hp : s.process with
    | none =>
      simp only [step, snapshot, hp]
      exact ⟨hs, .refl _⟩
    | some p =>
      have hran := gate_cases (s := s) (p := p) serviceStopSnapshot_runs answers
      have hstore := hran.store (P := (· = s.store)) (fun _ _ h => by rw [h.1]; rfl)
        fun _ _ h => by rcases h with rfl | rfl <;> rfl
      have hquiet := hran.quiet (hs.closed p hp)
      simp only [step, snapshot, hp]
      generalize s.gate p serviceStopSnapshot answers = r at hran hstore hquiet ⊢
      have hsettles : Store.Settles s.store r.2.store := by rw [hstore]; exact .refl _
      obtain ⟨e | v, t⟩ := r
      · exact ⟨hquiet, hsettles⟩
      · exact ⟨⟨hquiet.closed, fun hnone => Option.map_eq_none_iff.mpr (hquiet.idle hnone)⟩,
          hsettles⟩
  | sealStop answers =>
    simp only [step]
    rcases s.sealStop_cases answers with heq | ⟨p, v, snapshot, hp, -, -, hran⟩
    · rw [heq]
      exact ⟨hs, .refl _⟩
    · exact ⟨hran.quiet (hs.closed p hp), hran.sealStop_settles⟩
  | exit => exact ⟨⟨by simp [step], by simp [step]⟩, .refl _⟩
  | prepare | cancel | commit => exact (tool_cases (by rfl)).quiet hs

theorem steps_settles (hs : s.Quiet) (hreg : s.Regular) {inputs : List Input}
    (hno : s.NoStartup inputs) :
    (s.steps inputs).Quiet ∧ Store.Settles s.store (s.steps inputs).store := by
  induction inputs using List.reverseRecOn with
  | nil => exact ⟨hs, .refl _⟩
  | append_singleton inputs i ih =>
    obtain ⟨hno, hi⟩ := hno.of_concat
    obtain ⟨hquiet, hsettles⟩ := ih hno
    have hreg' := (steps_moves hreg inputs).regular hreg
    obtain ⟨hquiet', hsettles'⟩ := step_quiet hquiet hreg' hi
    simp only [Durable.Runs.after_concat]
    exact ⟨hquiet', hsettles.trans hsettles'⟩

omit [Ideal] in
/-- What a seal that was returned has done. -/
theorem sealStop_ok (hs : s.Sound) {answers : ℕ → Answer} {stop : StopSeal}
    (h : s.sealStop answers = (.ok stop, s')) :
    s'.Quiet ∧ ∃ p v snapshot h', s.service = some v ∧ v.snapshot = some snapshot ∧
      s'.store = h'.store ∧ Sealed (s.machine p) snapshot stop h' := by
  rcases s.sealStop_cases answers with heq | ⟨p, v, snapshot, hp, hv, hsnapshot, hran⟩
  · cases heq.symm.trans h
  · obtain ⟨q, hq, hclosed⟩ := hs.live v snapshot hv hsnapshot
    cases hp.symm.trans hq
    rw [h] at hran
    refine ⟨hran.quiet hclosed, p, v, snapshot, ?_⟩
    cases hran with
    | returned done => exact ⟨_, hv, hsnapshot, rfl, done⟩

/-! ## Where a stopped lifecycle comes from -/

omit [Ideal] in
theorem Altered.stopped {t : Site} (h : Altered s t) {stop : StopSeal}
    (ht : t.store.doc .serviceLifecycle = some (.stopped stop)) :
    s.store.doc .serviceLifecycle = some (.stopped stop) := by
  cases h with
  | mk alters =>
    refine (alters.frame.doc ?_).symm.trans ht
    rintro (h | ⟨cell, h⟩) <;> cases h

/-- An input leaves a `stopped` lifecycle only if it found it, or by a seal. -/
theorem step_stopped (hreg : s.Regular) {stop : StopSeal}
    (h : (s.step i).store.doc .serviceLifecycle = some (.stopped stop)) :
    (s.store.doc .serviceLifecycle = some (.stopped stop) ∧ ¬ s.Starts i) ∨
      ∃ answers, i = .sealStop answers ∧ s.sealStop answers = (.ok stop, s.step i) := by
  -- an input that is no startup starts nothing
  have hno : (∀ loaded replies, i ≠ .startup loaded replies) → ¬ s.Starts i :=
    fun hne ⟨loaded, replies, heq, _⟩ => hne loaded replies heq
  cases i with
  | startup loaded replies =>
    have hcases := s.startup_cases loaded replies
    have hstarts : s.Starts (.startup loaded replies) → (s.startup loaded replies).1 = .ok () := by
      rintro ⟨_, _, ⟨⟩, hok⟩
      exact hok
    simp only [step] at h
    generalize s.startup loaded replies = r at hcases hstarts h
    cases hcases with
    | refused => exact .inl ⟨h, fun hs => by cases hstarts hs⟩
    | begun idle hbegun =>
      cases hbegun.lifecycle.symm.trans h
  | openHost environment answers =>
    have hcases := s.openHost_cases environment answers
    refine .inl ⟨?_, hno (by simp)⟩
    simp only [step] at h
    generalize s.openHost environment answers = t at hcases h
    cases hcases with
    | ignored | failed => exact h
    | opened running idle step => cases step with
      | mk opened => exact (opened.frame.doc (by simp)).symm.trans h
  | call c answers =>
    refine .inl ⟨?_, hno (by simp)⟩
    cases hp : s.process with
    | none => simpa only [step, call, hp] using h
    | some p =>
      simp only [step, call, hp] at h
      revert h
      exact (gate_cases (c.exec_runs (h := s.machine p) hreg) answers).store
        (P := fun t => t.doc .serviceLifecycle = some (.stopped stop) →
          s.store.doc .serviceLifecycle = some (.stopped stop))
        (fun _ _ steps => steps.stopped) fun _ _ steps => steps.stopped
  | requestStop => exact .inl ⟨h, hno (by simp)⟩
  | snapshot answers =>
    refine .inl ⟨?_, hno (by simp)⟩
    cases hp : s.process with
    | none => simpa only [step, snapshot, hp] using h
    | some p =>
      have hstore : (s.step (.snapshot answers)).store =
          (s.gate p (Call.exec .serviceStopSnapshot) answers).2.store :=
        congrArg (fun w => w.store) (snapshot_toWorld hp answers)
      rw [hstore] at h
      revert h
      exact (gate_cases (Call.exec_runs (h := s.machine p) .serviceStopSnapshot hreg) answers).store
        (P := fun t => t.doc .serviceLifecycle = some (.stopped stop) →
          s.store.doc .serviceLifecycle = some (.stopped stop))
        (fun _ _ steps => steps.stopped) fun _ _ steps => steps.stopped
  | sealStop answers =>
    simp only [step] at h ⊢
    have hcases := s.sealStop_cases answers
    generalize hr : s.sealStop answers = r at hcases h ⊢
    rcases hcases with rfl | ⟨p, v, snapshot, -, -, -, hran⟩
    · exact .inl ⟨h, hno (by simp)⟩
    · cases hran with
      | died stopped | refused stopped => subst stopped; exact .inl ⟨h, hno (by simp)⟩
      | returned done =>
        obtain rfl := Lifecycle.stopped.inj (Option.some.inj (done.lifecycle.symm.trans h))
        exact .inr ⟨answers, rfl, hr⟩
  | exit => exact .inl ⟨h, hno (by simp)⟩
  | prepare | cancel | commit => exact .inl ⟨(tool_cases (by rfl)).stopped h, hno (by simp)⟩

omit [ServiceIdeal] in
/-- An installed store has no records of the service or of maintenance. -/
theorem install_none {o : Setup} {k : Key} (hk : k.service = true) :
    (install o).store.doc k = none := by
  have hget := World.step_get_eq (w := .empty) (k := k)
    (i := .start o.environment o.bindings o.answers) .refl (by
      rintro (rfl | ⟨cell, rfl⟩) <;> cases hk)
  exact (Repository.doc_congr hget).trans rfl

/-- In every run, a `stopped` lifecycle was written by a seal, and nothing was started since. -/
theorem sealed_of_stopped {o : Setup} {inputs : List Input} {stop : StopSeal}
    (h : (run o inputs).store.doc .serviceLifecycle = some (.stopped stop)) :
    ∃ before answers after, inputs = before ++ .sealStop answers :: after ∧
      (run o before).sealStop answers = (.ok stop, run o (before ++ [.sealStop answers])) ∧
      (run o (before ++ [.sealStop answers])).NoStartup after := by
  induction inputs using List.reverseRecOn with
  | nil =>
    cases (install_none rfl).symm.trans h
  | append_singleton inputs i ih =>
    rw [run_concat] at h
    rcases step_stopped (run_regular o inputs) h with ⟨hbefore, hi⟩ | ⟨answers, rfl, hseal⟩
    · obtain ⟨before, answers, after, rfl, hseal, hno⟩ := ih hbefore
      refine ⟨before, answers, after ++ [i], by simp, hseal, hno.concat ?_⟩
      rwa [← run_append, List.append_assoc, List.singleton_append]
    · exact ⟨inputs, answers, [], by simp, by rw [run_concat]; exact hseal, .nil _⟩

/-! ## What a preparation is granted against -/

/-- In every run, a stop seal that was committed lists every pending delivery, and until a new
startup every pending delivery is one it found. A new preparation is granted only against the
seal of the last stop, over exactly the rows and events that are there, with nothing pending. -/
theorem stop_seal_complete (o : Setup) :
    (∀ before answers stop, ((run o before).sealStop answers).1 = .ok stop →
      (run o (before ++ [.sealStop answers])).store.doc .serviceLifecycle = some (.stopped stop) ∧
      (∀ op r, (run o (before ++ [.sealStop answers])).store.doc (.delivery op) = some r →
        r.state.Pending → op ∈ stop.snapshot.pendingOperations) ∧
      ∀ after, (run o (before ++ [.sealStop answers])).NoStartup after →
        ∀ op r, (run o (before ++ .sealStop answers :: after)).store.doc (.delivery op) = some r →
          r.state.Pending →
          (run o (before ++ [.sealStop answers])).store.doc (.delivery op) = some r) ∧
    ∀ inputs plan current proposed request replies p,
      (run o inputs).store.doc (.maintenanceRequest request) = none →
      ((run o inputs).offline (prepareInner plan current proposed request) replies).1 = .ok p →
      p.stop.snapshot.pendingOperations = [] ∧
      ∃ before answers after, inputs = before ++ .sealStop answers :: after ∧
        ((run o before).sealStop answers).1 = .ok p.stop ∧
        (run o (before ++ [.sealStop answers])).NoStartup after ∧
        (∀ k : Key, k.service = false → (run o inputs).store.get k =
          (run o (before ++ [.sealStop answers])).store.get k) ∧
        (run o inputs).store.events = (run o (before ++ [.sealStop answers])).store.events := by
  constructor
  · intro before answers stop hok
    have hseal : (run o before).sealStop answers =
        (.ok stop, run o (before ++ [.sealStop answers])) := by
      rw [run_concat]
      exact Prod.ext hok rfl
    obtain ⟨hquiet, p, v, snapshot, h', hv, hsnapshot, hstore, hsealed⟩ :=
      sealStop_ok (run_sound o before) hseal
    refine ⟨?_, fun op r hr hpending => ?_, fun after hno op r hr hpending => ?_⟩
    · rw [hstore]
      exact hsealed.lifecycle
    · rw [hstore] at hr
      rw [hsealed.content]
      have hbefore := hsealed.settles op r hr hpending
      exact (run_sound o before).listed v snapshot hv hsnapshot op r hbefore hpending
    · rw [← List.singleton_append, ← List.append_assoc, run_append] at hr
      exact (steps_settles hquiet (run_regular o _) hno).2 op r hr hpending
  · intro inputs plan current proposed request replies p hnew hok
    have hcases := offline_cases (s := run o inputs)
      (@prepareInner_runs _ _ plan current proposed request) replies
    generalize (run o inputs).offline _ _ = r at hcases hok
    cases hcases with
    | contended | halted => cases hok
    | returned idle done =>
      obtain rfl := Except.ok.inj hok
      rcases done with ⟨-, hold⟩ | ⟨t, -, happroved⟩
      · cases hnew.symm.trans hold
      · obtain ⟨journals, -, -, -, -, -, htail, hdigest, hempty⟩ := happroved.fresh
        obtain ⟨before, answers, after, rfl, hseal, hno⟩ := sealed_of_stopped happroved.lifecycle
        obtain ⟨-, q, v, snapshot, h', -, -, hstore, hsealed⟩ :=
          sealStop_ok (run_sound o before) hseal
        refine ⟨hempty, before, answers, after, rfl, by rw [hseal], hno, fun k hk => ?_, ?_⟩
        · -- equal digests are digests of equal records
          have hrecords := ServiceIdeal.stateDigest.injective (hsealed.digest.symm.trans hdigest)
          have hget := Store.get_of_records hrecords hk
          rw [hstore, hsealed.get hk]
          exact hget.symm
        · -- the journal only grows, and is as long as it was
          have hmoves := steps_moves (run_regular o (before ++ [.sealStop answers])) after
          rw [← run_append, List.append_assoc, List.singleton_append] at hmoves
          refine (hmoves.events.eq_of_length ?_).symm
          rw [hstore, hsealed.frame.events]
          exact hsealed.tail.symm.trans htail

end Site

end RxSolutions.Host
