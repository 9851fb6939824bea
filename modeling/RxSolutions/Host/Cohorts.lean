import RxSolutions.Host.Fencing

/-!
# A qualification covers its cohort

A qualification is accepted for every bound cell in one commit, and the host takes it
for current only while all of these cells show what was accepted with it. Epochs, scope
counters and the numbers of process contexts never fall, and no boot comes back, so a
cohort that lost one of them has lost its qualification for good: only a new acceptance,
under newer epochs, brings a qualification back.
-/

namespace RxSolutions.Host

open Domain Durable Relation

variable [Ideal]

/-! ## Which commits write qualifications and process contexts -/

/-- What is stored about qualifications. -/
def Key.qualifying : Key → Bool
  | .acceptedQualification _ | .qualificationRequest _ _ | .qualificationHistory _
  | .qualificationMaximum _ _ _ => true
  | _ => false

omit [Ideal] in
theorem Key.qualifying_eq_false {k : Key} (h : k.bookkeeping = true ∨ k.delivers = true) :
    k.qualifying = false := by
  cases k <;> simp_all [Key.bookkeeping, Key.delivers, Key.qualifying]

section Rows

variable {c : Call} {h h' : Machine} {d d' : Disk}

omit [Ideal] in
/-- No other call than `accept_qualification` writes what is stored about qualifications. -/
theorem Call.qualifying_of_writes {k : Key}
    (hc : ∀ caller request, c ≠ .acceptQualification caller request) (hk : c.Writes k) :
    k.qualifying = false := by
  cases c with
  | acceptQualification caller request => exact absurd rfl (hc caller request)
  | claimRpc => exact Key.qualifying_eq_false (.inl (Key.bookkeeping_of_booked hk))
  | bindBoot => cases hk; rfl
  | prepare =>
    rcases hk with hk | ⟨p, rfl⟩
    · exact Key.qualifying_eq_false (.inr hk)
    · rfl
  | authorize | voidBeforeSend =>
    rcases hk with hk | rfl
    · exact Key.qualifying_eq_false (.inr hk)
    · rfl
  | reconcile => exact Key.qualifying_eq_false (.inr hk)
  | fence | arm => rcases hk with rfl | rfl | rfl <;> rfl
  | acquireGrant => rcases hk with ⟨x, rfl⟩ | ⟨g, rfl⟩ | rfl <;> rfl
  | renewGrant => cases hk; rfl
  | acceptProcessConfiguration =>
    rcases hk with rfl | ⟨cell, rfl⟩ | hk | rfl | rfl | ⟨n, rfl⟩
    · rfl
    · rfl
    · exact Key.qualifying_eq_false (.inl (Key.bookkeeping_of_booked hk))
    all_goals rfl
  | acknowledgePublication => obtain ⟨j, rfl⟩ := hk; rfl
  | bindPlatform | serviceStopSnapshot | receipt | receiptView | evidenceAfter | currentTarget
  | publicationChunk => exact hk.elim

theorem Step.qualifications (step : Step c h h') :
    (∀ k : Key, k.qualifying = true → h'.store.get k = h.store.get k) ∨
    ∃ caller request r, QualifyStep h caller request r h' := by
  by_cases hc : ∃ caller request, c = .acceptQualification caller request
  · obtain ⟨caller, request, rfl⟩ := hc
    cases step with
    | drew => exact .inl fun _ _ => rfl
    | qualified step => exact .inr ⟨caller, request, _, step⟩
  · left
    intro k hk
    apply step.get_eq
    intro hw
    have hother := Call.qualifying_of_writes (fun caller request heq => hc ⟨_, _, heq⟩) hw
    rw [hother] at hk
    cases hk

/-- A commit leaves what is stored about qualifications alone, or answers one. -/
theorem Disk.Move.qualifications (move : d.Move d') :
    (∀ k : Key, k.qualifying = true → d'.store.get k = d.store.get k) ∨
    ∃ h h' : Machine, ∃ caller request r, d = h.toDisk ∧ d' = h'.toDisk ∧
      QualifyStep h caller request r h' := by
  cases move with
  | drew => exact .inl fun _ _ => rfl
  | booked frame =>
    left
    intro k hk
    apply frame.get
    intro hb
    rw [Key.qualifying_eq_false (.inl hb)] at hk
    cases hk
  | opened step => cases step with
    | mk opened =>
      left
      intro k hk
      apply opened.frame.get
      rintro (rfl | ⟨cell, rfl⟩) <;> cases hk
  | stepped step =>
    rcases step.qualifications with hsame | ⟨caller, request, r, hstep⟩
    · exact .inl hsame
    · exact .inr ⟨_, _, caller, request, r, rfl, rfl, hstep⟩

theorem Step.contexts (step : Step c h h') :
    (∀ cell, h'.store.get (.processContext cell) = h.store.get (.processContext cell)) ∨
    ∃ caller request r, ConfigureStep h caller request r h' := by
  by_cases hc : ∃ caller request, c = .acceptProcessConfiguration caller request
  · obtain ⟨caller, request, rfl⟩ := hc
    cases step with
    | drew => exact .inl fun _ => rfl
    | configured step => exact .inr ⟨caller, request, _, step⟩
  · left
    intro cell
    apply step.get_eq
    intro hw
    cases c <;> simp_all [Call.Writes, Key.booked, Key.delivers, Touches]

/-- A commit leaves the process contexts alone, or answers a configuration. -/
theorem Disk.Move.contexts (move : d.Move d') :
    (∀ cell, d'.store.get (.processContext cell) = d.store.get (.processContext cell)) ∨
    ∃ h h' : Machine, ∃ caller request r, d = h.toDisk ∧ d' = h'.toDisk ∧
      ConfigureStep h caller request r h' := by
  cases move with
  | drew => exact .inl fun _ => rfl
  | booked frame => exact .inl fun cell => frame.get _ (by simp [Key.bookkeeping])
  | opened step => cases step with
    | mk opened => exact .inl fun cell => opened.frame.get _ (by simp)
  | stepped step =>
    rcases step.contexts with hsame | ⟨caller, request, r, hstep⟩
    · exact .inl hsame
    · exact .inr ⟨_, _, caller, request, r, rfl, rfl, hstep⟩

end Rows

/-! ## Acceptances are filed under their receipts -/

section Filed

variable {h h' : Machine} {d d' : Disk} {caller : Caller} {request : HostQualification.Request}
  {r : HostQualification.Receipt} {cell : Name} {a : Accepted}

omit [Ideal] in
/-- A configuration leaves the context of a cell alone, or replaces it under its own number. -/
theorem Configured.doc_context {s s' : Store} {m : HostMeta} {peer : Name}
    {r : HostConfiguration.Receipt} (configured : Configured s s' m peer r) (cell : Name) :
    s'.doc (.processContext cell) = s.doc (.processContext cell) ∨
    ∃ x, s'.doc (.processContext cell) = some x ∧ x.receiptSequence = r.sequence := by
  by_cases ht : r.status = .appliedUnqualified ∧ ∃ t ∈ r.request.cells, t.cell = cell
  · obtain ⟨hstatus, t, ht, rfl⟩ := ht
    exact .inr (configured.applied hstatus t ht)
  · left
    apply configured.frame.doc
    rintro (hk | ⟨hstatus, t, hmem, hk⟩ | hk | hk | hk | hk) <;> try cases hk
    exact ht ⟨hstatus, t, hmem, rfl⟩

/-- A qualification leaves the acceptance of a cell alone, or accepts the cell. -/
theorem Qualifies.doc_accepted {s s' : Store} {m : HostMeta} {peer : Name}
    {r : HostQualification.Receipt} (qualifies : Qualifies s s' m peer r) (cell : Name) :
    s'.doc (.acceptedQualification cell) = s.doc (.acceptedQualification cell) ∨
    r.status = .accepted ∧ ∃ t ∈ r.request.cells, t.cell = cell := by
  by_cases ht : r.status = .accepted ∧ ∃ t ∈ r.request.cells, t.cell = cell
  · exact .inr ht
  · left
    apply qualifies.frame.doc
    rintro (hk | ⟨hstatus, t, hmem, hk | hk | hk⟩ | hk | hk | hk) <;> try cases hk
    exact ht ⟨hstatus, t, hmem, rfl⟩

/-- The acceptance `a` of a cell is one that the receipt `r` recorded. -/
structure Accepted.From (a : Accepted) (r : HostQualification.Receipt) (cell : Name) : Prop where
  status : r.status = .accepted
  request : r.request.id = a.request
  sequence : r.sequence = a.sequence
  boot : r.hostBoot = a.hostBoot
  mem : a.target ∈ r.request.cells
  cell : a.target.cell = cell

/-- An acceptance that is there after a step was there before, or the step has made it. -/
theorem QualifyStep.accepted_cases (step : QualifyStep h caller request r h')
    (ha : h'.store.doc (.acceptedQualification cell) = some a) :
    h.store.doc (.acceptedQualification cell) = some a ∨ a.From r cell := by
  cases step with
  | mk _ qualifies =>
    rcases qualifies.doc_accepted cell with hsame | ⟨hstatus, t, ht, rfl⟩
    · exact .inl (hsame.symm.trans ha)
    · obtain ⟨accept, haccept, hall⟩ := qualifies.accepted hstatus
      have hnew := (hall t ht).accepted'
      obtain rfl := Option.some.inj (ha.symm.trans hnew)
      obtain ⟨hrequest, hsequence, hboot, htarget⟩ := haccept t
      exact .inr ⟨hstatus, hrequest.symm, hsequence.symm, hboot.symm, htarget.symm ▸ ht,
        congrArg _ htarget⟩

/-- Receipts are filed under the identifier and the number they carry, and every acceptance
has the receipt that recorded it. -/
structure Disk.Qualified (d : Disk) : Prop where
  filed : ∀ peer id r, d.store.doc (.qualificationRequest peer id) = some r →
    r.request.id = id ∧ d.store.doc (.qualificationHistory r.sequence) = some r
  accepted : ∀ cell a, d.store.doc (.acceptedQualification cell) = some a → ∃ peer r,
    d.store.doc (.qualificationRequest peer a.request) = some r ∧ a.From r cell

omit [Ideal] in
/-- Two receipts with one number are the same. -/
theorem Disk.Qualified.eq_of_sequence_eq (hd : d.Qualified) {peer peer' : Name} {id id' : Id}
    {r r' : HostQualification.Receipt} (hr : d.store.doc (.qualificationRequest peer id) = some r)
    (hr' : d.store.doc (.qualificationRequest peer' id') = some r')
    (heq : r.sequence = r'.sequence) : r = r' := by
  have hlisted := (hd.filed _ _ _ hr).2
  have hlisted' := (hd.filed _ _ _ hr').2
  rw [heq] at hlisted
  exact Option.some.inj (hlisted.symm.trans hlisted')

theorem QualifyStep.qualified (step : QualifyStep h caller request r h')
    (hd : h.toDisk.Qualified) : h'.toDisk.Qualified := by
  have hkeeps := (Step.qualified step).keeps
  have hcases : ∀ {cell a}, h'.store.doc (.acceptedQualification cell) = some a →
      h.store.doc (.acceptedQualification cell) = some a ∨ a.From r cell :=
    step.accepted_cases
  cases step with
  | mk _ qualifies same =>
    constructor
    · intro peer id r' hr'
      by_cases hnew : peer = caller.peer ∧ id = r.request.id
      · obtain ⟨rfl, rfl⟩ := hnew
        obtain rfl := Option.some.inj (qualifies.recorded.symm.trans hr')
        exact ⟨rfl, qualifies.listed⟩
      · -- an older receipt, which stays where it is
        have hold : h.store.doc (.qualificationRequest peer id) = some r' := by
          rw [← hr']
          apply (qualifies.frame.doc _).symm
          rintro (hk | ⟨-, t, -, hk | hk | hk⟩ | hk | hk | hk) <;> try cases hk
          exact hnew ⟨rfl, rfl⟩
        obtain ⟨hid, hlisted⟩ := hd.filed peer id r' hold
        exact ⟨hid, hkeeps _ rfl _ hlisted⟩
    · intro cell a ha
      rcases hcases ha with hold | hfrom
      · obtain ⟨peer, r', hr', hfrom⟩ := hd.accepted cell a hold
        exact ⟨peer, r', hkeeps _ rfl _ hr', hfrom⟩
      · exact ⟨caller.peer, r, hfrom.request ▸ qualifies.recorded, hfrom⟩

theorem Disk.Reachable.qualified (hd : d.Reachable) : d.Qualified := by
  refine hd.inductionOn (P := Disk.Qualified) ?_ ?_
  · constructor <;> intros <;> simp_all [World.empty, Repository.doc]
  · intro d d' move _ ih
    rcases move.qualifications with hsame | ⟨h, h', caller, request, r, rfl, rfl, hstep⟩
    · have hdoc : ∀ k : Key, k.qualifying = true → d'.store.doc k = d.store.doc k :=
        fun k hk => Repository.doc_congr (hsame k hk)
      constructor
      · intro peer id r hr
        rw [hdoc _ rfl] at hr ⊢
        exact ih.filed peer id r hr
      · intro cell a ha
        rw [hdoc _ rfl] at ha
        obtain ⟨peer, r, hr, hfrom⟩ := ih.accepted cell a ha
        exact ⟨peer, r, (hdoc _ rfl).trans hr, hfrom⟩
    · exact hstep.qualified ih

end Filed

/-! ## What never falls -/

section Monotone

variable {d d' : Disk} {cell : Name}

/-- An acceptance is replaced only under a newer epoch. -/
theorem Disk.Move.accepted_epoch (move : d.Move d') {a : Accepted}
    (ha : d.store.doc (.acceptedQualification cell) = some a) :
    ∃ a', d'.store.doc (.acceptedQualification cell) = some a' ∧
      (a' = a ∨ a.target.epoch < a'.target.epoch) := by
  rcases move.qualifications with hsame | ⟨h, h', caller, request, r, rfl, rfl, hstep⟩
  · exact ⟨a, (Repository.doc_congr (hsame _ rfl)).trans ha, .inl rfl⟩
  · cases hstep with
    | mk _ qualifies =>
      rcases qualifies.doc_accepted cell with hsame | ⟨hstatus, t, ht, rfl⟩
      · exact ⟨a, hsame.trans ha, .inl rfl⟩
      · obtain ⟨accept, -, hall⟩ := qualifies.accepted hstatus
        exact ⟨accept t, (hall t ht).accepted', .inr ((hall t ht).accepted a ha)⟩

theorem Disk.Moves.accepted_epoch (hd : d.Reachable) (hm : d.Moves d') {a : Accepted}
    (ha : d.store.doc (.acceptedQualification cell) = some a) :
    ∃ a', d'.store.doc (.acceptedQualification cell) = some a' ∧
      a.target.epoch ≤ a'.target.epoch := by
  apply Moves.row (k := .acceptedQualification cell)
    (R := fun a a' => a.target.epoch ≤ a'.target.epoch) (fun _ => le_rfl)
    (fun _ _ _ => le_trans) _ hd hm ha
  intro d d' move _ a ha
  obtain ⟨a', ha', rfl | hlt⟩ := move.accepted_epoch ha
  · exact ⟨_, ha', le_rfl⟩
  · exact ⟨a', ha', hlt.le⟩

/-- The accepted revision of a qualification never falls. -/
theorem Disk.Moves.maximum_le (hd : d.Reachable) (hm : d.Moves d') {peer : Name} {q : Id}
    {n : Counter} (hn : d.store.doc (.qualificationMaximum peer cell q) = some n) :
    ∃ n', d'.store.doc (.qualificationMaximum peer cell q) = some n' ∧ n ≤ n' := by
  apply Moves.row (k := .qualificationMaximum peer cell q) (fun _ => le_rfl)
    (fun _ _ _ => le_trans) _ hd hm hn
  intro d d' move _ n hn
  rcases move.qualifications with hsame | ⟨h, h', caller, request, r, rfl, rfl, hstep⟩
  · exact ⟨n, (Repository.doc_congr (hsame _ rfl)).trans hn, le_rfl⟩
  · cases hstep with
    | mk _ qualifies =>
      by_cases ht : r.status = .accepted ∧ ∃ t ∈ r.request.cells,
          Key.qualificationMaximum peer cell q =
            .qualificationMaximum caller.peer t.cell t.qualification
      · obtain ⟨hstatus, t, ht, hkey⟩ := ht
        obtain ⟨rfl, rfl, rfl⟩ := Key.qualificationMaximum.inj hkey
        obtain ⟨accept, -, hall⟩ := qualifies.accepted hstatus
        exact ⟨_, (hall t ht).maximum', (hall t ht).maximum n hn⟩
      · refine ⟨n, ?_, le_rfl⟩
        rw [← hn]
        apply qualifies.frame.doc
        rintro (hk | ⟨hstatus, t, hmem, hk | hk | hk⟩ | hk | hk | hk) <;> try cases hk
        exact ht ⟨hstatus, t, hmem, rfl⟩

/-- A process context is numbered below the journal. -/
theorem Disk.Reachable.context_le (hd : d.Reachable) {x : HostConfiguration.AppliedContext}
    (hx : d.store.doc (.processContext cell) = some x) :
    ∃ m, d.store.doc .hostMeta = some m ∧ x.receiptSequence ≤ m.deliverySeq := by
  refine hd.inductionOn (P := fun d => ∀ x, d.store.doc (.processContext cell) = some x →
    ∃ m, d.store.doc .hostMeta = some m ∧ x.receiptSequence ≤ m.deliverySeq) ?_ ?_ x hx
  · intro x hx
    simp [World.empty, Repository.doc] at hx
  · intro d d' move _ ih x hx
    have hold : d.store.doc (.processContext cell) = some x →
        ∃ m, d'.store.doc .hostMeta = some m ∧ x.receiptSequence ≤ m.deliverySeq := by
      intro hx
      obtain ⟨m, hm, hle⟩ := ih x hx
      obtain ⟨m', hm', hcont⟩ := move.journals hm
      exact ⟨m', hm', hle.trans hcont.sequence⟩
    rcases move.contexts with hsame | ⟨h, h', caller, request, r, rfl, rfl, hstep⟩
    · exact hold ((Repository.doc_congr (hsame cell)).symm.trans hx)
    · cases hstep with
      | @mk m s _ configured =>
        rcases configured.doc_context cell with hsame | ⟨x', hx', hsequence⟩
        · exact hold (hsame.symm.trans hx)
        · obtain rfl := Option.some.inj (hx.symm.trans hx')
          refine ⟨_, configured.next, ?_⟩
          rw [hsequence, configured.sequence]
          rfl

/-- A process context stays, or is replaced by one with a later number. -/
theorem Disk.Moves.context_le (hd : d.Reachable) (hm : d.Moves d')
    {x : HostConfiguration.AppliedContext} (hx : d.store.doc (.processContext cell) = some x) :
    ∃ x', d'.store.doc (.processContext cell) = some x' ∧
      x.receiptSequence ≤ x'.receiptSequence := by
  apply Moves.row (k := .processContext cell)
    (R := fun x x' => x.receiptSequence ≤ x'.receiptSequence) (fun _ => le_rfl)
    (fun _ _ _ => le_trans) _ hd hm hx
  intro d d' move hd x hx
  rcases move.contexts with hsame | ⟨h, h', caller, request, r, rfl, rfl, hstep⟩
  · exact ⟨x, (Repository.doc_congr (hsame cell)).trans hx, le_rfl⟩
  · cases hstep with
    | mk configured =>
      rcases configured.doc_context cell with hsame | ⟨x', hx', hsequence⟩
      · exact ⟨x, hsame.trans hx, le_rfl⟩
      · -- the new number is above every number given so far
        obtain ⟨m, hm, hle⟩ := hd.context_le hx
        obtain rfl := Option.some.inj (hm.symm.trans configured.journals)
        refine ⟨x', hx', ?_⟩
        calc x.receiptSequence ≤ m.deliverySeq := hle
          _ ≤ m.deliverySeq + 1 := Nat.le_succ _
          _ = x'.receiptSequence := by rw [hsequence, configured.sequence]

end Monotone

/-! ## No boot comes back -/

theorem Step.boot_eq {c : Call} {h h' : Machine} (step : Step c h h') :
    h'.core.boot = h.core.boot := by
  cases step with
  | drew | disarmed => rfl
  | prepared step | voided step => cases step <;> rfl
  | bound step | claimed step | booted step | sent step | entered step | finished step
  | captured step | fenced step | armed step | granted step | renewed step | configured step
  | qualified step | acknowledged step => cases step; rfl

theorem Steps.boot_eq {c : Call} {h h' : Machine} (hs : Steps c h h') :
    h'.core.boot = h.core.boot := by
  induction hs with
  | refl => rfl
  | tail _ hlast ih => exact hlast.boot_eq.trans ih

theorem Disk.Moves.drawn_le {d d' : Disk} (hm : d.Moves d') : d.drawn ≤ d'.drawn := by
  induction hm with
  | refl => exact le_rfl
  | tail _ hlast ih => exact ih.trans hlast.drawn_le

namespace World

variable {w w' : World} {i : Input}

/-- The boot of the process is an identifier generated since `n` of them were. -/
def BootsFrom (w : World) (n : ℕ) : Prop :=
  ∀ p, w.process = some p → ∃ k, n ≤ k ∧ k < w.drawn ∧ p.core.boot = Ideal.freshId k

theorem Change.bootsFrom (hc : Change w i w') {n : ℕ} (hn : n ≤ w.drawn) (hw : w.BootsFrom n) :
    w'.BootsFrom n := by
  have hdrawn := hc.moves.drawn_le
  cases hc with
  | ignored => exact hw
  | stopped | failed => exact nofun
  | maintained idle => exact fun p hp => by simp [idle] at hp
  | started idle step =>
    -- a start draws its boot after both journals
    intro p hp
    cases step
    cases hp
    exact ⟨w.drawn + 2, by omega, by simp, rfl⟩
  | called running steps kept =>
    intro p hp
    obtain ⟨k, hle, hlt, hboot⟩ := hw _ running
    refine ⟨k, hle, hlt.trans_le hdrawn, ?_⟩
    rw [kept p hp, steps.boot_eq]
    exact hboot

theorem BootsFrom.steps {n : ℕ} (hreach : w.Reachable) (hn : n ≤ w.drawn) (hw : w.BootsFrom n)
    (after : List Input) : (w.steps after).BootsFrom n := by
  induction after generalizing w with
  | nil => exact hw
  | cons i after ih =>
    have hchange := step_change (i := i) hreach.regular
    exact ih (step_reachable hreach i) (hn.trans hchange.moves.drawn_le)
      (hchange.bootsFrom hn hw)

/-- A process that was started later has another boot. -/
theorem boot_ne (inputs : List Input) (i : Input) {p q : Process} {after : List Input}
    (hp : (run inputs).process = some p) (hended : ((run inputs).step i).process = none)
    (hq : (((run inputs).step i).steps after).process = some q) : p.core.boot ≠ q.core.boot := by
  have hreach := run_reachable inputs
  have hfirst : (run inputs).BootsFrom 0 :=
    BootsFrom.steps .refl (Nat.zero_le _) (fun p hp => by simp [empty] at hp) inputs
  have hidle : ((run inputs).step i).BootsFrom ((run inputs).step i).drawn :=
    fun p hp => by simp [hended] at hp
  obtain ⟨k, -, hk, hboot⟩ := hfirst p hp
  obtain ⟨k', hk', -, hboot'⟩ := hidle.steps (step_reachable hreach i) le_rfl after q hq
  have hdrawn := (step_moves hreach i).drawn_le
  rw [hboot, hboot']
  intro heq
  have hsame := Ideal.freshId.injective heq
  omega

/-! ## What is current -/

/-- `current_target` returns `v` for the cell. -/
def Yields (w : World) (p : Process) (cell : Name) (v : Option HostQualification.CellTarget) :
    Prop :=
  w.process = some p ∧ ∃ answers, (w.call p (.currentTarget cell) answers).1 = .ok v

/-- Every cell of the receipt shows the fence, the process context and the acceptance that
were accepted together, in the boot of the process. -/
structure Cohort (w : World) (p : Process) (r : HostQualification.Receipt) : Prop where
  stored : w.store.doc (.qualificationRequest p.core.platform r.request.id) = some r
  accepted : r.status = .accepted
  boot : r.hostBoot = p.core.boot
  fence : ∀ u ∈ r.request.cells, ∃ s, w.store.doc (.cell u.cell) = some s ∧
    s.epoch = u.epoch ∧ s.scopes = u.scopes
  context : ∀ u ∈ r.request.cells, ∃ x, w.store.doc (.processContext u.cell) = some x ∧
    x.configuration = u.configuration ∧ x.request = u.contextRequest ∧
    x.receiptSequence = u.contextSequence
  acceptance : ∀ u ∈ r.request.cells, ∃ a, w.store.doc (.acceptedQualification u.cell) = some a ∧
    a.target = u ∧ a.request = r.request.id ∧ a.sequence = r.sequence ∧ a.hostBoot = p.core.boot

variable {p : Process} {cell : Name} {v : Option HostQualification.CellTarget} {a : Accepted}
  {r : HostQualification.Receipt}

theorem Yields.targets (h : w.Yields p cell v) : Targets (w.machine p) cell v := by
  obtain ⟨-, answers, hcall⟩ := h
  obtain ⟨_, _, hok, -⟩ := call_ok (c := .currentTarget cell) (w := w) (p := p)
    currentTarget_reads (Prod.ext hcall rfl)
  exact hok.2

theorem Yields.bound (h : w.Yields p cell v) : cell ∈ p.core.cells := by
  obtain ⟨-, answers, hcall⟩ := h
  obtain ⟨_, _, hok, -⟩ := call_ok (c := .currentTarget cell) (w := w) (p := p)
    currentTarget_bound (Prod.ext hcall rfl)
  exact hok.2

/-- A cell with a process context yields an acceptance or fails. -/
theorem Yields.holds (h : w.Yields p cell v) {x : HostConfiguration.AppliedContext}
    (hx : w.store.doc (.processContext cell) = some x) :
    ∃ a r, Holds (w.machine p) cell a r ∧ v = some a.target := by
  have htargets := h.targets
  cases v with
  | none => exact absurd (hx.symm.trans htargets.1) (by simp)
  | some t =>
    obtain ⟨a, r, hholds, rfl⟩ := htargets
    exact ⟨a, r, hholds, rfl⟩

end World

/-- A cell holds its acceptance together with the whole cohort of it. -/
theorem Holds.cohort_from {w : World} {p : Process} {cell : Name} {a : Accepted}
    {r : HostQualification.Receipt} (hw : w.Reachable) (h : Holds (w.machine p) cell a r) :
    w.Cohort p r ∧ a.From r cell := by
  -- the receipt it was checked against is the one that recorded it
  obtain ⟨peer, r', hr', hfrom⟩ := hw.qualified.accepted cell a h.accepted
  have hsame : r' = r :=
    hw.qualified.eq_of_sequence_eq hr' h.receipt (hfrom.sequence.trans h.sequence.symm)
  subst hsame
  refine ⟨{
    stored := hfrom.request ▸ h.receipt
    accepted := hfrom.status
    boot := h.receiptBoot
    fence := fun u hu => (h.cohort u hu).fence
    context := fun u hu => (h.cohort u hu).context
    acceptance := fun u hu => ?_ }, hfrom⟩
  obtain ⟨b, hb, hrequest, hsequence, hboot, htarget⟩ := (h.cohort u hu).accepted
  exact ⟨b, hb, htarget, hrequest.trans hfrom.request.symm, hsequence.trans hfrom.sequence.symm,
    hboot⟩

/-! ## What ends a qualification, and what brings one back -/

namespace World

variable {w w' : World} {i : Input} {p : Process} {cell : Name} {a : Accepted}
  {r : HostQualification.Receipt}

/-- The input commits a new acceptance, asked for by `peer`. -/
def Accepts (w : World) (i : Input) (peer : Name) (r : HostQualification.Receipt) : Prop :=
  ∃ caller request answers, i = .call (.acceptQualification caller request) answers ∧
    caller.peer = peer ∧ r.request = request ∧ r.status = .accepted ∧
    w.store.doc (.qualificationRequest peer request.id) = none ∧
    (w.step i).store.doc (.qualificationRequest peer request.id) = some r

/-- The input raises the epoch or a scope counter of a cell of the receipt, applies a new
process configuration, or ends the process (its restart may come with other bindings). -/
inductive Invalidates (w : World) (i : Input) (r : HostQualification.Receipt) : Prop
  | fenced {u : HostQualification.CellTarget} {s s' : CellState} (mem : u ∈ r.request.cells)
      (before : w.store.doc (.cell u.cell) = some s)
      (after : (w.step i).store.doc (.cell u.cell) = some s')
      (raised : s'.epoch ≠ s.epoch ∨ s'.scopes ≠ s.scopes)
  | configured {peer : Name} {id : Id} {receipt : HostConfiguration.Receipt}
      (before : w.store.doc (.configurationRequest peer id) = none)
      (after : (w.step i).store.doc (.configurationRequest peer id) = some receipt)
      (applied : receipt.status = .appliedUnqualified)
  | ended (idle : (w.step i).process = none)

omit [Ideal] in
/-- The only input that writes what is stored about qualifications. -/
theorem accepts_of_writes {k : Key} (hk : k.qualifying = true) (hi : i.Writes k) :
    ∃ caller request answers, i = .call (.acceptQualification caller request) answers := by
  cases i with
  | start => rcases hi with rfl | ⟨cell, rfl⟩ <;> cases hk
  | stop => exact hi.elim
  | maintain k' v =>
    obtain ⟨rfl, hb⟩ := hi
    rw [Key.qualifying_eq_false (.inl hb)] at hk
    cases hk
  | call c answers =>
    by_contra hother
    have hnot := Call.qualifying_of_writes
      (fun caller request heq => hother ⟨caller, request, answers, heq ▸ rfl⟩) hi
    rw [hnot] at hk
    cases hk

/-- An acceptance that an input stores was made by it. -/
theorem step_accepted (hw : w.Reachable)
    (hnew : w.store.doc (.acceptedQualification cell) ≠ some a)
    (ha : (w.step i).store.doc (.acceptedQualification cell) = some a) :
    ∃ p caller request answers r h, i = .call (.acceptQualification caller request) answers ∧
      w.process = some p ∧ (w.step i).toDisk = h.toDisk ∧
      QualifyStep (w.machine p) caller request r h ∧ a.From r cell := by
  obtain ⟨caller, request, answers, rfl⟩ := accepts_of_writes rfl (writes_of_stored hw hnew ha)
  obtain ⟨p, h, hp, hdisk, r, hstep⟩ := qualify_committed hnew ha
  rw [hdisk] at ha
  have hfrom := (hstep.accepted_cases ha).resolve_left hnew
  exact ⟨p, caller, request, answers, r, h, rfl, hp, hdisk, hstep, hfrom⟩

/-- A configuration that an input records was answered by it. -/
theorem step_configured (hw : w.Reachable) {peer : Name} {id : Id}
    {receipt : HostConfiguration.Receipt}
    (hnew : w.store.doc (.configurationRequest peer id) = none)
    (hstored : (w.step i).store.doc (.configurationRequest peer id) = some receipt) :
    ∃ p caller request answers h, i = .call (.acceptProcessConfiguration caller request) answers ∧
      w.process = some p ∧ (w.step i).toDisk = h.toDisk ∧
      ConfigureStep (w.machine p) caller request receipt h := by
  have hne : w.store.doc (.configurationRequest peer id) ≠ some receipt := by simp [hnew]
  have hwrites := writes_of_stored hw hne hstored
  rcases i with _ | ⟨c, answers⟩ | _ | ⟨k, v⟩
  case call =>
    cases c with
    | acceptProcessConfiguration caller request =>
      obtain ⟨p, h, hp, hdisk, r, hstep⟩ := configure_committed hne hstored
      -- the row is the one of this request
      have hkey : peer = caller.peer ∧ id = request.id := by
        simpa [Input.Writes, Call.Writes, Key.booked] using hwrites
      obtain ⟨rfl, rfl⟩ := hkey
      have hrow : h.store.doc (.configurationRequest caller.peer request.id) = some r := by
        cases hstep with
        | mk configured same => exact same ▸ configured.recorded
      rw [hdisk] at hstored
      obtain rfl := Option.some.inj (hrow.symm.trans hstored)
      exact ⟨p, caller, request, answers, h, rfl, hp, hdisk, hstep⟩
    | _ => simp [Input.Writes, Call.Writes, Key.booked, Key.delivers, Touches] at hwrites
  case maintain =>
    obtain ⟨rfl, hb⟩ := hwrites
    cases hb
  all_goals simp [Input.Writes] at hwrites

variable {q : Process}

/-- The receipt of a cohort is still the one its cells were accepted with. -/
theorem Cohort.receipt_eq (hw : w.Reachable) (hm : w.Moves w'.toDisk) (hc : w.Cohort p r)
    {r' : HostQualification.Receipt} (hholds : Holds (w'.machine q) cell a r')
    (hsequence : a.sequence = r.sequence) : r' = r := by
  have hkept := hm.keeps _ rfl _ hc.stored
  exact (hw.moves hm).qualified.eq_of_sequence_eq hholds.receipt hkept
    (hholds.sequence.trans hsequence)

/-- An input that fences a cell or applies a configuration leaves the acceptances alone. -/
theorem accepted_unchanged (hw : w.Reachable) {k : Key} (hi : i.Writes k)
    (hk : (∃ x, k = .cell x) ∨ ∃ peer id, k = .configurationRequest peer id) (cell : Name) :
    (w.step i).store.doc (.acceptedQualification cell) =
      w.store.doc (.acceptedQualification cell) := by
  apply Repository.doc_congr
  apply step_get_eq hw
  intro hwrites
  obtain ⟨caller, request, answers, rfl⟩ := accepts_of_writes rfl hwrites
  rcases hk with ⟨x, rfl⟩ | ⟨peer, id, rfl⟩ <;>
    simp [Input.Writes, Call.Writes, Touches] at hi

/-- After a fence of the cohort, no cell holds the acceptance it had. -/
theorem not_holds_of_fenced {u : HostQualification.CellTarget} {s s' : CellState}
    {after : List Input} (hw : w.Reachable) (hc : w.Cohort p r) (hu : u ∈ r.request.cells)
    (hs : w.store.doc (.cell u.cell) = some s)
    (hs' : (w.step i).store.doc (.cell u.cell) = some s')
    (hraised : s'.epoch ≠ s.epoch ∨ s'.scopes ≠ s.scopes) :
    ¬ Holds (((w.step i).steps after).machine q) cell a r := by
  intro hholds
  have hnext := step_reachable hw i
  -- the fence before, after the input, and as the acceptance asks for it
  obtain ⟨s₀, hs₀, hepoch, hscopes⟩ := hc.fence u hu
  obtain rfl := Option.some.inj (hs₀.symm.trans hs)
  obtain ⟨s₁, hs₁, hadvance⟩ := (step_moves hw i).cell_advances hs
  obtain rfl := Option.some.inj (hs₁.symm.trans hs')
  obtain ⟨s₂, hs₂, hadvance'⟩ := (steps_moves hnext.regular after).cell_advances hs'
  obtain ⟨s₃, hs₃, hepoch', hscopes'⟩ := (hholds.cohort u hu).fence
  obtain rfl := Option.some.inj (hs₂.symm.trans hs₃)
  rw [← hepoch] at hepoch'
  rw [← hscopes] at hscopes'
  rcases hraised with hne | hne
  · exact hne (le_antisymm (hepoch' ▸ hadvance'.epoch) hadvance.epoch)
  · exact hne (Counters.Advances.antisymm (hscopes' ▸ hadvance'.scopes) hadvance.scopes)

/-- After a new process configuration, no cell of the host holds the acceptance it had. -/
theorem not_holds_of_configured {t : HostQualification.CellTarget} {peer : Name} {id : Id}
    {receipt : HostConfiguration.Receipt} {after : List Input} (hw : w.Reachable)
    (hp : w.process = some p) (hc : w.Cohort p r) (ht : t ∈ r.request.cells)
    (hbound : t.cell ∈ p.core.cells) (hnew : w.store.doc (.configurationRequest peer id) = none)
    (hstored : (w.step i).store.doc (.configurationRequest peer id) = some receipt)
    (happlied : receipt.status = .appliedUnqualified) :
    ¬ Holds (((w.step i).steps after).machine q) cell a r := by
  intro hholds
  obtain ⟨p', caller, request, answers, h, -, hp', hdisk, hstep⟩ :=
    step_configured hw hnew hstored
  obtain rfl := Option.some.inj (hp.symm.trans hp')
  have hnext := step_reachable hw i
  -- the number of the context before, after the input, and as the acceptance asks for it
  obtain ⟨x, hx, -, -, hsequence⟩ := hc.context t ht
  obtain ⟨m, hm, hle⟩ := hw.context_le hx
  obtain ⟨x₁, hx₁, hnumber⟩ : ∃ x, (w.step i).store.doc (.processContext t.cell) = some x ∧
      x.receiptSequence = m.deliverySeq + 1 := by
    rw [hdisk]
    cases hstep with
    | @mk m' _ _ configured same _ _ cells =>
      obtain rfl := Option.some.inj (hm.symm.trans configured.journals)
      rw [← configured.sequence]
      have hmem : t.cell ∈ (request.cells.map HostConfiguration.CellTarget.cell).toFinset := by
        rw [cells]
        exact List.mem_toFinset.mpr hbound
      obtain ⟨target, htarget, hcell⟩ := List.mem_map.mp (List.mem_toFinset.mp hmem)
      rw [← hcell]
      exact configured.applied happlied target (same.symm ▸ htarget)
  obtain ⟨x₂, hx₂, hlater⟩ :=
    (steps_moves hnext.regular after).context_le hnext hx₁
  obtain ⟨x₃, hx₃, -, -, hsequence'⟩ := (hholds.cohort t ht).context
  obtain rfl := Option.some.inj (hx₂.symm.trans hx₃)
  have hlt : x.receiptSequence < x.receiptSequence :=
    calc x.receiptSequence ≤ m.deliverySeq := hle
      _ < m.deliverySeq + 1 := Nat.lt_succ_self _
      _ = x₁.receiptSequence := hnumber.symm
      _ ≤ x₂.receiptSequence := hlater
      _ = x.receiptSequence := hsequence'.trans hsequence.symm
  exact lt_irrefl _ hlt

/-- An acceptance that is held after an invalidation was not there when it happened. -/
theorem accepted_ne_of_invalidates {inputs : List Input} {t u : HostQualification.CellTarget}
    {after : List Input} {r' : HostQualification.Receipt} (hp : (run inputs).process = some p)
    (hc : (run inputs).Cohort p r) (ht : t ∈ r.request.cells) (hbound : t.cell ∈ p.core.cells)
    (hi : (run inputs).Invalidates i r) (hu : u ∈ r.request.cells)
    (hq : (((run inputs).step i).steps after).process = some q)
    (hholds : Holds ((((run inputs).step i).steps after).machine q) u.cell a r') :
    ((run inputs).step i).store.doc (.acceptedQualification u.cell) ≠ some a := by
  intro ha
  have hw := run_reachable inputs
  have hmoves : (run inputs).Moves (((run inputs).step i).steps after).toDisk :=
    steps_moves hw.regular (i :: after)
  obtain ⟨a₀, ha₀, -, -, hsequence, hboot⟩ := hc.acceptance u hu
  have hrecorded : a = a₀ → r' = r := by
    rintro rfl
    exact hc.receipt_eq hw hmoves hholds hsequence
  cases hi with
  | @fenced u₀ s s' mem before later raised =>
    have hne : (run inputs).store.doc (.cell u₀.cell) ≠ some s' := by
      rw [before]
      intro heq
      obtain rfl := Option.some.inj heq
      simp at raised
    rw [accepted_unchanged hw (writes_of_stored hw hne later) (.inl ⟨_, rfl⟩)] at ha
    obtain rfl := hrecorded (Option.some.inj (ha.symm.trans ha₀))
    exact not_holds_of_fenced hw hc mem before later raised hholds
  | configured before later applied =>
    have hwrites := writes_of_stored hw (by simp [before]) later
    rw [accepted_unchanged hw hwrites (.inr ⟨_, _, rfl⟩)] at ha
    obtain rfl := hrecorded (Option.some.inj (ha.symm.trans ha₀))
    exact not_holds_of_configured hw hp hc ht hbound before later applied hholds
  | ended idle =>
    -- whenever it was accepted, it was in the boot that has ended
    have hold : a.hostBoot = p.core.boot := by
      by_cases hbefore : (run inputs).store.doc (.acceptedQualification u.cell) = some a
      · obtain rfl := Option.some.inj (hbefore.symm.trans ha₀)
        exact hboot
      · obtain ⟨p', caller, request, answers, receipt, h, -, hp', -, hstep, hfrom⟩ :=
          step_accepted hw hbefore ha
        obtain rfl := Option.some.inj (hp.symm.trans hp')
        cases hstep with
        | mk _ _ _ _ boot => exact hfrom.boot.symm.trans boot
    exact boot_ne inputs i hp idle hq (hold.symm.trans hholds.boot)

/-- A new acceptance, and the one it replaces in each of its cells. -/
structure Supersedes (w : World) (i : Input) (peer : Name) (r : HostQualification.Receipt) :
    Prop where
  accepts : w.Accepts i peer r
  newer : ∀ u ∈ r.request.cells, ∀ old,
    w.store.doc (.acceptedQualification u.cell) = some old → old.target.epoch < u.epoch

/-- The input that stores an acceptance replaces older ones only. -/
theorem supersedes_of_accepted (hw : w.Reachable)
    (hnew : w.store.doc (.acceptedQualification cell) ≠ some a)
    (ha : (w.step i).store.doc (.acceptedQualification cell) = some a) :
    ∃ peer r, w.Supersedes i peer r ∧ a.From r cell := by
  obtain ⟨p, caller, request, answers, r, h, rfl, hp, hdisk, hstep, hfrom⟩ :=
    step_accepted hw hnew ha
  cases hstep with
  | mk _ qualifies same =>
    subst same
    refine ⟨caller.peer, r, ⟨⟨caller, r.request, answers, rfl, rfl, rfl, hfrom.status,
      qualifies.unrecorded, ?_⟩, ?_⟩, hfrom⟩
    · rw [hdisk]
      exact qualifies.recorded
    · intro u hu old hold
      obtain ⟨accept, haccept, hall⟩ := qualifies.accepted hfrom.status
      have hlt := (hall u hu).accepted old hold
      rwa [(haccept u).2.2.2] at hlt

/-- After an invalidation, whatever is current for a cell of the cohort was accepted since. -/
theorem superseded {inputs : List Input} {t u : HostQualification.CellTarget} {after : List Input}
    {v : Option HostQualification.CellTarget} (hyields : (run inputs).Yields p t.cell (some t))
    (hc : (run inputs).Cohort p r) (ht : t ∈ r.request.cells) (hi : (run inputs).Invalidates i r)
    (hu : u ∈ r.request.cells) (hlater : (((run inputs).step i).steps after).Yields q u.cell v) :
    ∃ a j b peer r', after = a ++ j :: b ∧
      (((run inputs).step i).steps a).Supersedes j peer r' ∧
      (∃ u' ∈ r'.request.cells, u'.cell = u.cell ∧ v = some u') ∧
      ∀ u' ∈ r'.request.cells, ∀ u₀ ∈ r.request.cells, u₀.cell = u'.cell → u₀.epoch < u'.epoch := by
  have hw := run_reachable inputs
  have hnext := step_reachable hw i
  -- the process context stays, so the cell holds an acceptance
  obtain ⟨x, hx, -⟩ := hc.context u hu
  obtain ⟨x', hx', -⟩ :=
    Disk.Moves.context_le hw (steps_moves hw.regular (i :: after)) hx
  obtain ⟨acceptance, r₂, hholds, rfl⟩ := hlater.holds hx'
  have hnew := accepted_ne_of_invalidates hyields.1 hc ht hyields.bound hi hu hlater.1 hholds
  -- and some input since has stored it
  obtain ⟨a, j, b, rfl, hbefore, hstored⟩ := Durable.Runs.first
    (P := fun w : World => w.store.doc (.acceptedQualification u.cell) = some acceptance) hnew
    hholds.accepted
  have hreach := steps_reachable hnext a
  obtain ⟨peer, r', hsupersedes, hfrom⟩ := supersedes_of_accepted hreach hbefore hstored
  refine ⟨a, j, b, peer, r', rfl, hsupersedes, ⟨_, hfrom.mem, hfrom.cell, rfl⟩, ?_⟩
  intro u' hu' u₀ hu₀ hcell
  obtain ⟨a₀, ha₀, htarget, -⟩ := hc.acceptance u₀ hu₀
  obtain ⟨a₁, ha₁, hle⟩ :=
    Disk.Moves.accepted_epoch hw (steps_moves hw.regular (i :: a)) ha₀
  rw [htarget] at hle
  rw [hcell] at ha₁
  exact hle.trans_lt (hsupersedes.newer u' hu' a₁ ha₁)

/-- What qualifications guarantee, in every continuation of a world. -/
structure QualifiesTogether (w : World) : Prop where
  /-- A current target is one of a cohort whose cells all show what was accepted with it. -/
  cohort : ∀ p cell t, w.Yields p cell (some t) →
    ∃ r, w.Cohort p r ∧ t ∈ r.request.cells ∧ t.cell = cell
  /-- After an invalidation, no cell of the cohort has a current target until a new acceptance
  has been committed, under a newer epoch for each of its cells. -/
  invalidated : ∀ p t r, w.Yields p t.cell (some t) → w.Cohort p r → t ∈ r.request.cells →
    ∀ i, w.Invalidates i r → ∀ after q, ∀ u ∈ r.request.cells, ∀ v,
      ((w.step i).steps after).Yields q u.cell v →
      ∃ a j b peer r', after = a ++ j :: b ∧ ((w.step i).steps a).Supersedes j peer r' ∧
        (∃ u' ∈ r'.request.cells, u'.cell = u.cell ∧ v = some u') ∧
        ∀ u' ∈ r'.request.cells, ∀ u₀ ∈ r.request.cells, u₀.cell = u'.cell → u₀.epoch < u'.epoch
  /-- An acceptance records its revisions, none below those accepted before, and its
  identities. -/
  recorded : ∀ i peer r, w.Accepts i peer r → ∀ u ∈ r.request.cells,
    (∀ n, w.store.doc (.qualificationMaximum peer u.cell u.qualification) = some n →
      n ≤ u.qualificationRevision) ∧
    (w.step i).store.doc (.qualificationMaximum peer u.cell u.qualification) =
      some u.qualificationRevision ∧
    (w.step i).store.doc (.qualificationIdentity peer u.cell u.qualification
      u.qualificationRevision) = some (Ideal.identityDigest (qualificationIdentity r.request u))
  /-- The accepted revision never falls. -/
  revision : ∀ peer cell q n, w.store.doc (.qualificationMaximum peer cell q) = some n →
    ∀ after, ∃ n', (w.steps after).store.doc (.qualificationMaximum peer cell q) = some n' ∧ n ≤ n'
  /-- The identity of a revision never changes. -/
  identity : ∀ peer cell q n digest,
    w.store.doc (.qualificationIdentity peer cell q n) = some digest → ∀ after,
      (w.steps after).store.doc (.qualificationIdentity peer cell q n) = some digest

end World

/-- A qualification covers its whole cohort and is invalidated as a whole: it is current only
while every cell of the cohort shows what was accepted with it, and once one of them does
not, only a new acceptance under newer epochs makes any of them current again. -/
theorem qualification_covers_cohort (inputs : List Input) :
    (World.run inputs).QualifiesTogether := by
  have hw := World.run_reachable inputs
  constructor
  case cohort =>
    intro p cell t hyields
    obtain ⟨a, r, hholds, rfl⟩ := hyields.targets
    obtain ⟨hcohort, hfrom⟩ := hholds.cohort_from hw
    exact ⟨r, hcohort, hfrom.mem, hfrom.cell⟩
  case invalidated =>
    intro p t r hyields hc ht i hi after q u hu v hlater
    exact World.superseded hyields hc ht hi hu hlater
  case recorded =>
    rintro i peer r ⟨caller, request, answers, rfl, rfl, rfl, haccepted, hnew, hstored⟩ u hu
    obtain ⟨p, h, -, hdisk, r', hstep⟩ := World.qualify_committed (by simp [hnew]) hstored
    rw [hdisk] at hstored ⊢
    cases hstep with
    | mk _ qualifies same =>
      -- the receipt it stored is the one it answered with
      have hrow := qualifies.recorded
      rw [same] at hrow
      obtain rfl := Option.some.inj (hrow.symm.trans hstored)
      obtain ⟨accept, -, hall⟩ := qualifies.accepted haccepted
      have hcell := hall u hu
      exact ⟨hcell.maximum, hcell.maximum', hcell.identity'⟩
  case revision =>
    intro peer cell q n hn after
    exact Disk.Moves.maximum_le hw (World.steps_moves hw.regular after) hn
  case identity =>
    intro peer cell q n digest hdigest after
    exact (World.steps_moves hw.regular after).keeps _ rfl _ hdigest

end RxSolutions.Host
