import RxSolutions.Host.Deliveries

/-!
# Evidence exactly once

Three views of a delivery are stored: its current record, the history of its records by
number, and the journal of evidence. They are written in one commit each time, so they
agree in every state a run can leave behind: the journal holds one piece of evidence for
an operation whose result was captured and none for any other, and each number of the
history holds the record as it was written under it.
-/

namespace RxSolutions.Host

open Domain Durable Relation

/-- The evidence the journal holds for an operation, with the identifiers it is logged
under. -/
def Store.evidenceOf (s : Store) (op : Id) : List (Id × EvidenceRecord) :=
  s.events.filter fun e => e.2.operation = op

variable [Ideal]

/-! ## The journal agrees with the records -/

/-- What the journal holds for an operation, given its record. -/
def DeliveryRecord.Proven (r : DeliveryRecord) (evidence : List (Id × EvidenceRecord)) : Prop :=
  (r.state = .resultCaptured ∧ ∃ e, evidence = [(e.evidenceId, e)] ∧ r.evidenceIds = [e.evidenceId])
    ∨ (r.state ≠ .resultCaptured ∧ evidence = [] ∧ r.evidenceIds = [])

/-- The journal agrees with the records of all operations. -/
structure Disk.Proven (d : Disk) : Prop where
  record : ∀ op r, d.store.doc (.delivery op) = some r → r.Proven (d.store.evidenceOf op)
  absent : ∀ op, d.store.doc (.delivery op) = none → d.store.evidenceOf op = []

section Proven

variable {d d' : Disk} {s s' : Store} {old : Option DeliveryRecord} {r : DeliveryRecord}
  {evidence : List EvidenceRecord}

/-- A transition logs evidence about the operation it records only. -/
theorem DeliveryRecord.Transition.about
    (h : DeliveryRecord.Transition old r evidence) : ∀ e ∈ evidence, e.operation = r.operation := by
  cases h with
  | captured e _ about =>
    intro e' he'
    obtain rfl := List.mem_singleton.mp he'
    exact about
  | prepared | rebound | sent | voided => simp

/-- A record is proven if the one before it was, and nothing was logged without one. -/
theorem DeliveryRecord.Transition.proven (h : DeliveryRecord.Transition old r evidence)
    {logged : List (Id × EvidenceRecord)} (hold : ∀ r₀, old = some r₀ → r₀.Proven logged)
    (hnone : old = none → logged = []) :
    r.Proven (logged ++ evidence.map fun e => (e.evidenceId, e)) := by
  -- a record that is not captured has logged nothing yet
  have hunproven : ∀ r₀, old = some r₀ → r₀.state.Pending → logged = [] ∧ r₀.evidenceIds = [] := by
    intro r₀ hr₀ hpending
    rcases hold r₀ hr₀ with ⟨hstate, -⟩ | ⟨-, hlogged, hids⟩
    · rw [hstate] at hpending
      exact absurd hpending (by decide)
    · exact ⟨hlogged, hids⟩
  cases h with
  | prepared _ state unproven =>
    right
    simp [hnone rfl, state, unproven]
  | rebound unsent =>
    obtain ⟨hlogged, hids⟩ := hunproven _ rfl (.inl unsent)
    right
    simp [hlogged, hids, unsent]
  | sent unsent | voided unsent =>
    obtain ⟨hlogged, hids⟩ := hunproven _ rfl (.inl unsent)
    right
    simp [hlogged, hids]
  | captured e flying =>
    obtain ⟨hlogged, hids⟩ := hunproven _ rfl (.inr flying)
    left
    simp [hlogged, hids]

omit [Ideal] in
theorem Store.evidenceOf_congr (h : s'.events = s.events) (op : Id) :
    s'.evidenceOf op = s.evidenceOf op := by
  simp only [Store.evidenceOf, h]

/-- A commit that records a delivery logs its evidence with the operation. -/
theorem Recorded.evidenceOf_self (h : Recorded s s' old r evidence) :
    s'.evidenceOf r.operation =
      s.evidenceOf r.operation ++ evidence.map fun e => (e.evidenceId, e) := by
  simp only [Store.evidenceOf, h.events, List.filter_append]
  congr 1
  apply List.filter_eq_self.mpr
  intro e he
  obtain ⟨e', he', rfl⟩ := List.mem_map.mp he
  simpa using h.transition.about e' he'

theorem Recorded.evidenceOf_of_ne (h : Recorded s s' old r evidence) {op : Id}
    (hop : op ≠ r.operation) : s'.evidenceOf op = s.evidenceOf op := by
  simp only [Store.evidenceOf, h.events, List.filter_append]
  have hnone :
      (evidence.map fun e => (e.evidenceId, e)).filter (fun e => e.2.operation = op) = [] := by
    apply List.filter_eq_nil_iff.mpr
    intro e he
    obtain ⟨e', he', rfl⟩ := List.mem_map.mp he
    simpa [h.transition.about e' he'] using hop.symm
  rw [hnone, List.append_nil]

theorem Disk.Move.proven (move : d.Move d') (hreg : d.Regular) (hd : d.Proven) : d'.Proven := by
  rcases move.recorded hreg with hsame | ⟨old, r, evidence, hrecorded⟩
  · constructor
    · intro op r hr
      rw [Store.evidenceOf_congr hsame.events]
      exact hd.record op r ((hsame.delivery op).symm.trans hr)
    · intro op hop
      rw [Store.evidenceOf_congr hsame.events]
      exact hd.absent op ((hsame.delivery op).symm.trans hop)
  · constructor
    · intro op r' hr'
      by_cases hop : op = r.operation
      · subst hop
        obtain rfl := Option.some.inj (hrecorded.current.symm.trans hr')
        rw [hrecorded.evidenceOf_self]
        apply hrecorded.transition.proven
        · rintro r₀ rfl
          exact hd.record _ r₀ hrecorded.found
        · rintro rfl
          exact hd.absent _ hrecorded.found
      · rw [hrecorded.evidenceOf_of_ne hop]
        exact hd.record op r' ((hrecorded.others op hop).symm.trans hr')
    · intro op hop
      have hne : op ≠ r.operation := by
        rintro rfl
        rw [hrecorded.current] at hop
        cases hop
      rw [hrecorded.evidenceOf_of_ne hne]
      exact hd.absent op ((hrecorded.others op hne).symm.trans hop)

theorem Disk.Reachable.proven (hd : d.Reachable) : d.Proven := by
  refine hd.inductionOn (P := Disk.Proven) ?_ fun _ _ move hreach => move.proven hreach.regular
  constructor
  · intro op r hr
    simp [World.empty, Repository.doc] at hr
  · intro op _
    simp [World.empty, Store.evidenceOf, Repository.empty]

end Proven

/-! ## The history agrees with the records -/

/-- Every record is in the history under its number, and no number is above the journal. -/
structure Disk.Historic (d : Disk) : Prop where
  current : ∀ op r, d.store.doc (.delivery op) = some r →
    d.store.doc (.deliveryHistory r.journalSeq) = some r
  numbered : ∀ n r, d.store.doc (.deliveryHistory n) = some r → r.journalSeq = n ∧
    ∃ m, d.store.doc .hostMeta = some m ∧ n ≤ m.deliverySeq

/-- A commit makes `r` the record of its operation. -/
structure Disk.Delivers (d d' : Disk) (r : DeliveryRecord) : Prop where
  move : d.Move d'
  before : d.store.doc (.delivery r.operation) ≠ some r
  after : d'.store.doc (.delivery r.operation) = some r

section Historic

variable {d d' : Disk} {r r' : DeliveryRecord}

/-- A change of a record is the one delivery its commit records. -/
theorem Disk.Delivers.recorded (h : d.Delivers d' r) (hd : d.Regular) :
    ∃ old evidence, Recorded d.store d'.store old r evidence := by
  rcases h.move.recorded hd with hsame | ⟨old, new, evidence, hrecorded⟩
  · exact absurd ((hsame.delivery _).symm.trans h.after) h.before
  · by_cases hop : r.operation = new.operation
    · have hcurrent := hrecorded.current
      rw [← hop, h.after] at hcurrent
      obtain rfl := Option.some.inj hcurrent
      exact ⟨old, evidence, hrecorded⟩
    · exact absurd ((hrecorded.others _ hop).symm.trans h.after) h.before

/-- The number of a record that was written is not above the journal. -/
theorem Disk.Move.journal_of_recorded (move : d.Move d') {old : Option DeliveryRecord}
    {evidence : List EvidenceRecord} (h : Recorded d.store d'.store old r evidence) :
    ∃ m, d'.store.doc .hostMeta = some m ∧ r.journalSeq ≤ m.deliverySeq := by
  rcases move.operation with hsame | ⟨h₀, h₁, rfl, rfl, hstep⟩
  · -- the history would be the same as well
    have hhistory := Repository.doc_congr (hsame.get (.deliveryHistory r.journalSeq) rfl)
    rw [h.history, h.unused] at hhistory
    cases hhistory
  · obtain ⟨m, m', hm, hm', hcont⟩ := hstep.journals
    obtain ⟨m₀, hm₀, hnumber⟩ := h.journals
    obtain rfl := Option.some.inj (hm₀.symm.trans hm)
    rw [hnumber]
    exact ⟨m', hm', hcont.sequence⟩

theorem Disk.Move.historic (move : d.Move d') (hreg : d.Regular) (hd : d.Historic) :
    d'.Historic := by
  have hkeeps := move.keeps
  rcases move.recorded hreg with hsame | ⟨old, new, evidence, hrecorded⟩
  · constructor
    · intro op r hr
      rw [hsame.history]
      exact hd.current op r ((hsame.delivery op).symm.trans hr)
    · intro n r hr
      obtain ⟨hn, m, hm, hle⟩ := hd.numbered n r ((hsame.history n).symm.trans hr)
      obtain ⟨m', hm', hcont⟩ := move.journals hm
      exact ⟨hn, m', hm', hle.trans hcont.sequence⟩
  · constructor
    · intro op r hr
      by_cases hop : op = new.operation
      · subst hop
        obtain rfl := Option.some.inj (hrecorded.current.symm.trans hr)
        exact hrecorded.history
      · have hold := hd.current op r ((hrecorded.others op hop).symm.trans hr)
        exact hkeeps _ rfl _ hold
    · intro n r hr
      by_cases hn : n = new.journalSeq
      · subst hn
        obtain rfl := Option.some.inj (hrecorded.history.symm.trans hr)
        exact ⟨rfl, move.journal_of_recorded hrecorded⟩
      · obtain ⟨hn', m, hm, hle⟩ := hd.numbered n r ((hrecorded.past n hn).symm.trans hr)
        obtain ⟨m', hm', hcont⟩ := move.journals hm
        exact ⟨hn', m', hm', hle.trans hcont.sequence⟩

theorem Disk.Reachable.historic (hd : d.Reachable) : d.Historic := by
  refine hd.inductionOn (P := Disk.Historic) ?_ fun _ _ move hreach => move.historic hreach.regular
  constructor <;> intros <;> simp_all [World.empty, Repository.doc]

/-- A change gets a number above all numbers in the history. -/
theorem Disk.Delivers.lt (h : d.Delivers d' r) (hd : d.Reachable) {n : Counter}
    (hr' : d.store.doc (.deliveryHistory n) = some r') : n < r.journalSeq := by
  obtain ⟨old, evidence, hrecorded⟩ := h.recorded hd.regular
  obtain ⟨-, m, hm, hle⟩ := hd.historic.numbered n r' hr'
  obtain ⟨m', hm', hnumber⟩ := hrecorded.journals
  obtain rfl := Option.some.inj (hm.symm.trans hm')
  rw [hnumber]
  exact Nat.lt_succ_of_le hle

/-- What a commit wrote is in the history from then on. -/
theorem Disk.Delivers.written (h : d.Delivers d' r) (hd : d.Reachable) {e : Disk}
    (hm : d'.Moves e) : e.store.doc (.deliveryHistory r.journalSeq) = some r := by
  obtain ⟨old, evidence, hrecorded⟩ := h.recorded hd.regular
  exact hm.keeps _ rfl _ hrecorded.history

/-- Whatever is in the history was written by a commit that made it the current record. -/
theorem Disk.Reachable.delivered (hd : d.Reachable) {n : Counter}
    (hr : d.store.doc (.deliveryHistory n) = some r) :
    ∃ d₀ d₁ : Disk, d₀.Reachable ∧ d₀.Delivers d₁ r ∧ d₁.Moves d := by
  refine hd.inductionOn (P := fun d => ∀ n r, d.store.doc (.deliveryHistory n) = some r →
    ∃ d₀ d₁ : Disk, d₀.Reachable ∧ d₀.Delivers d₁ r ∧ d₁.Moves d) ?_ ?_ n r hr
  · intro n r hr
    simp [World.empty, Repository.doc] at hr
  · intro d d' move hreach ih n r hr
    have hold : d.store.doc (.deliveryHistory n) = some r →
        ∃ d₀ d₁ : Disk, d₀.Reachable ∧ d₀.Delivers d₁ r ∧ d₁.Moves d' := by
      intro hr
      obtain ⟨d₀, d₁, hd₀, hdelivers, hmoves⟩ := ih n r hr
      exact ⟨d₀, d₁, hd₀, hdelivers, hmoves.tail move⟩
    rcases move.recorded hreach.regular with hsame | ⟨old, new, evidence, hrecorded⟩
    · exact hold ((hsame.history n).symm.trans hr)
    · by_cases hn : n = new.journalSeq
      · subst hn
        obtain rfl := Option.some.inj (hrecorded.history.symm.trans hr)
        refine ⟨d, d', hreach, ⟨move, ?_, hrecorded.current⟩, .refl⟩
        -- a record that was current before would be in the history already
        intro hbefore
        have hlisted := hreach.historic.current _ _ hbefore
        rw [hrecorded.unused] at hlisted
        cases hlisted
      · exact hold ((hrecorded.past n hn).symm.trans hr)

end Historic

/-- Records, history and evidence agree, in a world and in the commits that led to it. -/
structure World.EvidenceOnce (w : World) : Prop where
  /-- A result is captured if and only if there is exactly one piece of evidence. -/
  captured : ∀ op r, w.store.doc (.delivery op) = some r →
    (r.state = .resultCaptured ↔ ∃ e, w.store.evidenceOf op = [e])
  /-- The record names exactly that evidence. -/
  named : ∀ op r e, w.store.doc (.delivery op) = some r → w.store.evidenceOf op = [e] →
    r.evidenceIds = [e.1] ∧ e.2.evidenceId = e.1
  /-- No other record has evidence. -/
  unproven : ∀ op r, w.store.doc (.delivery op) = some r → r.state ≠ .resultCaptured →
    w.store.evidenceOf op = []
  /-- No operation without a record has. -/
  absent : ∀ op, w.store.doc (.delivery op) = none → w.store.evidenceOf op = []
  /-- A captured result is never replaced, and its evidence stays the same. -/
  final : ∀ op r, w.store.doc (.delivery op) = some r → r.state = .resultCaptured → ∀ after,
    (w.steps after).store.doc (.delivery op) = some r ∧
      (w.steps after).store.evidenceOf op = w.store.evidenceOf op
  /-- A commit changes one record at most. -/
  single : ∀ (d d' : Disk) (r r' : DeliveryRecord), d.Reachable → d.Delivers d' r →
    d.Delivers d' r' → r = r'
  /-- The history holds each record as it was written, under its number. -/
  written : ∀ (d d' : Disk) (r : DeliveryRecord), d.Reachable → d.Delivers d' r →
    d'.Moves w.toDisk → w.store.doc (.deliveryHistory r.journalSeq) = some r
  /-- It holds nothing else. -/
  origin : ∀ n r, w.store.doc (.deliveryHistory n) = some r → r.journalSeq = n ∧
    ∃ d d' : Disk, d.Reachable ∧ d.Delivers d' r ∧ d'.Moves w.toDisk
  /-- Numbers grow from each change to every later one. -/
  increasing : ∀ (d d' d₁ d₁' : Disk) (r r₁ : DeliveryRecord), d.Reachable → d.Delivers d' r →
    d'.Moves d₁ → d₁.Delivers d₁' r₁ → r.journalSeq < r₁.journalSeq

/-- Evidence exactly once: in every state a run can leave behind, an operation has one piece of
evidence if its result was captured and none otherwise, and the history holds every record
as it was written, in the order of the commits. -/
theorem evidence_exactly_once (inputs : List Input) : (World.run inputs).EvidenceOnce := by
  have hw := World.run_reachable inputs
  have hproven := hw.proven
  constructor
  case captured =>
    intro op r hr
    rcases hproven.record op r hr with ⟨hstate, e, hevidence, -⟩ | ⟨hstate, hevidence, -⟩
    · exact ⟨fun _ => ⟨_, hevidence⟩, fun _ => hstate⟩
    · refine ⟨fun hcaptured => absurd hcaptured hstate, ?_⟩
      rintro ⟨e, he⟩
      rw [hevidence] at he
      cases he
  case named =>
    intro op r e hr he
    rcases hproven.record op r hr with ⟨-, e', hevidence, hids⟩ | ⟨-, hevidence, -⟩
    · obtain rfl := List.singleton_inj.mp (he.symm.trans hevidence)
      exact ⟨hids, rfl⟩
    · rw [hevidence] at he
      cases he
  case unproven =>
    intro op r hr hstate
    rcases hproven.record op r hr with ⟨hcaptured, -⟩ | ⟨-, hevidence, -⟩
    · exact absurd hcaptured hstate
    · exact hevidence
  case absent => exact hproven.absent
  case final =>
    intro op r hr hcaptured after
    have hmoves := World.steps_moves hw.regular after
    obtain ⟨r', hr', hevolves⟩ := hmoves.evolves hw.regular hr
    have hsame : r' = r := by
      apply hevolves.final
      rw [hcaptured]
      decide
    subst hsame
    refine ⟨hr', ?_⟩
    -- one piece before, one after, and the journal only grows
    rcases hproven.record op r' hr with ⟨-, e, hevidence, -⟩ | ⟨hstate, -⟩
    · rcases (hw.moves hmoves).proven.record op r' hr' with ⟨-, e', hevidence', -⟩ | ⟨hstate, -⟩
      · obtain ⟨l, hl⟩ := hmoves.events
        have hgrown : (World.run inputs).store.evidenceOf op <+:
            ((World.run inputs).steps after).store.evidenceOf op := by
          simp only [Store.evidenceOf, ← hl, List.filter_append]
          exact List.prefix_append _ _
        exact (hgrown.eq_of_length (by rw [hevidence, hevidence']; rfl)).symm
      · exact absurd hcaptured hstate
    · exact absurd hcaptured hstate
  case single =>
    intro d d' r r' hd h h'
    obtain ⟨_, _, hrecorded⟩ := h.recorded hd.regular
    obtain ⟨_, _, hrecorded'⟩ := h'.recorded hd.regular
    -- both took the next number of the same journal
    obtain ⟨m, hm, hn⟩ := hrecorded.journals
    obtain ⟨m', hm', hn'⟩ := hrecorded'.journals
    obtain rfl := Option.some.inj (hm.symm.trans hm')
    have hhistory := hrecorded'.history
    rw [hn', ← hn, hrecorded.history] at hhistory
    exact Option.some.inj hhistory
  case written =>
    intro d d' r hd h hm
    exact h.written hd hm
  case origin =>
    intro n r hr
    exact ⟨(hw.historic.numbered n r hr).1, hw.delivered hr⟩
  case increasing =>
    intro d d' d₁ d₁' r r₁ hd h hm h₁
    have hd₁ : d₁.Reachable := (hd.moves (.single h.move)).moves hm
    exact h₁.lt hd₁ (h.written hd hm)

end RxSolutions.Host
