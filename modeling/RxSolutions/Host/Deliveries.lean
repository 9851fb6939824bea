import RxSolutions.Host.Records

/-!
# How delivery records change

A commit about an operation writes one delivery record, in its place and in the
history, under the next number of the delivery journal, and logs evidence only
together with the record that names it. What becomes of a record is said once, by
`DeliveryRecord.Transition`, and the facts about single operations follow from it.
-/

namespace RxSolutions.Host

open Domain Durable Relation

variable [Ideal]

/-- What a commit can make of the record of an operation, and the evidence it logs. -/
inductive DeliveryRecord.Transition :
    Option DeliveryRecord → DeliveryRecord → List EvidenceRecord → Prop
  | prepared {r : DeliveryRecord} (digest : r.intent.digest Ideal.intentDigest = .ok r.digest)
      (state : r.state = .prepared) (unproven : r.evidenceIds = []) : Transition none r []
  | rebound {old : DeliveryRecord} {permit : Permit} {boot session : Id} {until_ : TimePoint}
      {m : HostMeta} (unsent : old.state = .prepared) :
      Transition (some old) ((old.rebound permit boot until_ session).numbered m) []
  | sent {old : DeliveryRecord} {m : HostMeta} (unsent : old.state = .prepared) :
      Transition (some old) (old.sent.numbered m) []
  | captured {old : DeliveryRecord} {m : HostMeta} (evidence : EvidenceRecord)
      (flying : old.state.InFlight) (about : evidence.operation = old.operation) :
      Transition (some old) ((old.captured evidence.evidenceId).numbered m) [evidence]
  | voided {old : DeliveryRecord} {m : HostMeta} (unsent : old.state = .prepared) :
      Transition (some old) (old.voided.numbered m) []

/-- Deliveries, their history and the journal of events are the same. -/
structure SameDeliveries (s s' : Store) : Prop where
  delivery : ∀ op, s'.doc (.delivery op) = s.doc (.delivery op)
  history : ∀ n, s'.doc (.deliveryHistory n) = s.doc (.deliveryHistory n)
  events : s'.events = s.events

/-- The store has come to hold the record `r` of an operation in place of `old`. -/
structure Recorded (s s' : Store) (old : Option DeliveryRecord) (r : DeliveryRecord)
    (evidence : List EvidenceRecord) : Prop where
  transition : DeliveryRecord.Transition old r evidence
  found : s.doc (.delivery r.operation) = old
  current : s'.doc (.delivery r.operation) = some r
  others : ∀ op, op ≠ r.operation → s'.doc (.delivery op) = s.doc (.delivery op)
  journals : ∃ m, s.doc .hostMeta = some m ∧ r.journalSeq = m.deliverySeq + 1
  unused : s.doc (.deliveryHistory r.journalSeq) = none
  history : s'.doc (.deliveryHistory r.journalSeq) = some r
  past : ∀ n, n ≠ r.journalSeq → s'.doc (.deliveryHistory n) = s.doc (.deliveryHistory n)
  events : s'.events = s.events ++ evidence.map fun e => (e.evidenceId, e)

section Recorded

variable {s s' t : Store} {old : Option DeliveryRecord} {r : DeliveryRecord} {m : HostMeta}
  {evidence : List EvidenceRecord}

/-- Whatever else a commit writes before it delivers a record. -/
theorem Recorded.of_delivered (htransition : DeliveryRecord.Transition old (r.numbered m) evidence)
    (hsame : ∀ k : Key, k.delivers = true → t.doc k = s.doc k)
    (hevents : t.events = s.events ++ evidence.map fun e => (e.evidenceId, e))
    (hfound : s.doc (.delivery r.operation) = old) (hm : s.doc .hostMeta = some m)
    (hunused : s.doc (.deliveryHistory (m.deliverySeq + 1)) = none) :
    Recorded s (t.delivered m r) old (r.numbered m) evidence where
  transition := htransition
  found := hfound
  current := Store.doc_delivered_delivery
  others op hop := by
    rw [Store.doc_delivered_delivery_of_ne (r := r) hop, hsame _ rfl]
  journals := ⟨m, hm, rfl⟩
  unused := hunused
  history := Store.doc_delivered_history
  past n hn := by
    rw [Store.doc_delivered_of_ne (by simp) (by simp) (by simpa using hn), hsame _ rfl]
  events := hevents

/-- What a commit writes after the record does not matter either. -/
theorem Recorded.trans (h : Recorded s t old r evidence) (h' : SameDeliveries t s') :
    Recorded s s' old r evidence :=
  { h with
    current := (h'.delivery _).trans h.current
    others := fun op hop => (h'.delivery op).trans (h.others op hop)
    history := (h'.history _).trans h.history
    past := fun n hn => (h'.history n).trans (h.past n hn)
    events := h'.events.trans h.events }

omit [Ideal] in
theorem SameDeliveries.numbered_write {k : Key} (hk : k.delivers = false) (v : k.Doc) :
    SameDeliveries s ((s.numbered m).write k v) := by
  have hdoc : ∀ l : Key, l.delivers = true → l ≠ .hostMeta →
      Repository.doc ((s.numbered m).write k v) l = s.doc l := by
    intro l hl hmeta
    rw [Repository.doc_write_of_ne, Store.doc_numbered_of_ne hmeta]
    rintro rfl
    rw [hk] at hl
    cases hl
  exact ⟨fun op => hdoc _ rfl (by simp), fun n => hdoc _ rfl (by simp), rfl⟩

variable {c : Call} {h h' : Machine} {d d' : Disk}

/-- A step about operations records one delivery, or bars an operation that has none. -/
theorem OperationStep.recorded (step : OperationStep h h') (hreg : h.Regular) :
    SameDeliveries h.store h'.store ∨
      ∃ old r evidence, Recorded h.store h'.store old r evidence := by
  have hwrite : ∀ {k : Key} (v : k.Doc), k.delivers = false →
      ∀ l : Key, l.delivers = true → Repository.doc (h.store.write k v) l = h.store.doc l := by
    intro k v hk l hl
    refine Repository.doc_write_of_ne ?_ v
    rintro rfl
    rw [hk] at hl
    cases hl
  cases step with
  | prepared step => cases step with
    | fresh identified _ _ absent journals unused =>
      exact .inr ⟨_, _, _, .of_delivered (.prepared identified.digest rfl rfl) (fun _ _ => rfl)
        (by simp) absent journals unused⟩
    | rebind _ _ _ found _ unsent _ _ journals unused =>
      refine .inr ⟨_, _, _, .of_delivered (.rebound unsent) (hwrite _ rfl) (by simp) ?_ journals
        unused⟩
      rw [DeliveryRecord.rebound_operation, hreg.filed _ _ found, found]
  | sent step | entered step => cases step with
    | mk ready =>
      refine .inr ⟨_, _, _, .of_delivered (.sent ready.unsent) (hwrite _ rfl) (by simp) ?_
        ready.journals ready.unused⟩
      rw [DeliveryRecord.sent_operation, ready.operation, ready.found]
  | captured step => cases step with
    | mk found flying journals unused =>
      exact .inr ⟨_, _, _, .of_delivered (.captured (DeliveryRecord.evidence ..) flying rfl)
        (fun _ _ => rfl) rfl found journals unused⟩
  | voided step => cases step with
    | unknown => exact .inl (.numbered_write rfl _)
    | prepared _ found _ unsent journals unused =>
      refine .inr ⟨_, _, _, (Recorded.of_delivered (.voided unsent) (fun _ _ => rfl) (by simp) ?_
        journals unused).trans (.numbered_write rfl _)⟩
      rw [DeliveryRecord.voided_operation, hreg.filed _ _ found, found]

/-- A commit leaves the deliveries alone, or records one. -/
theorem Disk.Move.recorded (move : d.Move d') (hd : d.Regular) :
    SameDeliveries d.store d'.store ∨
      ∃ old r evidence, Recorded d.store d'.store old r evidence := by
  rcases move.operation with hsame | ⟨h, h', rfl, rfl, hstep⟩
  · exact .inl ⟨fun op => Repository.doc_congr (hsame.get _ rfl),
      fun n => Repository.doc_congr (hsame.get _ rfl), hsame.events⟩
  · exact hstep.recorded hd

end Recorded

/-! ## What a record keeps -/

/-- A later record of the same operation. A record that is neither prepared nor under way is
final. -/
structure DeliveryRecord.Evolves (r r' : DeliveryRecord) : Prop where
  operation : r'.operation = r.operation
  digest : r'.digest = r.digest
  intent : r'.intent = r.intent
  begun : r.state ≠ .prepared → r'.state ≠ .prepared
  final : ¬ r.state.Pending → r' = r

namespace DeliveryRecord

variable {r r' r'' : DeliveryRecord} {evidence : List EvidenceRecord}

omit [Ideal] in
theorem Evolves.refl (r : DeliveryRecord) : r.Evolves r := ⟨rfl, rfl, rfl, id, fun _ => rfl⟩

omit [Ideal] in
theorem Evolves.trans (h : r.Evolves r') (h' : r'.Evolves r'') : r.Evolves r'' where
  operation := h'.operation.trans h.operation
  digest := h'.digest.trans h.digest
  intent := h'.intent.trans h.intent
  begun hr := h'.begun (h.begun hr)
  final hr := by
    obtain rfl := h.final hr
    exact h'.final hr

theorem Transition.evolves (h : Transition (some r) r' evidence) : r.Evolves r' := by
  cases h with
  | rebound unsent | voided unsent | sent unsent =>
    exact ⟨rfl, rfl, rfl, fun hr => absurd unsent hr, fun hr => absurd (.inl unsent) hr⟩
  | captured _ flying =>
    exact ⟨rfl, rfl, rfl, fun _ => by simp, fun hr => absurd (.inr flying) hr⟩

end DeliveryRecord

section Deliveries

variable {d d' : Disk} {op : Id} {r r' : DeliveryRecord}

theorem Disk.Move.evolves (move : d.Move d') (hd : d.Regular)
    (hr : d.store.doc (.delivery op) = some r) :
    ∃ r', d'.store.doc (.delivery op) = some r' ∧ r.Evolves r' := by
  rcases move.recorded hd with hsame | ⟨old, new, evidence, hrecorded⟩
  · exact ⟨r, (hsame.delivery op).trans hr, .refl r⟩
  · by_cases hop : op = new.operation
    · subst hop
      obtain rfl := hrecorded.found.symm.trans hr
      exact ⟨new, hrecorded.current, hrecorded.transition.evolves⟩
    · exact ⟨r, (hrecorded.others op hop).trans hr, .refl r⟩

/-- A record stays, with its intent, and is final once it is settled. -/
theorem Disk.Moves.evolves (hm : d.Moves d') (hd : d.Regular)
    (hr : d.store.doc (.delivery op) = some r) :
    ∃ r', d'.store.doc (.delivery op) = some r' ∧ r.Evolves r' := by
  induction hm with
  | refl => exact ⟨r, hr, .refl r⟩
  | tail hmoves hlast ih =>
    obtain ⟨r₁, hr₁, hevolves⟩ := ih
    obtain ⟨r₂, hr₂, hevolves'⟩ := hlast.evolves (Disk.Moves.regular hmoves hd) hr₁
    exact ⟨r₂, hr₂, hevolves.trans hevolves'⟩

/-- A record carries the digest of its intent. -/
theorem Disk.Reachable.digested (hd : d.Reachable) (hr : d.store.doc (.delivery op) = some r) :
    r.intent.digest Ideal.intentDigest = .ok r.digest := by
  refine hd.inductionOn (P := fun d => ∀ op r, d.store.doc (.delivery op) = some r →
    r.intent.digest Ideal.intentDigest = .ok r.digest) ?_ ?_ op r hr
  · intro op r hr
    simp [World.empty, Repository.doc] at hr
  · intro d d' hmove hreach ih op r' hr'
    rcases hmove.recorded hreach.regular with hsame | ⟨old, new, evidence, hrecorded⟩
    · exact ih op r' ((hsame.delivery op).symm.trans hr')
    · by_cases hop : op = new.operation
      · subst hop
        obtain rfl := Option.some.inj (hrecorded.current.symm.trans hr')
        cases old with
        | none =>
          cases hrecorded.transition with
          | prepared digest => exact digest
        | some r =>
          have hevolves := hrecorded.transition.evolves
          rw [hevolves.intent, hevolves.digest]
          exact ih _ r hrecorded.found
      · exact ih op r' ((hrecorded.others op hop).symm.trans hr')

end Deliveries

end RxSolutions.Host
