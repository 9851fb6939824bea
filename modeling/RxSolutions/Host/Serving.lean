import RxSolutions.Host.Gate

/-!
# Runs in which nothing goes wrong

To run a call on a given machine it is enough to know one answer that the environment keeps
giving. The rules here follow the effects of a call under such an answer, one by one, and say
which machine comes out.
-/

namespace RxSolutions.Host

open Domain Durable

/-- An answer that keeps the process and the store going. -/
structure Answer.Helps (a : Answer) : Prop where
  crash : a.crash = false
  stop : a.stop = false
  fault : a.fault = none

/-! ## Transactions that commit -/

namespace Tx

open Program

variable {s : Store} {err : StoreError → Store → Prop}

theorem wp_put {k : Key} {ok : Unit → Store → Prop} {expected : Option Counter} {v : k.Doc}
    (hrevision : (s.get k).map Row.revision = expected) (hok : ok () (s.write k v)) :
    wp (put k expected v) ok err s := by
  simp only [put, Repository.put, wp_bind, Program.wp_get, wp_ensure]
  exact ⟨fun _ => hok, fun hn => absurd hrevision hn⟩

theorem wp_append {ok : Counter → Store → Prop} {e : EvidenceRecord}
    (hnew : ∀ x ∈ s.events, x.1 ≠ e.evidenceId)
    (hok : ok (s.events.length + 1) (s.push e.evidenceId e)) : wp (append e) ok err s := by
  have hnone : s.events.findIdx? (fun x => x.1 = e.evidenceId) = none := by
    simpa [List.findIdx?_eq_none_iff] using hnew
  simp only [append, Repository.append, wp_bind, Program.wp_get, hnone]
  exact hok

theorem wp_nextSequence {ok : Counter × Id → Store → Prop} {m : HostMeta}
    (hm : s.doc .hostMeta = some m) (hbound : m.deliverySeq + 1 < counterBound)
    (hok : ok (m.deliverySeq + 1, m.deliveryJournal) (s.numbered m)) :
    wp nextSequence ok err s := by
  obtain ⟨n, hrow⟩ := Repository.doc_eq_some.mp hm
  have hincrement : increment m.deliverySeq = some (m.deliverySeq + 1) := if_pos hbound
  rw [nextSequence, wp_bind, wp_fetch hrow, hincrement]
  simp only [wp_bind, orThrow, wp_pure]
  exact wp_put (by rw [hrow]; rfl) hok

/-- A delivery record is written if the journals are there and its place is free. -/
theorem wp_recordDelivery {ok : DeliveryRecord → Store → Prop} {r : DeliveryRecord}
    {expected : Option Counter} {m : HostMeta} (hm : s.doc .hostMeta = some m)
    (hbound : m.deliverySeq + 1 < counterBound)
    (hrevision : (s.get (.delivery r.operation)).map Row.revision = expected)
    (hunused : s.doc (.deliveryHistory (m.deliverySeq + 1)) = none)
    (hok : ok (r.numbered m) (s.delivered m r)) : wp (recordDelivery r expected) ok err s := by
  rw [recordDelivery, wp_bind]
  apply wp_nextSequence hm hbound
  rw [wp_bind]
  apply wp_put
  · rw [Store.numbered, Repository.get_write_of_ne (by simp)]
    exact hrevision
  rw [wp_bind]
  apply wp_put
  · rw [Repository.get_write_of_ne (by simp), Store.numbered, Repository.get_write_of_ne (by simp),
      Repository.doc_eq_none.mp hunused]
    rfl
  exact hok

end Tx

/-! ## Effects -/

namespace Gate

variable {α β : Type} {a : Answer} {h : Machine} {ok : α → Machine → Prop}

/-- With the answer `a` to every effect, `m` returns from the machine `h`, into `ok`. -/
def Serves (a : Answer) (m : Gate α) (ok : α → Machine → Prop) (h : Machine) : Prop :=
  ∀ s, s.machine = h → s.accepting = true → s.answers = (fun _ => a) →
    Program.wp m (fun v t => ok v t.machine ∧ t.accepting = true ∧ t.answers = fun _ => a)
      (fun _ _ => False) s

namespace Serves

theorem pure {v : α} (hok : ok v h) : Serves a (Pure.pure v) ok h := by
  intro s hs haccepting hanswers
  exact ⟨hs ▸ hok, haccepting, hanswers⟩

theorem bind {m : Gate β} {f : β → Gate α} {mid : β → Machine → Prop} (hm : Serves a m mid h)
    (hf : ∀ b t, mid b t → Serves a (f b) ok t) : Serves a (m >>= f) ok h := by
  intro s hs haccepting hanswers
  rw [Program.wp_bind]
  exact Program.wp_mono (hm s hs haccepting hanswers)
    (fun b t hb => hf b _ hb.1 t rfl hb.2.1 hb.2.2) fun _ _ => id

/-- What follows a value that is read. -/
theorem seq {m : Gate β} {f : β → Gate α} {v : β} (hm : Serves a m (fun b t => b = v ∧ t = h) h)
    (hf : Serves a (f v) ok h) : Serves a (m >>= f) ok h := by
  apply bind hm
  rintro _ _ ⟨rfl, rfl⟩
  exact hf

/-- What follows a check. -/
theorem check {m : Gate Unit} {f : Unit → Gate α} (hm : Serves a m (fun _ t => t = h) h)
    (hf : Serves a (f ()) ok h) : Serves a (m >>= f) ok h := by
  apply bind hm
  rintro _ _ rfl
  exact hf

theorem core : Serves a Host.core (fun c t => c = h.core ∧ t = h) h := by
  intro s hs haccepting hanswers
  exact ⟨⟨by rw [hs], hs⟩, haccepting, hanswers⟩

theorem setCore {c : Core} : Serves a (Host.setCore c) (fun _ t => t = { h with core := c }) h := by
  intro s hs haccepting hanswers
  exact ⟨by rw [← hs], haccepting, hanswers⟩

theorem require {p : Prop} [Decidable p] {e : HostError} (hp : p) :
    Serves a (Host.require p e) (fun _ t => t = h) h := by
  intro s hs haccepting hanswers
  exact Program.wp_ensure.mpr ⟨fun _ => ⟨hs, haccepting, hanswers⟩, fun hn => hn hp⟩

theorem replied {r : Except HostError α} {v : α} (hr : r = .ok v) :
    Serves a (Host.replied r) (fun b t => b = v ∧ t = h) h := by
  subst hr
  exact pure ⟨rfl, rfl⟩

theorem drawId [Ideal] : Serves a Host.drawId
    (fun id t => id = Ideal.freshId h.drawn ∧ t = { h with drawn := h.drawn + 1 }) h := by
  intro s hs haccepting hanswers
  subst hs
  exact ⟨⟨rfl, rfl⟩, haccepting, hanswers⟩

variable (ha : a.Helps)

include ha

theorem answer : Serves a Host.answer (fun b t => b = a ∧ t = h) h := by
  intro s hs haccepting hanswers
  simp only [Host.answer, Program.wp_bind, Program.wp_get, Program.wp_set, Program.wp_ensure,
    Program.wp_pure, hanswers, haccepting, ha.stop, ha.crash]
  simp [hs]

theorem transactWith {f : StoreError → HostError} {t : Tx α}
    (ht : Program.wp t (fun v store => ok v { h with store := store }) (fun _ _ => False)
      h.store) : Serves a (Host.transactWith f t) ok h := by
  refine bind (answer ha) ?_
  rintro _ _ ⟨rfl, rfl⟩
  intro s hs haccepting hanswers
  subst hs
  rw [ha.fault]
  simp only [Program.wp_bind, Program.wp_get]
  rcases htx : t s.machine.store with ⟨r, store⟩
  simp only [Program.wp, htx] at ht
  cases r with
  | ok v => exact ⟨ht, haccepting, hanswers⟩
  | error e => exact ht.elim

theorem transact {t : Tx α}
    (ht : Program.wp t (fun v store => ok v { h with store := store }) (fun _ _ => False)
      h.store) : Serves a (Host.transact t) ok h :=
  transactWith ha ht

theorem row (k : Key) :
    Serves a (Host.transact (Tx.get k)) (fun v t => v = h.store.get k ∧ t = h) h := by
  apply transact ha
  exact ⟨rfl, rfl⟩

theorem requireAdmission : Serves a Host.requireAdmission (fun _ t => t = h) h := by
  refine bind (answer ha) ?_
  rintro _ _ ⟨-, rfl⟩
  intro s hs haccepting hanswers
  simp only [Program.wp_bind, Program.wp_get, Host.require, Program.wp_ensure]
  exact ⟨fun _ => ⟨hs, haccepting, hanswers⟩, fun hn => hn haccepting⟩

theorem clockNow : Serves a Host.clockNow (fun now t => now = a.now ∧ t = h) h := by
  refine bind (answer ha) ?_
  rintro _ _ ⟨rfl, rfl⟩
  exact pure ⟨rfl, rfl⟩

theorem nativeGuard {intent : Intent} {now : TimePoint} {guard : Guard}
    (hguard : a.guard = .ok guard) :
    Serves a (Host.nativeGuard intent now) (fun g t => g = guard ∧ t = h) h := by
  refine bind (answer ha) ?_
  rintro _ _ ⟨rfl, rfl⟩
  exact replied hguard

theorem submitWithContext {entry : Core → Store → NativeEntry} {capture : NativeCapture}
    (hcapture : a.capture = .ok capture) : Serves a (Host.submitWithContext entry)
      (fun c t => c = capture ∧ t = h.enter entry) h := by
  apply bind (answer ha)
  rintro _ t ⟨-, ht⟩
  rw [ht]
  have henter : Serves a (modify fun s => { s with machine := s.machine.enter entry })
      (fun _ t => t = h.enter entry) h := by
    intro s hs haccepting hanswers
    exact ⟨by rw [← hs], haccepting, hanswers⟩
  apply bind henter
  rintro _ t rfl
  apply bind (answer ha)
  rintro _ t ⟨rfl, ht⟩
  rw [ht]
  exact replied hcapture

end Serves

end Gate

end RxSolutions.Host
