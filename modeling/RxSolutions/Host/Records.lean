import RxSolutions.Host.World

/-!
# What every run keeps

Receipts, tombstones, consumed permits and the history of deliveries are written once:
no commit of any run replaces them. The journals of a store keep their identity, and
the number of the delivery journal only grows.
-/

namespace RxSolutions.Host

open Domain Durable Relation
open Repository (doc_write_of_ne)

variable [Ideal] {c : Call} {h h' : Machine} {d d' : Disk}

/-! ## Records that are written once -/

theorem OperationStep.keeps (step : OperationStep h h') :
    Repository.Keeps (fun k => k.once = true) h.store h'.store := by
  cases step with
  | prepared step => cases step with
    | fresh _ _ _ _ _ unused => exact Store.keeps_delivered unused
    | rebind _ _ _ _ _ _ _ unretired _ unused =>
      refine (Repository.Keeps.write_new unretired _).trans (Store.keeps_delivered ?_)
      rw [doc_write_of_ne (by simp), unused]
  | sent step | entered step => cases step with
    | mk ready =>
      refine (Repository.Keeps.write_new ready.unconsumed _).trans (Store.keeps_delivered ?_)
      rw [doc_write_of_ne (by simp), ready.unused]
  | captured step => cases step with
    | mk _ _ _ unused => exact Store.keeps_delivered unused
  | voided step => cases step with
    | unknown unvoided =>
      refine (Repository.Keeps.write_of_not (by simp [Key.once]) _).trans (.write_new ?_ _)
      rw [doc_write_of_ne (by simp), unvoided]
    | prepared unvoided _ _ _ _ unused =>
      refine ((Store.keeps_delivered unused).trans
        (.write_of_not (by simp [Key.once]) _)).trans (.write_new ?_ _)
      rw [doc_write_of_ne (by simp),
        Store.doc_delivered_of_ne (by simp) (by simp) (by simp), unvoided]

theorem Step.keeps (step : Step c h h') :
    Repository.Keeps (fun k => k.once = true) h.store h'.store := by
  cases step with
  | prepared step => exact OperationStep.keeps (.prepared step)
  | sent step => exact OperationStep.keeps (.sent step)
  | entered step => exact OperationStep.keeps (.entered step)
  | finished step | captured step => exact OperationStep.keeps (.captured step)
  | voided step => exact OperationStep.keeps (.voided step)
  | drew | disarmed => exact .refl _ _
  | bound step => cases step; exact .refl _ _
  | claimed step => cases step with
    | mk frame =>
      refine .of_frame frame fun k hk hb => ?_
      rw [Key.once_eq_false (Key.bookkeeping_of_booked hb)] at hk
      cases hk
  | booted step => cases step; exact .write_of_not (by simp [Key.once]) _
  | fenced step => cases step with
    | mk _ _ unrecorded =>
      refine ((Repository.Keeps.write_of_not (by simp [Key.once]) _).trans
        (.write_of_not (by simp [Key.once]) _)).trans (.write_new ?_ _)
      rw [doc_write_of_ne (by simp), doc_write_of_ne (by simp), unrecorded]
  | armed step => cases step with
    | mk _ _ unrecorded =>
      refine ((Repository.Keeps.write_of_not (by simp [Key.once]) _).trans
        (.write_of_not (by simp [Key.once]) _)).trans (.write_new ?_ _)
      rw [doc_write_of_ne (by simp), doc_write_of_ne (by simp), unrecorded]
  | granted step => cases step with
    | mk granted =>
      refine .of_frame granted.frame ?_
      rintro k hk (⟨x, -, rfl⟩ | rfl | rfl) v hv
      · cases hk
      · cases hk
      · rw [granted.unrecorded] at hv
        cases hv
  | renewed step => cases step; exact .write_of_not (by simp [Key.once]) _
  | acknowledged step => cases step; exact .write_of_not (by simp [Key.once]) _
  | configured step => cases step with
    | mk configured =>
      refine .of_frame configured.frame ?_
      rintro k hk (rfl | ⟨-, t, -, rfl⟩ | hb | rfl | rfl | rfl) v hv
      · cases hk
      · cases hk
      · rw [Key.once_eq_false (Key.bookkeeping_of_booked hb)] at hk
        cases hk
      · rw [configured.unrecorded] at hv
        cases hv
      · rw [configured.unsettled] at hv
        cases hv
      · rw [configured.unused] at hv
        cases hv
  | qualified step => cases step with
    | mk _ qualifies =>
      refine .of_frame qualifies.frame ?_
      rintro k hk (rfl | ⟨haccepted, t, ht, rfl | rfl | rfl⟩ | rfl | rfl | rfl) v hv
      · cases hk
      · cases hk
      · cases hk
      · obtain ⟨accept, -, hall⟩ := qualifies.accepted haccepted
        rw [(hall t ht).identity', (hall t ht).identity v hv]
      · rw [qualifies.unrecorded] at hv
        cases hv
      · rw [qualifies.unsettled] at hv
        cases hv
      · rw [qualifies.unused] at hv
        cases hv

theorem Disk.Move.keeps (move : d.Move d') :
    Repository.Keeps (fun k => k.once = true) d.store d'.store := by
  cases move with
  | drew => exact .refl _ _
  | booked frame =>
    refine .of_frame frame fun k hk hb => ?_
    rw [Key.once_eq_false hb] at hk
    cases hk
  | opened step => cases step with
    | mk opened => exact fun k _ => opened.keeps k trivial
  | stepped step => exact step.keeps

/-- A record that is written once stays as it is. -/
theorem Disk.Moves.keeps (hm : d.Moves d') :
    Repository.Keeps (fun k => k.once = true) d.store d'.store := by
  induction hm with
  | refl => exact .refl _ _
  | tail _ hlast ih => exact ih.trans hlast.keeps

/-! ## Journals -/

/-- The same journals, at the same number or a later one. -/
structure HostMeta.Continues (m m' : HostMeta) : Prop where
  deliveryJournal : m'.deliveryJournal = m.deliveryJournal
  evidenceJournal : m'.evidenceJournal = m.evidenceJournal
  sequence : m.deliverySeq ≤ m'.deliverySeq

omit [Ideal] in
theorem HostMeta.Continues.refl (m : HostMeta) : m.Continues m := ⟨rfl, rfl, le_rfl⟩

omit [Ideal] in
theorem HostMeta.Continues.next (m : HostMeta) : m.Continues m.next := ⟨rfl, rfl, Nat.le_succ _⟩

omit [Ideal] in
theorem HostMeta.Continues.trans {m m' m'' : HostMeta} (h : m.Continues m')
    (h' : m'.Continues m'') : m.Continues m'' :=
  ⟨h'.1.trans h.1, h'.2.trans h.2, h.3.trans h'.3⟩

/-- A step about operations takes the next number of the journal, or two. -/
theorem OperationStep.journals (step : OperationStep h h') :
    ∃ m m', h.store.doc .hostMeta = some m ∧ h'.store.doc .hostMeta = some m' ∧
      m.next.Continues m' := by
  cases step with
  | prepared step => cases step with
    | fresh _ _ _ _ journals => exact ⟨_, _, journals, Store.doc_delivered_hostMeta, .refl _⟩
    | rebind _ _ _ _ _ _ _ _ journals =>
      exact ⟨_, _, journals, Store.doc_delivered_hostMeta, .refl _⟩
  | sent step | entered step => cases step with
    | mk ready => exact ⟨_, _, ready.journals, Store.doc_delivered_hostMeta, .refl _⟩
  | captured step => cases step with
    | mk _ _ journals => exact ⟨_, _, journals, Store.doc_delivered_hostMeta, .refl _⟩
  | voided step => cases step with
    | unknown _ _ journals =>
      refine ⟨_, _, journals, ?_, .refl _⟩
      rw [doc_write_of_ne (by simp), Store.doc_numbered_hostMeta]
    | prepared _ _ _ _ journals =>
      refine ⟨_, _, journals, ?_, .next _⟩
      rw [doc_write_of_ne (by simp), Store.doc_numbered_hostMeta]

variable {m : HostMeta}

theorem Step.journals (step : Step c h h') (hm : h.store.doc .hostMeta = some m) :
    ∃ m', h'.store.doc .hostMeta = some m' ∧ m.Continues m' := by
  have hoperation :
      OperationStep h h' → ∃ m', h'.store.doc .hostMeta = some m' ∧ m.Continues m' := by
    intro hs
    obtain ⟨m₁, m', hm₁, hm', hcont⟩ := hs.journals
    obtain rfl := Option.some.inj (hm.symm.trans hm₁)
    exact ⟨m', hm', (HostMeta.Continues.next m).trans hcont⟩
  have hsame : ¬ c.Writes .hostMeta → ∃ m', h'.store.doc .hostMeta = some m' ∧ m.Continues m' :=
    fun hw => ⟨m, (Repository.doc_congr (step.get_eq hw)).trans hm, .refl m⟩
  cases step with
  | prepared step => exact hoperation (.prepared step)
  | sent step => exact hoperation (.sent step)
  | entered step => exact hoperation (.entered step)
  | finished step | captured step => exact hoperation (.captured step)
  | voided step => exact hoperation (.voided step)
  | drew => exact ⟨m, hm, .refl m⟩
  | fenced step => cases step with
    | mk _ _ _ _ _ _ journals =>
      obtain rfl := Option.some.inj (hm.symm.trans journals)
      refine ⟨_, ?_, .next m⟩
      rw [doc_write_of_ne (by simp), Store.doc_numbered_hostMeta]
  | armed step => cases step with
    | mk _ _ _ _ _ _ _ journals =>
      obtain rfl := Option.some.inj (hm.symm.trans journals)
      refine ⟨_, ?_, .next m⟩
      rw [doc_write_of_ne (by simp), Store.doc_numbered_hostMeta]
  | configured step => cases step with
    | mk configured =>
      obtain rfl := Option.some.inj (hm.symm.trans configured.journals)
      exact ⟨_, configured.next, .next m⟩
  | qualified step => cases step with
    | mk _ qualifies =>
      obtain rfl := Option.some.inj (hm.symm.trans qualifies.journals)
      exact ⟨_, qualifies.next, .next m⟩
  | bound | disarmed | granted | renewed | acknowledged | claimed | booted =>
    exact hsame (by simp [Call.Writes, Key.booked])

theorem Disk.Move.journals (move : d.Move d') (hm : d.store.doc .hostMeta = some m) :
    ∃ m', d'.store.doc .hostMeta = some m' ∧ m.Continues m' := by
  cases move with
  | drew => exact ⟨m, hm, .refl m⟩
  | booked frame => exact ⟨m, (frame.doc (by simp [Key.bookkeeping])).trans hm, .refl m⟩
  | opened step => cases step with
    | mk opened => exact ⟨m, opened.keeps _ trivial _ hm, .refl m⟩
  | stepped step => exact step.journals hm

/-- The journals of a store stay, and their number does not fall. -/
theorem Disk.Moves.journals (hmoves : d.Moves d') (hm : d.store.doc .hostMeta = some m) :
    ∃ m', d'.store.doc .hostMeta = some m' ∧ m.Continues m' := by
  induction hmoves with
  | refl => exact ⟨m, hm, .refl m⟩
  | tail _ hlast ih =>
    obtain ⟨m₁, hm₁, hcont⟩ := ih
    obtain ⟨m₂, hm₂, hcont'⟩ := hlast.journals hm₁
    exact ⟨m₂, hm₂, hcont.trans hcont'⟩

/-- A running process has opened its journals. -/
theorem World.run_journals (inputs : List Input) {p : Process}
    (hp : (World.run inputs).process = some p) :
    ∃ m, (World.run inputs).store.doc .hostMeta = some m := by
  refine World.run_induct (P := fun w => ∀ p, w.process = some p →
    ∃ m, w.store.doc .hostMeta = some m) (by simp [World.empty]) ?_ inputs p hp
  intro w i w' _ hw hchange
  cases hchange with
  | ignored => exact hw
  | stopped | failed =>
    intro _ hp
    cases hp
  | maintained idle => exact fun p hp => by simp [idle] at hp
  | started idle step =>
    intro _ _
    cases step with
    | mk opened =>
      cases hmeta : w.store.doc .hostMeta with
      | none => exact ⟨_, opened.journals hmeta⟩
      | some m => exact ⟨m, opened.keeps _ trivial _ hmeta⟩
  | called running steps =>
    intro _ _
    obtain ⟨m, hm⟩ := hw _ running
    obtain ⟨m', hm', -⟩ := steps.moves.journals hm
    exact ⟨m', hm'⟩

/-! ## Logs -/

/-- A commit logs entries only after those that are there. -/
theorem Disk.Move.entries (move : d.Move d') : d.entries <+: d'.entries := by
  rcases move.operation with hsame | ⟨h, h', rfl, rfl, hstep⟩
  · rw [hsame.entries]
  · cases hstep with
    | prepared step => cases step <;> exact List.prefix_rfl
    | sent step => cases step; exact List.prefix_rfl
    | entered step => cases step; exact List.prefix_append _ _
    | captured step => cases step; exact List.prefix_rfl
    | voided step => cases step <;> exact List.prefix_rfl

theorem Disk.Moves.entries (hm : d.Moves d') : d.entries <+: d'.entries := by
  induction hm with
  | refl => exact List.prefix_rfl
  | tail _ hlast ih => exact ih.trans hlast.entries

theorem Disk.Move.events (move : d.Move d') : d.store.events <+: d'.store.events := by
  rcases move.operation with hsame | ⟨h, h', rfl, rfl, hstep⟩
  · rw [hsame.events]
  · rcases hstep.events with heq | ⟨v, heq, -⟩ <;> rw [heq]
    exact List.prefix_append _ _

theorem Disk.Moves.events (hm : d.Moves d') : d.store.events <+: d'.store.events := by
  induction hm with
  | refl => exact List.prefix_rfl
  | tail _ hlast ih => exact ih.trans hlast.events

end RxSolutions.Host
