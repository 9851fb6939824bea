import RxSolutions.Host.AtMostOnce

/-!
# The deadline of a native submission

The adapter is told until when it may act: the earlier of the end of its own guard and the end
of the permit. Both were read on the clock of the last check, and the permit ends no later
than the grant, so the deadline is ahead of that check and within all three.
-/

namespace RxSolutions.Host

open Domain Durable

/-- On the same clock and no later. -/
def Within (t bound : TimePoint) : Prop :=
  t.clockId = bound.clockId ∧ t.ticksNs ≤ bound.ticksNs

theorem Within.refl (t : TimePoint) : Within t t := ⟨rfl, le_rfl⟩

theorem Within.trans {t u v : TimePoint} (htu : Within t u) (huv : Within u v) : Within t v :=
  ⟨htu.1.trans huv.1, htu.2.trans huv.2⟩

/-- What was found unexpired together gives a deadline that is still ahead and within both
bounds. -/
theorem dispatchContext_within {now : TimePoint} {guard : Guard} {permit : Permit}
    (hguard : before now guard.validUntil) (hpermit : before now permit.expiresAt) :
    before now (dispatchContext guard permit).expiresAt ∧
      Within (dispatchContext guard permit).expiresAt guard.validUntil ∧
      Within (dispatchContext guard permit).expiresAt permit.expiresAt := by
  -- the code compares ticks only: both bounds are on the clock of the reading
  have hclock : guard.validUntil.clockId = permit.expiresAt.clockId :=
    hguard.1.symm.trans hpermit.1
  simp only [dispatchContext]
  split
  · rename_i hlt
    exact ⟨hguard, Within.refl _, hclock, hlt.le⟩
  · rename_i hge
    exact ⟨hpermit, ⟨hclock.symm, not_lt.mp hge⟩, Within.refl _⟩

/-- The entry was made in time and in the session that was recorded and qualified. -/
structure NativeEntry.Timely (e : NativeEntry) : Prop where
  /-- The deadline is later than the last clock reading, on the same clock. -/
  ahead : before e.checkedAt e.context.expiresAt
  guard : Within e.context.expiresAt e.guard.validUntil
  permit : Within e.context.expiresAt e.request.permit.expiresAt
  grant : ∃ g, e.store.doc (.grant e.request.grant) = some g ∧
    Within e.context.expiresAt g.expiresAt
  recorded : ∃ r, e.store.doc (.delivery e.operation) = some r ∧
    e.context.deviceSession = r.deviceSession
  /-- A cell with a process context or a physical binding requires a qualification. -/
  required : (e.store.doc (.processContext e.request.permit.cell) ≠ none ∨
      ∃ b, e.core.binding e.request.permit.cell = some b ∧ b.environment = .physical) →
    ∃ a, e.store.doc (.acceptedQualification e.request.permit.cell) = some a
  qualified : ∀ a, e.store.doc (.acceptedQualification e.request.permit.cell) = some a →
    e.context.deviceSession = a.deviceSession

variable [Ideal]

/-- A cell that passed the check of its qualification holds one if it has a process context or its
binding is physical. -/
theorem Targets.accepted {h : Machine} {cell : Name} {t : Option HostQualification.CellTarget}
    (ht : Targets h cell t) (hrequired : h.store.doc (.processContext cell) ≠ none ∨
      ∃ b, h.core.binding cell = some b ∧ b.environment = .physical) :
    ∃ a, h.store.doc (.acceptedQualification cell) = some a := by
  cases t with
  | none =>
    obtain ⟨hnone, -, b, hb, hsimulated⟩ := ht
    rcases hrequired with hcontext | ⟨b', hb', hphysical⟩
    · exact absurd hnone hcontext
    · obtain rfl := Option.some.inj (hb.symm.trans hb')
      exact absurd hphysical hsimulated
  | some t =>
    obtain ⟨a, _, holds, -⟩ := ht
    exact ⟨a, holds.accepted⟩

/-- The entry that `authorize` makes is in time. -/
theorem EnterStep.timely {h h' : Machine} {caller : Caller} {request : Request} {invocation : Id}
    {r : DeliveryRecord} (step : EnterStep h caller request invocation r h') :
    ∀ e ∈ h'.entries, e ∈ h.entries ∨ e.Timely := by
  cases step with
  | @mk record m now guard ready current session =>
    intro e he
    rcases List.mem_append.mp he with hmem | hmem
    · exact .inl hmem
    right
    obtain rfl := List.mem_singleton.mp hmem
    obtain ⟨hahead, hguard, hpermit⟩ := dispatchContext_within current.guarded current.unexpired
    obtain ⟨g, hg, -, -, -, -, hclock, hticks, -⟩ := current.grant
    obtain ⟨t, ht⟩ := current.target
    exact {
      ahead := hahead
      guard := hguard
      permit := hpermit
      grant := ⟨g, hg, hpermit.trans ⟨hclock, hticks⟩⟩
      recorded := ⟨_, Store.doc_delivered_delivery, session⟩
      required := ht.accepted
      qualified := fun a ha => (current.session a ha).symm }

/-- Every native submission was entered in time. -/
def Disk.Timely (d : Disk) : Prop := ∀ e ∈ d.entries, e.Timely

/-- In every run, for all permits, grants and answers of the guard: each native submission is
entered with a deadline that is ahead of the last clock reading before it, on the same clock,
and no later than the end of the guard, of the permit and of the grant; and with the device
session of the delivery record, which is the one that was qualified where a qualification is
required. -/
theorem native_entries_timely (inputs : List Input) : (World.run inputs).toDisk.Timely :=
  (World.run_reachable inputs).every_entry EnterStep.timely

end RxSolutions.Host
