import RxSolutions.Host.Cohorts
import RxSolutions.Host.Cursors
import RxSolutions.Host.Exclusivity
import RxSolutions.Host.Site

/-!
# What lasts at a site

The service, its calls and stops, its crashes and the offline tools share one store. In whatever
order they come, no record in it is taken back and no number that is checked against falls.
-/

namespace RxSolutions.Host

open Domain Durable

/-- What is stored under `k` is still there later, `R` away from what it was. -/
def Store.Follows (s s' : Store) (k : Key) (R : k.Doc → k.Doc → Prop) : Prop :=
  ∀ a, s.doc k = some a → ∃ b, s'.doc k = some b ∧ R a b

/-- Nothing recorded on `d` is lost or replaced on `d'`. -/
structure Disk.Recalls (d d' : Disk) : Prop where
  once : Repository.Keeps (fun k => k.once = true) d.store d'.store
  events : d.store.events <+: d'.store.events
  entries : d.entries <+: d'.entries
  grants : ∀ id k, d.tokens.grants id = some k → d'.tokens.grants id = some k
  deliveries : ∀ op, d.store.Follows d'.store (.delivery op) DeliveryRecord.Evolves

/-- No number that requests and acknowledgements are checked against falls. -/
structure Disk.Ascends (d d' : Disk) : Prop where
  journals : d.store.Follows d'.store .hostMeta HostMeta.Continues
  resources : ∀ x, d.tokens.newest x ≤ d'.tokens.newest x
  cells : ∀ c, d.store.Follows d'.store (.cell c) CellState.Advances
  accepted : ∀ c, d.store.Follows d'.store (.acceptedQualification c)
    fun a b => a.target.epoch ≤ b.target.epoch
  maxima : ∀ peer c q, d.store.Follows d'.store (.qualificationMaximum peer c q) (· ≤ ·)
  contexts : ∀ c, d.store.Follows d'.store (.processContext c)
    fun a b => a.receiptSequence ≤ b.receiptSequence
  cursors : ∀ x j v, d.store.Follows d'.store (.publisher x j v) PublicationCursor.Behind

namespace Site

variable [Ideal] [ServiceIdeal] (o : Setup) (before after : List Input)

theorem run_moves : Disk.Moves (run o before).toDisk (run o (before ++ after)).toDisk := by
  rw [run_append]
  exact steps_moves (run_regular o before) after

/-- In every run of a site, what it has recorded stays recorded. -/
theorem records_last : Disk.Recalls (run o before).toDisk (run o (before ++ after)).toDisk := by
  have hmoves := run_moves o before after
  have hreach := run_reachable o before
  exact ⟨hmoves.keeps, hmoves.events, hmoves.entries, (hmoves.tokens hreach).2,
    fun _ _ => hmoves.evolves hreach.regular⟩

/-- In every run of a site, no number falls. -/
theorem numbers_ascend : Disk.Ascends (run o before).toDisk (run o (before ++ after)).toDisk := by
  have hmoves := run_moves o before after
  have hreach := run_reachable o before
  exact ⟨fun _ => hmoves.journals, (hmoves.tokens hreach).1, fun _ _ => hmoves.cell_advances,
    fun _ _ => hmoves.accepted_epoch hreach, fun _ _ _ _ => hmoves.maximum_le hreach,
    fun _ _ => hmoves.context_le hreach, fun _ _ _ _ => hmoves.cursor_le hreach⟩

end Site

/-- The end of a process takes back what was issued to it: an entry made later is under a permit
and a grant of another boot, and follows a new arm in its own process and session. -/
def World.EndsPermits [Ideal] (w : World) : Prop :=
  ∀ i p, w.process = some p → (w.step i).process = none → ∀ after,
    ∀ e ∈ ((w.step i).steps after).entries.drop (w.step i).entries.length,
      e.request.permit.hostBoot ≠ p.core.boot ∧
      (∃ k, e.store.doc (.grant e.request.grant) = some k ∧ k.hostBoot ≠ p.core.boot) ∧
      ∃ a j b, after = a ++ j :: b ∧
        e ∈ (((w.step i).steps a).step j).entries.drop ((w.step i).steps a).entries.length ∧
        (w.step i).ArmedSince a e.request.permit.cell e.core

/-- In every run, the end of a process ends its permits. -/
theorem end_of_process_ends_permits [Ideal] (inputs : List Input) :
    (World.run inputs).EndsPermits := by
  intro i p hp hended after e he
  have hreach := World.step_reachable (World.run_reachable inputs) i
  obtain ⟨a, j, b, q, heq, hby, hq, hcore, -⟩ := World.entered_since hreach he
  have hchecked := (World.steps_reachable hreach after).checked e (List.mem_of_mem_drop he)
  obtain ⟨h, caller, hstore, hmachine, hcurrent⟩ := hchecked.current
  -- whoever made the entry was started after `p` had ended
  have hboot : h.core.boot ≠ p.core.boot := by
    rw [hmachine, hcore]
    exact (World.boot_ne inputs i hp hended hq).symm
  obtain ⟨k, hk, hissued, -⟩ := hcurrent.grant
  refine ⟨hcurrent.boot ▸ hboot, ⟨k, hstore ▸ hk, hissued ▸ hboot⟩, a, j, b, heq, hby, ?_⟩
  have harmed := hcurrent.armed
  rw [hmachine, hcore] at harmed
  rw [hcore]
  exact (World.armed_since hreach (fun _ hr => by simp [hended] at hr) a hq harmed).2

end RxSolutions.Host
