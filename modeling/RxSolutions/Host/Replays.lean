import RxSolutions.Host.Exclusivity
import RxSolutions.Host.Ideal

/-!
# Repeated requests

Fences, arms, grants, acceptances and tombstones are recorded under the identity of
the request, and the record is never replaced. A request that was committed is
therefore answered from its record at any later time, or it fails; it never acts
again. A request with the same identity and another content fails.

The lists of a request that stand for sets are sorted before its content is compared,
so their order does not count as content.
-/

namespace RxSolutions.Host

open Domain Durable Program Relation

variable [Ideal]

/-! ## Answers from a record -/

section Machine

variable {h : Machine} {caller : Caller}

/-- The program changes neither the store nor the armed cells, and returns only what `ok`
allows. -/
abbrev Gate.Answers {α : Type} (m : Gate α) (ok : α → Prop) (h : Machine) : Prop :=
  Gate.Runs m (fun v h' => ok v ∧ h'.store = h.store ∧ h'.core.armed = h.core.armed)
    (fun _ h' => h'.store = h.store ∧ h'.core.armed = h.core.armed) h

theorem fence_answers {request : Id} {body : GateBody} {r : GateReceipt}
    (hrow : h.store.doc (.fenceRequest request) = some (Ideal.fenceDigest body, r))
    (body' : GateBody) :
    Gate.Answers (Call.fence caller request body').exec (fun v => body' = body ∧ v = r) h := by
  refine Always.mono fence_runs ?_ ?_
  · rintro v h' (⟨rfl, hstored⟩ | hstep)
    · obtain ⟨hdigest, rfl⟩ := Prod.mk.inj (Option.some.inj (hrow.symm.trans hstored))
      exact ⟨⟨Ideal.fenceDigest.injective hdigest.symm, rfl⟩, rfl, rfl⟩
    · cases hstep with
      | mk _ _ unrecorded =>
        rw [hrow] at unrecorded
        cases unrecorded
  · rintro _ _ rfl
    exact ⟨rfl, rfl⟩

theorem arm_answers {attempt : Id} {body : GateBody} {r : GateReceipt}
    (hrow : h.store.doc (.armRequest attempt) = some (Ideal.armDigest body, r))
    (body' : GateBody) :
    Gate.Answers (Call.arm caller attempt body').exec (fun v => body' = body ∧ v = r) h := by
  refine Always.mono arm_runs ?_ ?_
  · rintro v h' (⟨rfl, hstored⟩ | hstep)
    · obtain ⟨hdigest, rfl⟩ := Prod.mk.inj (Option.some.inj (hrow.symm.trans hstored))
      exact ⟨⟨Ideal.armDigest.injective hdigest.symm, rfl⟩, rfl, rfl⟩
    · cases hstep with
      | mk _ _ unrecorded =>
        rw [hrow] at unrecorded
        cases unrecorded
  · rintro _ _ rfl
    exact ⟨rfl, rfl⟩

theorem acquireGrant_answers {request : Id} {body : GrantBody} {g : StoredGrant}
    {resources : List Name} {fence ttlNs : Counter}
    (hrow : h.store.doc (.grantRequest request) = some (Ideal.grantDigest body, g)) :
    Gate.Answers (Call.acquireGrant caller request resources fence ttlNs).exec
      (fun v => ⟨caller.peer, sorted resources, fence, ttlNs⟩ = body ∧ v = g) h := by
  refine Always.mono acquireGrant_runs ?_ ?_
  · rintro v h' (⟨rfl, hstored⟩ | hstep)
    · obtain ⟨hdigest, rfl⟩ := Prod.mk.inj (Option.some.inj (hrow.symm.trans hstored))
      exact ⟨⟨Ideal.grantDigest.injective hdigest.symm, rfl⟩, rfl, rfl⟩
    · cases hstep with
      | mk granted =>
        rw [granted.unrecorded] at hrow
        cases hrow
  · rintro _ _ (rfl | rfl) <;> exact ⟨rfl, rfl⟩

/-- A renewal that is current or outdated changes nothing. -/
theorem renewGrant_answers {grant : Id} {sequence : Counter} {g : StoredGrant}
    (hrow : h.store.doc (.grant grant) = some g) (hsequence : sequence ≤ g.renewSeq) :
    Gate.Answers (Call.renewGrant caller grant sequence).exec
      (fun v => v = g ∧ g.renewSeq = sequence) h := by
  refine Always.mono renewGrant_runs ?_ ?_
  · rintro v h' (⟨rfl, hstored, hcurrent⟩ | hstep)
    · obtain rfl := Option.some.inj (hrow.symm.trans hstored)
      exact ⟨⟨rfl, hcurrent⟩, rfl, rfl⟩
    · cases hstep with
      | mk found _ newer =>
        obtain rfl := Option.some.inj (hrow.symm.trans found)
        exact absurd newer (not_lt_of_ge hsequence)
  · rintro _ _ rfl
    exact ⟨rfl, rfl⟩

theorem voidBeforeSend_answers {operation : Id} {v : VoidRecord}
    (hrow : h.store.doc (.void operation) = some v) (digest : Digest) :
    Gate.Answers (Call.voidBeforeSend caller operation digest).exec
      (fun v' => v.digest = digest ∧ v' = v) h := by
  refine Always.mono voidBeforeSend_runs ?_ ?_
  · rintro v' h' (⟨rfl, hstored, hdigest⟩ | hstep)
    · obtain rfl := Option.some.inj (hrow.symm.trans hstored)
      exact ⟨⟨hdigest, rfl⟩, rfl, rfl⟩
    · cases hstep with
      | unknown unvoided | prepared unvoided =>
        rw [hrow] at unvoided
        cases unvoided
  · rintro _ _ rfl
    exact ⟨rfl, rfl⟩

theorem acceptProcessConfiguration_answers {request : HostConfiguration.Request}
    {r : HostConfiguration.Receipt}
    (hrow : h.store.doc (.configurationRequest caller.peer request.id) = some r) :
    Gate.Answers (Call.acceptProcessConfiguration caller request).exec
      (fun o => request.digest Ideal.configurationDigest = .ok r.requestDigest ∧
        o.receipt = some r) h := by
  have hnew : ∀ r' h', ¬ ConfigureStep h caller request r' h' := by
    intro r' h' hstep
    cases hstep with
    | mk configured same =>
      have hunrecorded := configured.unrecorded
      rw [same, hrow] at hunrecorded
      cases hunrecorded
  refine Always.mono acceptProcessConfiguration_runs ?_ ?_
  · rintro o h' ⟨r', ho, ⟨rfl, hstored, hdigest⟩ | hstep⟩
    · obtain rfl := Option.some.inj (hrow.symm.trans hstored)
      exact ⟨⟨hdigest, ho⟩, rfl, rfl⟩
    · exact absurd hstep (hnew r' h')
  · rintro _ h' (rfl | ⟨r', hstep⟩)
    · exact ⟨rfl, rfl⟩
    · exact absurd hstep (hnew r' h')

theorem acceptQualification_answers {request : HostQualification.Request}
    {r : HostQualification.Receipt}
    (hrow : h.store.doc (.qualificationRequest caller.peer request.id) = some r) :
    Gate.Answers (Call.acceptQualification caller request).exec
      (fun o => request.digest Ideal.qualificationDigest = .ok r.requestDigest ∧
        o.receipt = some r) h := by
  have hnew : ∀ r' h', ¬ QualifyStep h caller request r' h' := by
    intro r' h' hstep
    cases hstep with
    | mk _ qualifies same =>
      have hunrecorded := qualifies.unrecorded
      rw [same, hrow] at hunrecorded
      cases hunrecorded
  refine Always.mono acceptQualification_runs ?_ ?_
  · rintro o h' ⟨r', ho, ⟨rfl, hstored, hdigest⟩ | hstep⟩
    · obtain rfl := Option.some.inj (hrow.symm.trans hstored)
      exact ⟨⟨hdigest, ho⟩, rfl, rfl⟩
    · exact absurd hstep (hnew r' h')
  · rintro _ h' (rfl | ⟨r', hstep⟩)
    · exact ⟨rfl, rfl⟩
    · exact absurd hstep (hnew r' h')

end Machine

/-! ## Grants along a run -/

section Renewals

variable {c : Call} {h h' : Machine} {d d' : Disk} {id : Id} {g : StoredGrant}

theorem Disk.Move.renews (move : d.Move d') (hg : d.store.doc (.grant id) = some g) :
    ∃ g', d'.store.doc (.grant id) = some g' ∧ (g' = g ∨ g.renewSeq < g'.renewSeq) := by
  rcases move.grants with
    hsame | ⟨h, h', rfl, rfl, ⟨_, _, _, _, _, new, hgrant⟩ | ⟨grant, _, _, hrenew⟩⟩
  · exact ⟨g, (Repository.doc_congr (hsame _ rfl)).trans hg, .inl rfl⟩
  · cases hgrant with
    | mk granted =>
      have hother : id ≠ new.id := by
        rintro rfl
        rw [granted.absent] at hg
        cases hg
      exact ⟨g, (granted.frame.doc (by simpa using hother)).trans hg, .inl rfl⟩
  · cases hrenew with
    | mk found _ newer =>
      by_cases hid : id = grant
      · subst hid
        obtain rfl := Option.some.inj (hg.symm.trans found)
        exact ⟨_, Repository.doc_write_self _, .inr newer⟩
      · exact ⟨g, (Repository.doc_write_of_ne (by simpa using hid) _).trans hg, .inl rfl⟩

/-- A grant is stored unchanged until it is renewed under a later number. -/
theorem Disk.Moves.renews (hm : d.Moves d') (hg : d.store.doc (.grant id) = some g) :
    ∃ g', d'.store.doc (.grant id) = some g' ∧ (g' = g ∨ g.renewSeq < g'.renewSeq) := by
  induction hm with
  | refl => exact ⟨g, hg, .inl rfl⟩
  | tail _ hlast ih =>
    obtain ⟨g₁, hg₁, hfirst⟩ := ih
    obtain ⟨g₂, hg₂, hthen⟩ := hlast.renews hg₁
    refine ⟨g₂, hg₂, ?_⟩
    rcases hfirst with rfl | hfirst <;> rcases hthen with rfl | hthen
    · exact .inl rfl
    · exact .inr hthen
    · exact .inr hfirst
    · exact .inr (hfirst.trans hthen)

end Renewals

/-! ## Repeated calls -/

namespace World

variable {w : World} {c : Call} {answers : ℕ → Answer}

/-- Calling `c` changes neither the store nor the armed cells of a world, whether it returns,
fails or dies, and it returns only what `ok` allows. -/
def Repeats (w : World) (c : Call) (ok : c.Reply → Prop) : Prop :=
  ∀ p, w.process = some p → ∀ answers,
    (∀ v, (w.call p c answers).1 = .ok v → ok v) ∧
    (w.call p c answers).2.store = w.store ∧
    ∀ q, (w.call p c answers).2.process = some q → q.core.armed = p.core.armed

theorem repeats_of_answers {ok : c.Reply → Prop} (h : ∀ p, Gate.Answers c.exec ok (w.machine p)) :
    w.Repeats c ok := by
  intro p _ answers
  rcases hcall : w.call p c answers with ⟨e | v, w'⟩
  · obtain ⟨h', ⟨hstore, harmed⟩, hdisk, hcore⟩ := call_error (h p) hcall
    refine ⟨nofun, ?_, fun q hq => ?_⟩
    · rw [hdisk]
      exact hstore
    · rw [hcore q hq]
      exact harmed
  · obtain ⟨h', a, ⟨hok, hstore, harmed⟩, rfl⟩ := call_ok (h p) hcall
    refine ⟨fun v' hv' => Except.ok.inj hv' ▸ hok, hstore, fun q hq => ?_⟩
    cases hq
    exact harmed

theorem Repeats.mono {ok ok' : c.Reply → Prop} (h : w.Repeats c ok) (hle : ∀ v, ok v → ok' v) :
    w.Repeats c ok' :=
  fun p hp answers => (h p hp answers).imp (fun hok v hv => hle v (hok v hv)) id

section Committed

variable {caller : Caller} {request : Id}

/-! What a first commit has recorded: the digest of its content, or the content itself. -/

theorem fence_committed {body : GateBody} {r : Digest × GateReceipt}
    (hnew : w.store.doc (.fenceRequest request) = none)
    (hstored : (w.step (.call (.fence caller request body) answers)).store.doc
      (.fenceRequest request) = some r) : r.1 = Ideal.fenceDigest body := by
  obtain ⟨p, h, -, hdisk, v, hstep⟩ := committed_step (by simp [hnew]) hstored
    (fun _ => fence_runs) (by rintro _ _ _ rfl; rfl)
  rw [hdisk] at hstored
  cases hstep
  rw [Repository.doc_write_self] at hstored
  exact congrArg Prod.fst (Option.some.inj hstored).symm

theorem arm_committed {body : GateBody} {r : Digest × GateReceipt}
    (hnew : w.store.doc (.armRequest request) = none)
    (hstored : (w.step (.call (.arm caller request body) answers)).store.doc
      (.armRequest request) = some r) : r.1 = Ideal.armDigest body := by
  obtain ⟨p, h, -, hdisk, v, hstep⟩ := committed_step (by simp [hnew]) hstored
    (fun _ => arm_runs) (by rintro _ _ _ rfl; rfl)
  rw [hdisk] at hstored
  cases hstep
  rw [Repository.doc_write_self] at hstored
  exact congrArg Prod.fst (Option.some.inj hstored).symm

theorem acquireGrant_committed {resources : List Name} {fence ttlNs : Counter}
    {r : Digest × StoredGrant} (hnew : w.store.doc (.grantRequest request) = none)
    (hstored : (w.step
      (.call (.acquireGrant caller request resources fence ttlNs) answers)).store.doc
      (.grantRequest request) = some r) :
    r.1 = Ideal.grantDigest ⟨caller.peer, sorted resources, fence, ttlNs⟩ := by
  obtain ⟨p, h, -, hdisk, v, hstep⟩ := committed_step (by simp [hnew]) hstored
    (fun _ => acquireGrant_runs) (by rintro _ _ _ (rfl | rfl) <;> rfl)
  rw [hdisk] at hstored
  cases hstep with
  | mk granted =>
    rw [granted.recorded] at hstored
    exact congrArg Prod.fst (Option.some.inj hstored).symm

theorem renewGrant_committed {grant : Id} {sequence : Counter} {g : StoredGrant}
    (hnew : w.store.doc (.grant grant) ≠ some g)
    (hstored : (w.step (.call (.renewGrant caller grant sequence) answers)).store.doc
      (.grant grant) = some g) : g.renewSeq = sequence := by
  obtain ⟨p, h, -, hdisk, v, hstep⟩ := committed_step hnew hstored
    (fun _ => renewGrant_runs) (by rintro _ _ _ rfl; rfl)
  rw [hdisk] at hstored
  cases hstep
  rw [Repository.doc_write_self] at hstored
  obtain rfl := Option.some.inj hstored
  rfl

theorem voidBeforeSend_committed {operation : Id} {digest : Digest} {v : VoidRecord}
    (hnew : w.store.doc (.void operation) = none)
    (hstored : (w.step (.call (.voidBeforeSend caller operation digest) answers)).store.doc
      (.void operation) = some v) : v.digest = digest := by
  obtain ⟨p, h, -, hdisk, v', hstep⟩ := committed_step (by simp [hnew]) hstored
    (fun _ => voidBeforeSend_runs) (by rintro _ _ _ rfl; rfl)
  rw [hdisk] at hstored
  obtain rfl := Option.some.inj (hstep.recorded.symm.trans hstored)
  cases hstep <;> rfl

theorem acceptProcessConfiguration_committed {request : HostConfiguration.Request}
    {r : HostConfiguration.Receipt}
    (hnew : w.store.doc (.configurationRequest caller.peer request.id) = none)
    (hstored : (w.step (.call (.acceptProcessConfiguration caller request) answers)).store.doc
      (.configurationRequest caller.peer request.id) = some r) :
    request.digest Ideal.configurationDigest = .ok r.requestDigest := by
  obtain ⟨p, h, -, hdisk, v, hstep⟩ := configure_committed (by simp [hnew]) hstored
  rw [hdisk] at hstored
  cases hstep with
  | mk configured same digest =>
    have hrecorded := configured.recorded
    rw [same] at hrecorded
    obtain rfl := Option.some.inj (hrecorded.symm.trans hstored)
    exact digest

theorem acceptQualification_committed {request : HostQualification.Request}
    {r : HostQualification.Receipt}
    (hnew : w.store.doc (.qualificationRequest caller.peer request.id) = none)
    (hstored : (w.step (.call (.acceptQualification caller request) answers)).store.doc
      (.qualificationRequest caller.peer request.id) = some r) :
    request.digest Ideal.qualificationDigest = .ok r.requestDigest := by
  obtain ⟨p, h, -, hdisk, v, hstep⟩ := qualify_committed (by simp [hnew]) hstored
  rw [hdisk] at hstored
  cases hstep with
  | mk _ qualifies same digest =>
    have hrecorded := qualifies.recorded
    rw [same] at hrecorded
    obtain rfl := Option.some.inj (hrecorded.symm.trans hstored)
    exact digest

end Committed

/-- What is recorded by a call stays recorded. -/
theorem recorded_since {k : Key} {v : k.Doc} (hw : w.Reachable) (hk : k.once = true)
    (hstored : (w.step (.call c answers)).store.doc k = some v) (after : List Input) :
    (w.steps (.call c answers :: after)).store.doc k = some v := by
  have hnext := step_reachable hw (.call c answers)
  exact (steps_moves hnext.regular after).keeps k hk v hstored

/-- What repeated requests do in every continuation of a world that has just committed the
request for the first time. -/
structure ReplaysHarmless (w : World) : Prop where
  fence : ∀ caller request body answers r, w.store.doc (.fenceRequest request) = none →
    (w.step (.call (.fence caller request body) answers)).store.doc (.fenceRequest request) =
      some r →
    ∀ after caller' body', (w.steps (.call (.fence caller request body) answers :: after)).Repeats
      (.fence caller' request body') fun v => body' = body ∧ v = r.2
  arm : ∀ caller attempt body answers r, w.store.doc (.armRequest attempt) = none →
    (w.step (.call (.arm caller attempt body) answers)).store.doc (.armRequest attempt) = some r →
    ∀ after caller' body', (w.steps (.call (.arm caller attempt body) answers :: after)).Repeats
      (.arm caller' attempt body') fun v => body' = body ∧ v = r.2
  acquireGrant : ∀ caller request resources fence ttlNs answers r,
    w.store.doc (.grantRequest request) = none →
    (w.step (.call (.acquireGrant caller request resources fence ttlNs) answers)).store.doc
      (.grantRequest request) = some r →
    ∀ after caller' resources' fence' ttlNs',
      (w.steps (.call (.acquireGrant caller request resources fence ttlNs) answers ::
        after)).Repeats
        (.acquireGrant caller' request resources' fence' ttlNs') fun v =>
          (caller'.peer = caller.peer ∧ resources'.Perm resources ∧ fence' = fence ∧
            ttlNs' = ttlNs) ∧ v = r.2
  renewGrant : ∀ caller grant sequence answers g, w.store.doc (.grant grant) ≠ some g →
    (w.step (.call (.renewGrant caller grant sequence) answers)).store.doc (.grant grant) = some g →
    ∀ after caller', (w.steps (.call (.renewGrant caller grant sequence) answers :: after)).Repeats
      (.renewGrant caller' grant sequence) fun v => v = g
  acceptProcessConfiguration : ∀ caller request answers r,
    w.store.doc (.configurationRequest caller.peer request.id) = none →
    (w.step (.call (.acceptProcessConfiguration caller request) answers)).store.doc
      (.configurationRequest caller.peer request.id) = some r →
    ∀ after caller' request', caller'.peer = caller.peer → request'.id = request.id →
      (w.steps (.call (.acceptProcessConfiguration caller request) answers :: after)).Repeats
        (.acceptProcessConfiguration caller' request') fun o =>
          request'.canonical = request.canonical ∧ o.receipt = some r
  acceptQualification : ∀ caller request answers r,
    w.store.doc (.qualificationRequest caller.peer request.id) = none →
    (w.step (.call (.acceptQualification caller request) answers)).store.doc
      (.qualificationRequest caller.peer request.id) = some r →
    ∀ after caller' request', caller'.peer = caller.peer → request'.id = request.id →
      (w.steps (.call (.acceptQualification caller request) answers :: after)).Repeats
        (.acceptQualification caller' request') fun o =>
          request'.canonical = request.canonical ∧ o.receipt = some r
  voidBeforeSend : ∀ caller operation digest answers v, w.store.doc (.void operation) = none →
    (w.step (.call (.voidBeforeSend caller operation digest) answers)).store.doc
      (.void operation) = some v →
    ∀ after caller' digest',
      (w.steps (.call (.voidBeforeSend caller operation digest) answers :: after)).Repeats
        (.voidBeforeSend caller' operation digest') fun v' => digest' = digest ∧ v' = v

end World

/-- Replays are harmless: a request that was committed and is issued again, at any later
time and across restarts, returns what was recorded at the first commit or fails, and
changes neither the store nor the armed cells; with another content, the order of lists
that stand for sets aside, it fails. -/
theorem replays_are_harmless (inputs : List Input) : (World.run inputs).ReplaysHarmless := by
  have hreach := World.run_reachable inputs
  constructor
  case fence =>
    rintro caller request body answers ⟨digest, r⟩ hnew hstored after caller' body'
    obtain rfl : digest = _ := World.fence_committed hnew hstored
    have hrow := World.recorded_since hreach rfl hstored after
    exact World.repeats_of_answers fun p => fence_answers hrow body'
  case arm =>
    rintro caller attempt body answers ⟨digest, r⟩ hnew hstored after caller' body'
    obtain rfl : digest = _ := World.arm_committed hnew hstored
    have hrow := World.recorded_since hreach rfl hstored after
    exact World.repeats_of_answers fun p => arm_answers hrow body'
  case acquireGrant =>
    rintro caller request resources fence ttlNs answers ⟨digest, g⟩ hnew hstored after
    rintro caller' resources' fence' ttlNs'
    obtain rfl : digest = _ := World.acquireGrant_committed hnew hstored
    have hrow := World.recorded_since hreach rfl hstored after
    refine (World.repeats_of_answers fun p => acquireGrant_answers hrow).mono ?_
    rintro v ⟨hbody, rfl⟩
    obtain ⟨hpeer, hresources, hfence, httl⟩ := GrantBody.mk.inj hbody
    refine ⟨⟨hpeer, ?_, hfence, httl⟩, rfl⟩
    -- equal once sorted, so equal up to order
    exact (sorted_perm resources').symm.trans (hresources ▸ sorted_perm resources)
  case renewGrant =>
    intro caller grant sequence answers g hnew hstored after caller'
    have hsequence := World.renewGrant_committed hnew hstored
    have hnext := World.step_reachable hreach (.call (.renewGrant caller grant sequence) answers)
    obtain ⟨g', hg', hrenewed⟩ :=
      (World.steps_moves hnext.regular after).renews hstored
    have hle : sequence ≤ g'.renewSeq := by
      rcases hrenewed with rfl | hlater
      · exact hsequence.ge
      · exact hsequence ▸ hlater.le
    refine (World.repeats_of_answers fun p => renewGrant_answers hg' hle).mono ?_
    rintro v ⟨rfl, hcurrent⟩
    rcases hrenewed with rfl | hlater
    · rfl
    · rw [hsequence, hcurrent] at hlater
      exact absurd hlater (lt_irrefl _)
  case acceptProcessConfiguration =>
    intro caller request answers r hnew hstored after caller' request' hpeer hid
    have hdigest := World.acceptProcessConfiguration_committed hnew hstored
    have hrow := World.recorded_since hreach rfl hstored after
    rw [← hpeer, ← hid] at hrow
    refine (World.repeats_of_answers fun p => acceptProcessConfiguration_answers hrow).mono ?_
    rintro o ⟨hdigest', ho⟩
    exact ⟨canonical_eq_of_checkedDigest_eq hdigest' hdigest, ho⟩
  case acceptQualification =>
    intro caller request answers r hnew hstored after caller' request' hpeer hid
    have hdigest := World.acceptQualification_committed hnew hstored
    have hrow := World.recorded_since hreach rfl hstored after
    rw [← hpeer, ← hid] at hrow
    refine (World.repeats_of_answers fun p => acceptQualification_answers hrow).mono ?_
    rintro o ⟨hdigest', ho⟩
    exact ⟨canonical_eq_of_checkedDigest_eq hdigest' hdigest, ho⟩
  case voidBeforeSend =>
    intro caller operation digest answers v hnew hstored after caller' digest'
    have hdigest := World.voidBeforeSend_committed hnew hstored
    have hrow := World.recorded_since hreach rfl hstored after
    refine (World.repeats_of_answers fun p => voidBeforeSend_answers hrow digest').mono ?_
    rintro v' ⟨hsame, rfl⟩
    exact ⟨hsame.symm.trans hdigest, rfl⟩

/-! ## The order of resources is not content -/

namespace Reordered

/-- An approved intent on two resources. -/
def intent : Intent where
  kind := .modeTransition
  target := "robot"
  profileDigest := "profile"
  siteConfigDigest := "site"
  calibrationDigests := []
  resourceSet := ["arm", "gripper"]
  executionTimeoutMs := 1
  prepareValidityMs := 1
  completionRule := "done"
  cancelRule := "cancelled"
  body := .mode "mode" "transition"

/-- A cell of the platform. -/
def binding : Binding where
  host := "host"
  platform := "platform"
  cell := "cell"
  definition := ⟨"definition", "schema", 1⟩
  envelope := ⟨"envelope", "schema", 1⟩
  qualification := "qualification"
  qualificationRevision := 1
  allowedIntents := [intent]
  scopeIds := ["scope"]
  conditionIds := ["ready"]
  environment := .simulation
  purposes := {.production}

/-- An environment without faults whose device can be handed over. -/
def answers : ℕ → Answer := fun _ =>
  { crash := false
    stop := false
    fault := none
    now := ⟨"clock", 0⟩
    guard := .error .busy
    canHandover := true
    handover := .error .busy
    capture := .error .busy
    found := .error .busy
    shutdown := none
    healthy := true }

/-- The platform in its session. -/
def caller : Caller := ⟨"platform", "session"⟩

/-- Open a new host and bind the platform. -/
def opened : List Input :=
  [.start .simulation [binding] answers, .call (.bindPlatform caller) answers]

/-- Ask for a grant over both resources, listed in some order. -/
abbrev acquire (resources : List Name) : Call := .acquireGrant caller "request" resources 1 1

/-! The states these inputs lead to, written out. -/

/-- A host that is bound to the cell. -/
def boundCore : Core := ⟨Ideal.freshId 2, [binding], some caller, ∅⟩

/-- The store of that host before any call. -/
def store : Store :=
  (Repository.empty.write .hostMeta ⟨Ideal.freshId 0, Ideal.freshId 1, 0⟩).write (.cell "cell")
    ⟨1, binding.initialScopes, ∅⟩

/-- The grant that a request asks for. -/
def grant : StoredGrant where
  id := Ideal.freshId 3
  hostBoot := Ideal.freshId 2
  owner := "platform"
  session := "session"
  resources := ["arm", "gripper"]
  fence := 1
  expiresAt := ⟨"clock", 1⟩
  renewSeq := 0
  ttlNs := 1

/-- The fingerprint of the request. -/
def fingerprint : Digest := Ideal.grantDigest ⟨"platform", ["arm", "gripper"], 1, 1⟩

/-- The store after the request. -/
def grantedStore : Store :=
  (((store.write (.resource "arm") ⟨"arm", 1⟩).write (.resource "gripper") ⟨"gripper", 1⟩).write
    (.grant (Ideal.freshId 3)) grant).write (.grantRequest "request") (fingerprint, grant)

/-- The host at answer `tick`, before the grant. -/
def before (tick : ℕ) : GateState := ⟨⟨⟨store, [], 3⟩, boundCore⟩, true, answers, tick⟩

/-- The host when it has drawn the identifier of the grant. -/
def drawn : GateState := ⟨⟨⟨store, [], 4⟩, boundCore⟩, true, answers, 5⟩

/-- The host at answer `tick`, with the grant. -/
def after (tick : ℕ) : GateState := ⟨⟨⟨grantedStore, [], 4⟩, boundCore⟩, true, answers, tick⟩

/-- A process that has been started on the store. -/
def process : Process := ⟨boundCore, true⟩

/-- The world before the request. -/
def openWorld : World := ⟨⟨store, [], 3⟩, some process⟩

/-- The world after the request. -/
def grantedWorld : World := ⟨⟨grantedStore, [], 4⟩, some process⟩

theorem run_opened : World.run opened = openWorld := rfl

theorem issueGrant_eq :
    issueGrant caller "request" fingerprint ["arm", "gripper"] 1 1 (before 2) =
      (.ok grant, after 6) := by
  have hfree : canHandover ["arm", "gripper"] (before 2) = (.ok true, before 3) := rfl
  have hscan : transact Tx.scanDeliveries (before 3) = (.ok [], before 4) := rfl
  have hnow : clockNow (before 4) = (.ok ⟨"clock", 0⟩, before 5) := rfl
  have hcommit : transact (recordGrant "request" fingerprint grant) drawn = (.ok (), after 6) := rfl
  rw [issueGrant, bind_of_returns hfree]
  refine (bind_of_returns (b := ()) (t := before 3) (by rfl)).trans ?_
  rw [bind_of_returns hscan]
  refine (bind_of_returns (b := ()) (t := before 4) (by rfl)).trans ?_
  rw [bind_of_returns hnow]
  refine (bind_of_returns (b := Ideal.freshId 3) (t := drawn) (by rfl)).trans ?_
  refine (bind_of_returns (b := boundCore) (by rfl)).trans ?_
  exact (bind_of_returns hcommit).trans rfl

/-- The first request is granted. -/
theorem acquireGrant_eq :
    acquireGrant caller "request" ["arm", "gripper"] 1 1 (before 0) = (.ok grant, after 6) := by
  rw [acquireGrant]
  refine (bind_of_returns (b := ()) (t := before 0) (by rfl)).trans ?_
  refine (bind_of_returns (b := ()) (t := before 1) (by rfl)).trans ?_
  refine (bind_of_returns (b := ()) (t := before 1) (by rfl)).trans ?_
  refine (bind_of_returns (b := boundCore) (t := before 1) (by rfl)).trans ?_
  refine (bind_of_returns (b := ()) (t := before 1) (by rfl)).trans ?_
  refine (bind_of_returns (b := none) (t := before 2) (by rfl)).trans ?_
  exact issueGrant_eq

/-- The second one is answered from the record, since both lists are sorted first. -/
theorem acquireGrant_again_eq :
    acquireGrant caller "request" ["gripper", "arm"] 1 1 (after 0) = (.ok grant, after 2) := by
  have hsame : fingerprint = Ideal.grantDigest ⟨"platform", sorted ["gripper", "arm"], 1, 1⟩ := rfl
  rw [acquireGrant]
  refine (bind_of_returns (b := ()) (t := after 0) (by rfl)).trans ?_
  refine (bind_of_returns (b := ()) (t := after 1) (by rfl)).trans ?_
  refine (bind_of_returns (b := ()) (t := after 1) (by rfl)).trans ?_
  refine (bind_of_returns (b := boundCore) (t := after 1) (by rfl)).trans ?_
  refine (bind_of_returns (b := ()) (t := after 1) (by rfl)).trans ?_
  have hrow : transact (Tx.get (.grantRequest "request")) (after 1) =
      (.ok (some ⟨1, fingerprint, grant⟩), after 2) := rfl
  refine (bind_of_returns hrow).trans ?_
  refine (bind_of_returns (b := ()) (t := after 2) ?_).trans rfl
  exact congrFun (if_pos hsame) (after 2)

theorem call_eq :
    openWorld.call process (acquire ["arm", "gripper"]) answers = (.ok grant, grantedWorld) :=
  World.call_eq (c := acquire ["arm", "gripper"]) (w := openWorld) (p := process) (s := after 6)
    acquireGrant_eq

theorem call_again_eq :
    grantedWorld.call process (acquire ["gripper", "arm"]) answers = (.ok grant, grantedWorld) :=
  World.call_eq (c := acquire ["gripper", "arm"]) (w := grantedWorld) (p := process) (s := after 2)
    acquireGrant_again_eq

end Reordered

open Reordered in
omit [Ideal] in
/-- A grant that was asked for over one list of resources is answered again over another
list. -/
theorem reordered_grant_is_answered : ∃ (_ : Ideal) (p : Process) (g : StoredGrant),
    (World.run opened).store.doc (.grantRequest "request") = none ∧
    (World.run (opened ++ [.call (acquire ["arm", "gripper"]) answers])).store.doc
      (.grantRequest "request") ≠ none ∧
    ["gripper", "arm"] ≠ ["arm", "gripper"] ∧
    (World.run (opened ++ [.call (acquire ["arm", "gripper"]) answers])).process = some p ∧
    ((World.run (opened ++ [.call (acquire ["arm", "gripper"]) answers])).call p
      (acquire ["gripper", "arm"]) answers).1 = .ok g := by
  obtain ⟨ideal⟩ := Ideal.nonempty
  have hgranted : World.run (opened ++ [.call (acquire ["arm", "gripper"]) answers]) =
      grantedWorld := by
    rw [World.run_append, run_opened]
    exact congrArg Prod.snd call_eq
  refine ⟨ideal, process, grant, ?_, ?_, by decide, ?_, ?_⟩
  · rw [run_opened]
    rfl
  · rw [hgranted]
    exact Option.some_ne_none (_ : Digest × StoredGrant)
  · rw [hgranted]
    rfl
  · rw [hgranted]
    exact congrArg Prod.fst call_again_eq

end RxSolutions.Host
