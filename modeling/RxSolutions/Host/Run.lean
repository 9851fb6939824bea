import RxSolutions.Host.Dispatch
import RxSolutions.Host.Grants
import RxSolutions.Host.Lifecycle
import RxSolutions.Host.Publication
import RxSolutions.Host.Scopes

/-!
# The calls of a host

The entry points of a running host as one type of calls, each with the program that it
runs. `Step` says once what a call can do to a machine, and every call is shown to make such
steps only, so that what is to hold along a run has to be shown for a step.
-/

namespace RxSolutions.Host

open Domain Durable Program Relation

/-- The entry points of a running host. -/
inductive Call
  | bindPlatform (caller : Caller)
  | claimRpc (caller : Caller) (method : Name) (request : Id) (semantic : Digest)
      (effect : Option Name)
  | bindBoot (attempt : Id)
  | serviceStopSnapshot
  | prepare (caller : Caller) (request : Request)
  | authorize (caller : Caller) (request : Request) (invocation : Id)
  | voidBeforeSend (caller : Caller) (operation : Id) (digest : Digest)
  | receipt (caller : Caller) (operation : Id)
  | receiptView (caller : Caller) (operation : Id)
  | evidenceAfter (caller : Caller) (after : Counter) (limit : ℕ)
  | reconcile (caller : Caller) (operation : Id)
  | fence (caller : Caller) (request : Id) (body : GateBody)
  | arm (caller : Caller) (attempt : Id) (body : GateBody)
  | acquireGrant (caller : Caller) (request : Id) (resources : List Name) (fence ttlNs : Counter)
  | renewGrant (caller : Caller) (grant : Id) (sequence : Counter)
  | acceptProcessConfiguration (caller : Caller) (request : HostConfiguration.Request)
  | acceptQualification (caller : Caller) (request : HostQualification.Request)
  | currentTarget (cell : Name)
  | publicationChunk (destination : Destination)
  | acknowledgePublication (destination : Destination) (ack : PublicationAck)

/-- What a call returns. -/
@[reducible] def Call.Reply : Call → Type
  | .bindPlatform _ | .claimRpc _ _ _ _ _ | .bindBoot _ => Unit
  | .serviceStopSnapshot => StopSnapshot
  | .prepare _ _ | .authorize _ _ _ | .receipt _ _ | .reconcile _ _ => DeliveryRecord
  | .voidBeforeSend _ _ _ => VoidRecord
  | .receiptView _ _ => ReceiptView
  | .evidenceAfter _ _ _ => List (Counter × EvidenceRecord)
  | .fence _ _ _ | .arm _ _ _ => GateReceipt
  | .acquireGrant _ _ _ _ _ | .renewGrant _ _ _ => StoredGrant
  | .acceptProcessConfiguration _ _ => HostConfiguration.Observation
  | .acceptQualification _ _ => HostQualification.Observation
  | .currentTarget _ => Option HostQualification.CellTarget
  | .publicationChunk _ => PublicationChunk
  | .acknowledgePublication _ _ => PublicationCursor

variable [Ideal]

/-- The program of a call. -/
def Call.exec : (c : Call) → Gate c.Reply
  | .bindPlatform caller => Host.bindPlatform caller
  | .claimRpc caller method request semantic effect =>
    Host.claimRpc caller method request semantic effect
  | .bindBoot attempt => Host.bindBoot attempt
  | .serviceStopSnapshot => Host.serviceStopSnapshot
  | .prepare caller request => Host.prepare caller request
  | .authorize caller request invocation => Host.authorize caller request invocation
  | .voidBeforeSend caller operation digest => Host.voidBeforeSend caller operation digest
  | .receipt caller operation => Host.receipt caller operation
  | .receiptView caller operation => Host.receiptView caller operation
  | .evidenceAfter caller after limit => Host.evidenceAfter caller after limit
  | .reconcile caller operation => Host.reconcile caller operation
  | .fence caller request body =>
    Host.fence caller request body.cell body.epoch body.scopes body.blocks
  | .arm caller attempt body => Host.arm caller attempt body.cell body.epoch body.scopes body.blocks
  | .acquireGrant caller request resources number ttlNs =>
    Host.acquireGrant caller request resources number ttlNs
  | .renewGrant caller grant sequence => Host.renewGrant caller grant sequence
  | .acceptProcessConfiguration caller request => Host.acceptProcessConfiguration caller request
  | .acceptQualification caller request => Host.acceptQualification caller request
  | .currentTarget cell => Host.currentTarget cell
  | .publicationChunk destination => Host.publicationChunk destination
  | .acknowledgePublication destination ack => Host.acknowledgePublication destination ack

/-! ## What a call can do -/

/-- One step of a call on the machine it runs on. -/
inductive Step : Call → Machine → Machine → Prop
  | drew {c : Call} {h : Machine} {n : ℕ} (le : h.drawn ≤ n) : Step c h { h with drawn := n }
  | bound {h h' : Machine} {caller : Caller} (step : BindStep h caller h') :
      Step (.bindPlatform caller) h h'
  | claimed {h h' : Machine} {caller : Caller} {method : Name} {request : Id} {semantic : Digest}
      {effect : Option Name} (step : BookStep h h') :
      Step (.claimRpc caller method request semantic effect) h h'
  | booted {h h' : Machine} {attempt : Id} (step : BootStep h attempt h') :
      Step (.bindBoot attempt) h h'
  | disarmed {h : Machine} :
      Step .serviceStopSnapshot h { h with core := { h.core with armed := ∅ } }
  | prepared {h h' : Machine} {caller : Caller} {request : Request} {r : DeliveryRecord}
      (step : PrepareStep h caller request r h') : Step (.prepare caller request) h h'
  | sent {h h' : Machine} {caller : Caller} {request : Request} {invocation : Id}
      (step : SendStep h caller request invocation h') :
      Step (.authorize caller request invocation) h h'
  | entered {h h' : Machine} {caller : Caller} {request : Request} {invocation : Id}
      {r : DeliveryRecord} (step : EnterStep h caller request invocation r h') :
      Step (.authorize caller request invocation) h h'
  | finished {h h' : Machine} {caller : Caller} {request : Request} {invocation : Id}
      {record r : DeliveryRecord} (step : CaptureStep h record r h') :
      Step (.authorize caller request invocation) h h'
  | captured {h h' : Machine} {caller : Caller} {operation : Id} {record r : DeliveryRecord}
      (step : CaptureStep h record r h') : Step (.reconcile caller operation) h h'
  | voided {h h' : Machine} {caller : Caller} {operation : Id} {digest : Digest} {v : VoidRecord}
      (step : VoidStep h operation digest v h') :
      Step (.voidBeforeSend caller operation digest) h h'
  | fenced {h h' : Machine} {caller : Caller} {request : Id} {body : GateBody} {r : GateReceipt}
      (step : FenceStep h request body r h') : Step (.fence caller request body) h h'
  | armed {h h' : Machine} {caller : Caller} {attempt : Id} {body : GateBody} {r : GateReceipt}
      (step : ArmStep h caller attempt body r h') : Step (.arm caller attempt body) h h'
  | granted {h h' : Machine} {caller : Caller} {request : Id} {resources : List Name}
      {fence ttlNs : Counter} {g : StoredGrant}
      (step : GrantStep h caller request resources fence ttlNs g h') :
      Step (.acquireGrant caller request resources fence ttlNs) h h'
  | renewed {h h' : Machine} {caller : Caller} {grant : Id} {sequence : Counter} {g : StoredGrant}
      (step : RenewStep h grant sequence g h') : Step (.renewGrant caller grant sequence) h h'
  | configured {h h' : Machine} {caller : Caller} {request : HostConfiguration.Request}
      {r : HostConfiguration.Receipt} (step : ConfigureStep h caller request r h') :
      Step (.acceptProcessConfiguration caller request) h h'
  | qualified {h h' : Machine} {caller : Caller} {request : HostQualification.Request}
      {r : HostQualification.Receipt} (step : QualifyStep h caller request r h') :
      Step (.acceptQualification caller request) h h'
  | acknowledged {h h' : Machine} {destination : Destination} {ack : PublicationAck}
      {cursor : PublicationCursor} (step : AckStep h destination ack cursor h') :
      Step (.acknowledgePublication destination ack) h h'

/-- Steps of one call. -/
abbrev Steps (c : Call) : Machine → Machine → Prop := ReflTransGen (Step c)

section Exec

variable {c : Call} {h : Machine}

omit [Ideal] in
theorem receipt_reads {caller : Caller} {operation : Id} :
    Gate.Reads (receipt caller operation) (fun _ => True) h := by
  refine Gate.Reads.authorized.seq fun _ _ => ?_
  refine (Gate.Reads.row _).seq fun row _ => ?_
  cases row with
  | none => exact Gate.Reads.refuse
  | some row => exact Gate.Reads.pure trivial

omit [Ideal] in
theorem viewReceipt_commits {s : Store} {operation : Id} :
    (viewReceipt operation).Commits (fun v s' => s' = s ∧
      (s.doc (.void operation) ≠ none → v.hostState = .voidedBeforeSend)) s := by
  simp only [viewReceipt, commits_bind, Tx.commits_fetch, Tx.commits_get]
  intro _ _
  cases hvoid : s.get (.void operation) with
  | some v => exact ⟨rfl, fun _ => rfl⟩
  | none =>
    simp only [commits_bind, Tx.commits_fetch, commits_pure]
    exact fun _ _ => ⟨trivial, fun h => absurd (Repository.doc_eq_none.mpr hvoid) h⟩

omit [Ideal] in
/-- A voided operation is reported as voided. -/
theorem receiptView_reads {caller : Caller} {operation : Id} :
    Gate.Reads (receiptView caller operation) (fun v =>
      h.store.doc (.void operation) ≠ none → v.hostState = .voidedBeforeSend) h := by
  refine Gate.Reads.authorized.seq fun _ _ => ?_
  exact Gate.Reads.transact viewReceipt_commits

omit [Ideal] in
theorem evidenceAfter_reads {caller : Caller} {after : Counter} {limit : ℕ} :
    Gate.Reads (evidenceAfter caller after limit)
      (· = (h.store.eventsAfter after limit).map fun e => (e.1, e.2.2)) h := by
  refine Gate.Reads.authorized.seq fun _ _ => ?_
  apply Gate.Reads.eventsAfter.seq
  rintro _ rfl
  exact Gate.Reads.pure rfl

/-- A call that only reads makes no step. -/
theorem Gate.Reads.steps {m : Gate c.Reply} {p : c.Reply → Prop} (hm : Gate.Reads m p h) :
    Gate.Runs m (fun _ => Steps c h) (fun _ => Steps c h) h :=
  hm.runs (fun _ _ => .refl) fun _ => .refl

theorem AuthorizeFailure.steps {h' : Machine} {caller : Caller} {request : Request}
    {invocation : Id} (hf : AuthorizeFailure h caller request invocation h') :
    Steps (.authorize caller request invocation) h h' := by
  cases hf with
  | unchanged => exact .refl
  | committed sent => exact .single (.sent sent)
  | entered entered => exact .single (.entered entered)
  | drawn entered => exact (ReflTransGen.single (.entered entered)).tail (.drew (Nat.le_succ _))

/-- Every run of a call is a sequence of steps, whether it returns, refuses or dies. -/
theorem Call.exec_runs (c : Call) (hreg : h.Regular) :
    Gate.Runs c.exec (fun _ => Steps c h) (fun _ => Steps c h) h := by
  have hsame : ∀ {c : Call} {h' : Machine}, h' = h → Steps c h h' := by
    rintro _ _ rfl
    exact .refl
  have hdrawn : ∀ {c : Call} {h' : Machine}, h' = h ∨ h' = { h with drawn := h.drawn + 1 } →
      Steps c h h' := by
    rintro _ _ (rfl | rfl)
    · exact .refl
    · exact .single (.drew (Nat.le_succ _))
  cases c with
  | bindPlatform caller =>
    exact Always.mono bindPlatform_runs (fun _ _ hs => .single (.bound hs)) fun _ _ => hsame
  | claimRpc caller method request semantic effect =>
    exact Always.mono claimRpc_runs (fun _ _ hs => .single (.claimed hs)) fun _ _ => hsame
  | bindBoot attempt =>
    exact Always.mono bindBoot_runs (fun _ _ hs => .single (.booted hs)) fun _ _ => hsame
  | serviceStopSnapshot =>
    refine Always.mono serviceStopSnapshot_runs ?_ ?_
    · rintro _ _ ⟨rfl, -⟩
      exact .single .disarmed
    · rintro _ _ (rfl | rfl)
      · exact .refl
      · exact .single .disarmed
  | prepare caller request =>
    refine Always.mono prepare_runs ?_ fun _ _ => hdrawn
    rintro r h' ⟨-, ⟨rfl, -⟩ | hs⟩
    · exact .refl
    · exact .single (.prepared hs)
  | authorize caller request invocation =>
    refine Always.mono (authorize_runs hreg) ?_ fun _ _ hf => hf.steps
    rintro r h' (⟨rfl, -⟩ | ⟨sent, h₁, henter, hcapture⟩)
    · exact .refl
    · exact (ReflTransGen.single (.entered henter)).tail (.finished hcapture)
  | voidBeforeSend caller operation digest =>
    refine Always.mono voidBeforeSend_runs ?_ fun _ _ => hsame
    rintro v h' (⟨rfl, -⟩ | hs)
    · exact .refl
    · exact .single (.voided hs)
  | receipt caller operation => exact receipt_reads.steps
  | receiptView caller operation => exact receiptView_reads.steps
  | evidenceAfter caller after limit => exact evidenceAfter_reads.steps
  | reconcile caller operation =>
    refine Always.mono (reconcile_runs hreg) ?_ fun _ _ => hdrawn
    rintro r h' ⟨record, -, ⟨rfl, -⟩ | hs⟩
    · exact .refl
    · exact .single (.captured hs)
  | fence caller request body =>
    refine Always.mono fence_runs ?_ fun _ _ => hsame
    rintro r h' (⟨rfl, -⟩ | hs)
    · exact .refl
    · exact .single (.fenced hs)
  | arm caller attempt body =>
    refine Always.mono arm_runs ?_ fun _ _ => hsame
    rintro r h' (⟨rfl, -⟩ | hs)
    · exact .refl
    · exact .single (.armed hs)
  | acquireGrant caller request resources fence ttlNs =>
    refine Always.mono acquireGrant_runs ?_ fun _ _ => hdrawn
    rintro g h' (⟨rfl, -⟩ | hs)
    · exact .refl
    · exact .single (.granted hs)
  | renewGrant caller grant sequence =>
    refine Always.mono renewGrant_runs ?_ fun _ _ => hsame
    rintro g h' (⟨rfl, -⟩ | hs)
    · exact .refl
    · exact .single (.renewed hs)
  | acceptProcessConfiguration caller request =>
    refine Always.mono acceptProcessConfiguration_runs ?_ ?_
    · rintro o h' ⟨r, -, ⟨rfl, -⟩ | hs⟩
      · exact .refl
      · exact .single (.configured hs)
    · rintro _ h' (rfl | ⟨r, hs⟩)
      · exact .refl
      · exact .single (.configured hs)
  | acceptQualification caller request =>
    refine Always.mono acceptQualification_runs ?_ ?_
    · rintro o h' ⟨r, -, ⟨rfl, -⟩ | hs⟩
      · exact .refl
      · exact .single (.qualified hs)
    · rintro _ h' (rfl | ⟨r, hs⟩)
      · exact .refl
      · exact .single (.qualified hs)
  | currentTarget cell => exact currentTarget_reads.steps
  | publicationChunk destination => exact publicationChunk_reads.steps
  | acknowledgePublication destination ack =>
    refine Always.mono acknowledgePublication_runs ?_ fun _ _ => hsame
    rintro cursor h' (⟨rfl, -⟩ | hs)
    · exact .refl
    · exact .single (.acknowledged hs)

end Exec

/-! ## Which rows a call writes -/

/-- The rows a call may write. -/
def Call.Writes : Call → Key → Prop
  | .claimRpc .. => fun k => k.booked = true
  | .bindBoot _ => fun k => k = .serviceLifecycle
  | .prepare _ _ => fun k => k.delivers = true ∨ ∃ p, k = .retiredPermit p
  | .authorize _ request _ => fun k => k.delivers = true ∨ k = .consumedPermit request.permit.id
  | .voidBeforeSend _ operation _ => fun k => k.delivers = true ∨ k = .void operation
  | .reconcile _ _ => fun k => k.delivers = true
  | .fence _ request body => fun k =>
    k = .hostMeta ∨ k = .cell body.cell ∨ k = .fenceRequest request
  | .arm _ attempt body => fun k => k = .hostMeta ∨ k = .cell body.cell ∨ k = .armRequest attempt
  | .acquireGrant _ request _ _ _ => fun k =>
    (∃ x, k = .resource x) ∨ (∃ g, k = .grant g) ∨ k = .grantRequest request
  | .renewGrant _ grant _ => fun k => k = .grant grant
  | .acceptProcessConfiguration caller request => fun k =>
    k = .hostMeta ∨ (∃ cell, k = .processContext cell) ∨ k.booked = true ∨
      k = .configurationRequest caller.peer request.id ∨
      k = .configurationSlot caller.peer request.change request.preparation ∨
      ∃ n, k = .configurationHistory n
  | .acceptQualification caller request => fun k =>
    k = .hostMeta ∨ (∃ t ∈ request.cells, Touches caller.peer t k) ∨
      k = .qualificationRequest caller.peer request.id ∨
      k = .qualificationSlot caller.peer request.review request.reviewRevision ∨
      ∃ n, k = .qualificationHistory n
  | .acknowledgePublication destination _ => fun k => ∃ j, k = .publisher destination j controlView
  | _ => fun _ => False

section Writes

variable {c : Call} {h h' : Machine} {k : Key}

/-- A step leaves every other row alone. -/
theorem Step.get_eq (step : Step c h h') (hk : ¬ c.Writes k) : h'.store.get k = h.store.get k := by
  cases step with
  | drew le => rfl
  | bound step => cases step; rfl
  | claimed step => cases step with | mk frame => exact frame.get k hk
  | booted step => cases step; exact Repository.get_write_of_ne hk _
  | disarmed => rfl
  | prepared step =>
    cases step with
    | fresh => exact ((Store.frame_delivered _ _ _).mono fun _ => .inl).get k hk
    | rebind =>
      exact ((Repository.Frame.write (.inr ⟨_, rfl⟩) _).trans
        ((Store.frame_delivered _ _ _).mono fun _ => .inl)).get k hk
  | sent step | entered step =>
    cases step
    exact ((Repository.Frame.write (.inr rfl) _).trans
      ((Store.frame_delivered _ _ _).mono fun _ => .inl)).get k hk
  | finished step =>
    cases step
    exact ((Store.frame_delivered _ _ _).mono fun _ => .inl).get k hk
  | captured step =>
    cases step
    exact (Store.frame_delivered _ _ _).get k hk
  | voided step =>
    cases step with
    | unknown =>
      exact (((Store.frame_numbered _ _).mono fun _ hm => .inl (by rw [hm]; rfl)).trans
        (.write (.inr rfl) _)).get k hk
    | prepared =>
      exact ((((Store.frame_delivered _ _ _).mono fun _ => .inl).trans
        ((Store.frame_numbered _ _).mono fun _ hm => .inl (by rw [hm]; rfl))).trans
          (.write (.inr rfl) _)).get k hk
  | fenced step | armed step =>
    cases step
    exact (((Repository.Frame.write (.inr (.inl rfl)) _).trans
      ((Store.frame_numbered _ _).mono fun _ => .inl)).trans
        (.write (.inr (.inr rfl)) _)).get k hk
  | granted step =>
    cases step with
    | mk granted =>
      refine (granted.frame.mono ?_).get k hk
      rintro _ (⟨x, -, rfl⟩ | rfl | rfl)
      · exact .inl ⟨x, rfl⟩
      · exact .inr (.inl ⟨_, rfl⟩)
      · exact .inr (.inr rfl)
  | renewed step =>
    cases step
    exact (Repository.Frame.write (by rfl) _).get k hk
  | configured step =>
    cases step with
    | mk configured same =>
      subst same
      refine (configured.frame.mono ?_).get k hk
      rintro _ (h | ⟨-, t, -, h⟩ | h | h | h | h)
      · exact .inl h
      · exact .inr (.inl ⟨_, h⟩)
      · exact .inr (.inr (.inl h))
      · exact .inr (.inr (.inr (.inl h)))
      · exact .inr (.inr (.inr (.inr (.inl h))))
      · exact .inr (.inr (.inr (.inr (.inr ⟨_, h⟩))))
  | qualified step =>
    cases step with
    | mk _ qualifies same =>
      subst same
      refine (qualifies.frame.mono ?_).get k hk
      rintro _ (h | ⟨-, h⟩ | h | h | h)
      · exact .inl h
      · exact .inr (.inl h)
      · exact .inr (.inr (.inl h))
      · exact .inr (.inr (.inr (.inl h)))
      · exact .inr (.inr (.inr (.inr ⟨_, h⟩)))
  | acknowledged step =>
    cases step
    exact (Repository.Frame.write ⟨_, rfl⟩ _).get k hk

end Writes

end RxSolutions.Host
