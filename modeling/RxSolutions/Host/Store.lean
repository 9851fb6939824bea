import RxSolutions.Durable.Repository
import RxSolutions.Host.ServiceModel

/-!
# The host store

Every record of the host lives under a key made of a kind and the digest of a value.
With collision-free digests such a key is that kind and that value, and the kind
fixes the document's schema. Journal events are evidence records.
-/

namespace RxSolutions.Host

open Domain Durable
open Repository (doc_write_self doc_write_of_ne get_write_of_ne)

/-- The documents of a host. -/
inductive Key
  | hostMeta
  | cell (cell : Name)
  | delivery (operation : Id)
  | deliveryHistory (sequence : Counter)
  | void (operation : Id)
  | consumedPermit (permit : Id)
  | retiredPermit (permit : Id)
  | grant (grant : Id)
  | grantRequest (request : Id)
  | resource (resource : Name)
  | fenceRequest (request : Id)
  | armRequest (attempt : Id)
  | processContext (cell : Name)
  | acceptedQualification (cell : Name)
  | configurationRequest (peer : Name) (request : Id)
  | configurationSlot (peer : Name) (change : Id) (preparation : Counter)
  | configurationHistory (sequence : Counter)
  | qualificationRequest (peer : Name) (request : Id)
  | qualificationSlot (peer : Name) (review : Id) (revision : Counter)
  | qualificationHistory (sequence : Counter)
  | qualificationIdentity (peer : Name) (cell : Name) (qualification : Id) (revision : Counter)
  | qualificationMaximum (peer : Name) (cell : Name) (qualification : Id)
  | publisher (destination : Destination) (journal : Id) (view : String)
  | rpcKey (peer method : Name) (request : Id)
  | rpcEffect (peer method effect : Name)
  | hostBindingRequired (cell : Name)
  | serviceLifecycle
  | serviceStart (attempt : Id)
  | serviceStop (attempt : Id)
  | maintenanceActive
  | maintenanceRequest (request : Id)
  | maintenancePrepared (request : Id)
  | maintenanceCancelled (request : Id)
  | maintenanceCommit (request : Id)
  deriving DecidableEq

/-- The records of calls, of the service lifecycle and of maintenance. -/
def Key.bookkeeping : Key → Bool
  | .rpcKey _ _ _ | .rpcEffect _ _ _ | .hostBindingRequired _ | .serviceLifecycle
  | .serviceStart _ | .serviceStop _ | .maintenanceActive | .maintenanceRequest _
  | .maintenancePrepared _ | .maintenanceCancelled _ | .maintenanceCommit _ => true
  | _ => false

/-- The records of calls, and the barriers after a binding change. -/
def Key.booked : Key → Bool
  | .rpcKey _ _ _ | .rpcEffect _ _ _ | .hostBindingRequired _ => true
  | _ => false

/-- The records of the service lifecycle and of maintenance: those under `host-service/` and
`host-maintenance/`. -/
def Key.service : Key → Bool
  | .serviceLifecycle | .serviceStart _ | .serviceStop _ | .maintenanceActive
  | .maintenanceRequest _ | .maintenancePrepared _ | .maintenanceCancelled _
  | .maintenanceCommit _ => true
  | _ => false

/-- The journals and the deliveries numbered by them. -/
def Key.delivers : Key → Bool
  | .hostMeta | .delivery _ | .deliveryHistory _ => true
  | _ => false

/-- What is stored about operations and their permits. -/
def Key.operational : Key → Bool
  | .delivery _ | .deliveryHistory _ | .void _ | .consumedPermit _ | .retiredPermit _ => true
  | _ => false

/-- The records that are written once and never replaced. -/
def Key.once : Key → Bool
  | .deliveryHistory _ | .void _ | .consumedPermit _ | .retiredPermit _ | .grantRequest _
  | .fenceRequest _ | .armRequest _ | .configurationRequest _ _ | .configurationSlot _ _ _
  | .configurationHistory _ | .qualificationRequest _ _ | .qualificationSlot _ _ _
  | .qualificationHistory _ | .qualificationIdentity _ _ _ _ => true
  | _ => false

theorem Key.bookkeeping_of_booked {k : Key} (h : k.booked = true) : k.bookkeeping = true := by
  cases k <;> simp_all [Key.bookkeeping, Key.booked]

theorem Key.once_eq_false {k : Key} (h : k.bookkeeping = true) : k.once = false := by
  cases k <;> simp_all [Key.bookkeeping, Key.once]

theorem Key.operational_eq_false {k : Key} (h : k.bookkeeping = true) : k.operational = false := by
  cases k <;> simp_all [Key.bookkeeping, Key.operational]

/-- The document a key holds. -/
@[reducible] def Key.Doc : Key → Type
  | .hostMeta => HostMeta
  | .cell _ => CellState
  | .delivery _ | .deliveryHistory _ => DeliveryRecord
  | .void _ => VoidRecord
  | .consumedPermit _ => Id × Id
  | .retiredPermit _ => Id
  | .grant _ => StoredGrant
  | .grantRequest _ => Digest × StoredGrant
  | .resource _ => ResourceFence
  | .fenceRequest _ | .armRequest _ => Digest × GateReceipt
  | .processContext _ => HostConfiguration.AppliedContext
  | .acceptedQualification _ => Accepted
  | .configurationRequest _ _ | .configurationHistory _ => HostConfiguration.Receipt
  | .configurationSlot _ _ _ | .qualificationSlot _ _ _ => Id
  | .qualificationRequest _ _ | .qualificationHistory _ => HostQualification.Receipt
  | .qualificationIdentity _ _ _ _ => Digest
  | .qualificationMaximum _ _ _ => Counter
  | .publisher _ _ _ => PublicationCursor
  | .rpcKey _ _ _ | .rpcEffect _ _ _ => Digest
  | .hostBindingRequired _ => BindingRequirement
  | .serviceLifecycle | .serviceStart _ => Lifecycle
  | .serviceStop _ => StopSeal
  | .maintenanceActive | .maintenanceRequest _ | .maintenancePrepared _
  | .maintenanceCancelled _ => Preparation
  | .maintenanceCommit _ => CommitRecord

/-- The durable store of a host. -/
abbrev Store := Repository Key.Doc Id EvidenceRecord

/-- A transaction body. -/
abbrev Tx (α : Type) := Program Store StoreError α

namespace Tx

/-- `Transaction::get`. -/
def get (k : Key) : Tx (Option (Row k.Doc)) := Repository.read k

/-- `Transaction::put`. -/
def put (k : Key) (expected : Option Counter) (v : k.Doc) : Tx Unit :=
  Repository.put .revisionConflict k expected v

/-- `Transaction::append`. -/
def append (evidence : EvidenceRecord) : Tx Counter :=
  Repository.append .keyConflict evidence.evidenceId evidence

/-- The row at a key that must exist. -/
def fetch (k : Key) (missing : StoreError) : Tx (Row k.Doc) := do
  orThrow (← get k) missing

/-- The value of a check that may fail with a text. -/
def checked {α : Type} (r : Except String α) (failure : String → StoreError) : Tx α :=
  match r with
  | .ok a => pure a
  | .error e => throw (failure e)

end Tx

/-- All delivery records, which `scan("delivery/")` returns. -/
def Store.deliveries (s : Store) : List DeliveryRecord :=
  s.scan fun k row =>
    match k, row with
    | .delivery _, row => some row.document
    | _, _ => none

theorem Store.mem_deliveries {s : Store} {r : DeliveryRecord} :
    r ∈ s.deliveries ↔ ∃ op row, s.get (.delivery op) = some row ∧ row.document = r := by
  unfold Store.deliveries
  rw [Repository.mem_scan]
  constructor
  · rintro ⟨k, row, hget, hsel⟩
    cases k <;> simp_all
    exact ⟨_, _, hget, hsel⟩
  · rintro ⟨op, row, hget, rfl⟩
    exact ⟨.delivery op, row, hget, rfl⟩

/-- `scan("delivery/")` inside a transaction. -/
def Tx.scanDeliveries : Tx (List DeliveryRecord) := do
  return (← MonadState.get).deliveries

/-! ## The delivery journal -/

/-- `next_sequence`: the next number of the delivery journal, and the journal. -/
def nextSequence : Tx (Counter × Id) := do
  let row ← Tx.fetch .hostMeta (.integrity "Host meta missing")
  let sequence ← orThrow (increment row.document.deliverySeq) (.integrity "counter overflow")
  Tx.put .hostMeta (some row.revision) { row.document with deliverySeq := sequence }
  return (sequence, row.document.deliveryJournal)

/-- `record_delivery`: write a delivery record under a new sequence number, in its
place and in the history. The record returned carries its number. -/
def recordDelivery (record : DeliveryRecord) (expected : Option Counter) : Tx DeliveryRecord := do
  let (sequence, _) ← nextSequence
  let record := { record with journalSeq := sequence }
  Tx.put (.delivery record.operation) expected record
  Tx.put (.deliveryHistory sequence) none record
  return record

/-- The journals after the next number of the delivery journal was taken. -/
def HostMeta.next (m : HostMeta) : HostMeta := { m with deliverySeq := m.deliverySeq + 1 }

@[simp] theorem HostMeta.next_deliverySeq (m : HostMeta) :
    m.next.deliverySeq = m.deliverySeq + 1 := rfl

@[simp] theorem HostMeta.next_deliveryJournal (m : HostMeta) :
    m.next.deliveryJournal = m.deliveryJournal := rfl

@[simp] theorem HostMeta.next_evidenceJournal (m : HostMeta) :
    m.next.evidenceJournal = m.evidenceJournal := rfl

/-- The record under the next number of the delivery journal. -/
@[simps operation digest state intent evidenceIds invocation journalSeq]
def DeliveryRecord.numbered (r : DeliveryRecord) (m : HostMeta) : DeliveryRecord :=
  { r with journalSeq := m.deliverySeq + 1 }

namespace Store

variable {s : Store} {m : HostMeta} {r : DeliveryRecord} {k : Key}

/-- The store after the next number of the delivery journal was taken. -/
def numbered (s : Store) (m : HostMeta) : Store := s.write .hostMeta m.next

/-- The store after a delivery record was written under the next number. -/
def delivered (s : Store) (m : HostMeta) (r : DeliveryRecord) : Store :=
  ((s.numbered m).write (.delivery r.operation) (r.numbered m)).write
    (.deliveryHistory (m.deliverySeq + 1)) (r.numbered m)

@[simp] theorem doc_numbered_hostMeta : (s.numbered m).doc .hostMeta = some m.next :=
  doc_write_self _

theorem doc_numbered_of_ne (hk : k ≠ .hostMeta) : (s.numbered m).doc k = s.doc k :=
  doc_write_of_ne hk _

theorem frame_numbered (s : Store) (m : HostMeta) :
    Repository.Frame (fun k => k = Key.hostMeta) s (s.numbered m) :=
  .write (by rfl) _

@[simp] theorem events_numbered : (s.numbered m).events = s.events := rfl

@[simp] theorem doc_delivered_hostMeta : (s.delivered m r).doc .hostMeta = some m.next := by
  rw [delivered, doc_write_of_ne (by simp), doc_write_of_ne (by simp),
    doc_numbered_hostMeta]

@[simp] theorem doc_delivered_delivery :
    (s.delivered m r).doc (.delivery r.operation) = some (r.numbered m) := by
  rw [delivered, doc_write_of_ne (by simp), doc_write_self]

@[simp] theorem doc_delivered_history :
    (s.delivered m r).doc (.deliveryHistory (m.deliverySeq + 1)) = some (r.numbered m) :=
  doc_write_self _

/-- A delivery changes the journals, its record and its place in the history only. -/
theorem get_delivered_of_ne (hmeta : k ≠ .hostMeta) (hdelivery : k ≠ .delivery r.operation)
    (hhistory : k ≠ .deliveryHistory (m.deliverySeq + 1)) : (s.delivered m r).get k = s.get k := by
  rw [delivered, get_write_of_ne hhistory, get_write_of_ne hdelivery,
    numbered, get_write_of_ne hmeta]

theorem doc_delivered_of_ne (hmeta : k ≠ .hostMeta) (hdelivery : k ≠ .delivery r.operation)
    (hhistory : k ≠ .deliveryHistory (m.deliverySeq + 1)) : (s.delivered m r).doc k = s.doc k :=
  Repository.doc_congr (get_delivered_of_ne hmeta hdelivery hhistory)

/-- A delivery touches its own rows and the numbers. -/
theorem frame_delivered (s : Store) (m : HostMeta) (r : DeliveryRecord) :
    Repository.Frame (fun k => k.delivers = true) s (s.delivered m r) :=
  ((Repository.Frame.write (by rfl) _).trans (.write (by rfl) _)).trans (.write (by rfl) _)

/-- A delivery takes a number that is not in use. -/
theorem keeps_delivered (hunused : s.doc (.deliveryHistory (m.deliverySeq + 1)) = none) :
    Repository.Keeps (fun k => k.once = true) s (s.delivered m r) := by
  refine ((Repository.Keeps.write_of_not (by simp [Key.once]) _).trans
    (.write_of_not (by simp [Key.once]) _)).trans (.write_new ?_ _)
  rw [doc_write_of_ne (by simp), doc_write_of_ne (by simp), hunused]

@[simp] theorem events_delivered : (s.delivered m r).events = s.events := rfl

theorem doc_delivered_delivery_of_ne {op : Id} (h : op ≠ r.operation) :
    (s.delivered m r).doc (.delivery op) = s.doc (.delivery op) :=
  doc_delivered_of_ne (by simp) (by simpa using h) (by simp)

/-- Every delivery record is stored under its operation. -/
def Filed (s : Store) : Prop := ∀ op r, s.doc (.delivery op) = some r → r.operation = op

theorem Filed.congr {s' : Store} (hs : s.Filed)
    (h : ∀ op, s'.doc (.delivery op) = s.doc (.delivery op)) : s'.Filed :=
  fun op r hr => hs op r ((h op).symm.trans hr)

theorem Filed.write_of_ne (hs : s.Filed) (hk : ∀ op, Key.delivery op ≠ k) (v : k.Doc) :
    Filed (s.write k v) :=
  hs.congr fun op => doc_write_of_ne (hk op) v

/-- A delivery is filed under its operation. -/
theorem Filed.delivered (hs : s.Filed) : (s.delivered m r).Filed := by
  intro op x hx
  by_cases hop : op = r.operation
  · subst hop
    obtain rfl := Option.some.inj (doc_delivered_delivery.symm.trans hx)
    rfl
  · exact hs op x ((doc_delivered_delivery_of_ne hop).symm.trans hx)

end Store

/-! ## What a transaction commits -/

namespace Tx

open Program

variable {α : Type} {ok : α → Store → Prop} {s : Store}

-- the type of a row reduces with its key, so it must not be part of the index of these rules
@[simp] theorem commits_get {k : Key} {ok : Option (Row k.Doc) → Store → Prop} :
    @Commits _ StoreError (no_index _) (get k) ok s ↔ ok (s.get k) s := Iff.rfl

theorem wp_get {k : Key} {ok : Option (Row k.Doc) → Store → Prop}
    {err : StoreError → Store → Prop} :
    @wp _ StoreError (no_index _) (get k) ok err s ↔ ok (s.get k) s := Iff.rfl

theorem wp_fetch {k : Key} {ok : Row k.Doc → Store → Prop} {err : StoreError → Store → Prop}
    {missing : StoreError} {row : Row k.Doc} (hrow : s.get k = some row) :
    @wp _ StoreError (no_index _) (fetch k missing) ok err s ↔ ok row s := by
  rw [fetch, wp_bind, wp_get, hrow]
  exact Iff.rfl

@[simp] theorem commits_put {k : Key} {ok : Unit → Store → Prop} {expected : Option Counter}
    {v : k.Doc} :
    Commits (put k expected v) ok s ↔
      ((s.get k).map Row.revision = expected → ok () (s.write k v)) :=
  Repository.commits_put

@[simp] theorem commits_fetch {k : Key} {ok : Row k.Doc → Store → Prop} {missing : StoreError} :
    @Commits _ StoreError (no_index _) (fetch k missing) ok s ↔
      ∀ row, s.get k = some row → ok row s := by
  simp [fetch]

@[simp] theorem commits_checked {r : Except String α} {failure : String → StoreError} :
    Commits (checked r failure) ok s ↔ ∀ a, r = .ok a → ok a s := by
  cases r <;> simp [checked]

@[simp] theorem commits_scanDeliveries {ok : List DeliveryRecord → Store → Prop} :
    Commits scanDeliveries ok s ↔ ok s.deliveries s := Iff.rfl

@[simp] theorem commits_nextSequence {ok : Counter × Id → Store → Prop} :
    Commits nextSequence ok s ↔ ∀ m, s.doc .hostMeta = some m → m.deliverySeq + 1 < counterBound →
      ok (m.deliverySeq + 1, m.deliveryJournal) (s.numbered m) := by
  simp only [nextSequence, commits_bind, commits_fetch, commits_orThrow, commits_put, commits_pure,
    Repository.doc_eq_some]
  constructor
  · rintro h m ⟨n, hrow⟩ hbound
    exact h _ hrow _ (if_pos hbound) (by rw [hrow, Option.map_some])
  · intro h row hrow sequence hsequence _
    unfold increment checkedAdd at hsequence
    split at hsequence
    · cases hsequence
      exact h _ ⟨_, hrow⟩ ‹_›
    · cases hsequence

@[simp] theorem commits_recordDelivery {ok : DeliveryRecord → Store → Prop} {r : DeliveryRecord}
    {expected : Option Counter} :
    Commits (recordDelivery r expected) ok s ↔ ∀ m, s.doc .hostMeta = some m →
      m.deliverySeq + 1 < counterBound →
      (s.get (.delivery r.operation)).map Row.revision = expected →
      s.doc (.deliveryHistory (m.deliverySeq + 1)) = none →
        ok (r.numbered m) (s.delivered m r) := by
  simp only [recordDelivery, commits_bind, commits_nextSequence, commits_put, commits_pure,
    Repository.doc_eq_none, Option.map_eq_none_iff]
  refine forall₃_congr fun m hm hbound => ?_
  rw [Store.numbered, get_write_of_ne (by simp), get_write_of_ne (by simp),
    get_write_of_ne (by simp)]
  exact Iff.rfl

end Tx

end RxSolutions.Host
