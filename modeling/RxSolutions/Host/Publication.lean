import RxSolutions.Host.Receipts

/-!
# Publishing evidence

For each destination the store keeps a cursor: how much of the evidence journal the
platform has acknowledged, and up to which of its own sequence numbers. A chunk is
what lies beyond the cursor. The publisher sends a part of a chunk and records the
acknowledgement it gets; other calls may run in between.
-/

namespace RxSolutions.Host

open Domain Durable Program

/-- `CONTROL_VIEW`. -/
def controlView : String := "site-cell-control-v1"

/-- A part of the evidence journal, as it is published. -/
structure PublicationChunk where
  host : Name
  boot : Id
  journal : Id
  first : Counter
  tail : Counter
  records : List EvidenceRecord
  cursor : PublicationCursor
  deriving DecidableEq

/-- The platform's acknowledgement of a chunk. -/
structure PublicationAck where
  installation : Id
  storeGeneration : Id
  viewId : String
  journal : Id
  through : Counter
  platformSequence : Counter
  deriving DecidableEq

/-- `check_destination`. -/
def checkDestination (destination : Destination) : Gate Unit := do
  let c ← core
  require (∀ b ∈ c.bindings, b.platform = destination.platform) .forbidden

/-- `publication_chunk`. -/
def publicationChunk (destination : Destination) : Gate PublicationChunk := do
  checkDestination destination
  let c ← core
  let journals := (← transact (Tx.fetch .hostMeta (.integrity "Host meta missing"))).document
  let stored ← transact (Tx.get (.publisher destination journals.evidenceJournal controlView))
  let cursor := (stored.map Row.document).getD
    { journal := journals.evidenceJournal, through := 0, platformSequence := 0 }
  let tail ← journalHead
  require (cursor.journal = journals.evidenceJournal ∧ cursor.through ≤ tail)
    (.invalid "evidence journal no longer covers durable acknowledgment")
  match increment cursor.through with
  | none => refuse (.invalid "counter overflow")
  | some first =>
    let events ← eventsAfter cursor.through 128
    require (∀ e ∈ events.zipIdx, e.1.1 = first + e.2) (.invalid "retained evidence gap")
    return {
      host := c.host
      boot := c.boot
      journal := journals.evidenceJournal
      first := first
      tail := tail
      records := events.map fun e => e.2.2
      cursor := cursor }

/-- The cursor an acknowledgement leads to. -/
def PublicationAck.cursor (ack : PublicationAck) : PublicationCursor where
  journal := ack.journal
  through := ack.through
  platformSequence := ack.platformSequence

/-- The transaction of `acknowledge_publication`. -/
def recordAck (destination : Destination) (ack : PublicationAck) : Tx PublicationCursor := do
  let journals := (← Tx.fetch .hostMeta (.integrity "Host meta missing")).document
  ensure (ack.journal = journals.evidenceJournal) (.invalid "acknowledgment journal mismatch")
  match ← Tx.get (.publisher destination journals.evidenceJournal controlView) with
  | none =>
    Tx.put (.publisher destination journals.evidenceJournal controlView) none ack.cursor
    return ack.cursor
  | some row =>
    let previous := row.document
    if ack.through ≤ previous.through ∧ ack.platformSequence ≤ previous.platformSequence then
      return previous
    else
      ensure (previous.through ≤ ack.through ∧ previous.platformSequence ≤ ack.platformSequence)
        (.integrity "acknowledgment cursor regression")
      Tx.put (.publisher destination journals.evidenceJournal controlView) (some row.revision)
        ack.cursor
      return ack.cursor

/-- `acknowledge_publication`. -/
def acknowledgePublication (destination : Destination) (ack : PublicationAck) :
    Gate PublicationCursor := do
  checkDestination destination
  let tail ← journalHead
  require (ack.installation = destination.installation ∧
      ack.storeGeneration = destination.storeGeneration ∧ ack.viewId = controlView ∧
      ack.through ≤ tail) (.invalid "acknowledgment destination/range mismatch")
  transact (recordAck destination ack)

/-! ## What these calls can do -/

/-- The acknowledgement names the destination, the control view and the journal. -/
structure PublicationAck.Addressed (ack : PublicationAck) (destination : Destination)
    (m : HostMeta) : Prop where
  installation : ack.installation = destination.installation
  storeGeneration : ack.storeGeneration = destination.storeGeneration
  view : ack.viewId = controlView
  journal : ack.journal = m.evidenceJournal

/-- The stored cursor of a destination. -/
def Store.cursor (s : Store) (destination : Destination) (m : HostMeta) :
    Option PublicationCursor :=
  s.doc (.publisher destination m.evidenceJournal controlView)

/-- What a chunk says of the machine it was taken from. -/
structure PublicationChunk.Extends (chunk : PublicationChunk) (h : Machine)
    (destination : Destination) (m : HostMeta) : Prop where
  journals : h.store.doc .hostMeta = some m
  journal : chunk.journal = m.evidenceJournal
  cursor : chunk.cursor = (h.store.cursor destination m).getD ⟨m.evidenceJournal, 0, 0⟩
  first : chunk.first = chunk.cursor.through + 1
  tail : chunk.tail = h.store.events.length
  covered : chunk.cursor.through ≤ h.store.events.length
  records : chunk.records = ((h.store.events.drop chunk.cursor.through).take 128).map Prod.snd

variable {h : Machine} {destination : Destination}

theorem checkDestination_reads :
    Gate.Reads (checkDestination destination)
      (fun _ => ∀ b ∈ h.core.bindings, b.platform = destination.platform) h := by
  refine Gate.Reads.core.seq ?_
  rintro _ rfl
  exact Gate.Reads.require

/-- `publication_chunk` only reads, and returns what lies beyond the stored cursor. -/
theorem publicationChunk_reads :
    Gate.Reads (publicationChunk destination) (fun c => ∃ m, c.Extends h destination m) h := by
  refine checkDestination_reads.seq fun _ _ => ?_
  refine Gate.Reads.core.seq ?_
  rintro _ rfl
  refine (Gate.Reads.transact (Tx.commits_fetch.mpr fun row hrow =>
    ⟨rfl, Repository.doc_of_get hrow⟩)).seq fun row hjournals => ?_
  refine (Gate.Reads.row _).seq ?_
  rintro _ rfl
  refine Gate.Reads.journalHead.seq ?_
  rintro _ rfl
  refine Gate.Reads.require.seq fun _ hcovered => ?_
  split
  · exact Gate.Reads.refuse
  next first hfirst =>
    refine Gate.Reads.eventsAfter.seq ?_
    rintro _ rfl
    refine Gate.Reads.require.seq fun _ _ => ?_
    refine Gate.Reads.pure ⟨row.document, hjournals, rfl, rfl, increment_eq_some hfirst, rfl,
      hcovered.2, ?_⟩
    rw [← Repository.map_eventsAfter, List.map_map]
    rfl

/-- An acknowledgement moved the cursor of its destination forward. -/
inductive AckStep (h : Machine) (destination : Destination) (ack : PublicationAck) :
    PublicationCursor → Machine → Prop
  | mk {m : HostMeta}
      (journals : h.store.doc .hostMeta = some m)
      (addressed : ack.Addressed destination m)
      (range : ack.through ≤ h.store.events.length)
      (ahead : ∀ previous, h.store.cursor destination m = some previous →
        previous.through ≤ ack.through ∧ previous.platformSequence ≤ ack.platformSequence ∧
          (previous.through < ack.through ∨ previous.platformSequence < ack.platformSequence)) :
      AckStep h destination ack ack.cursor { h with
        store := h.store.write (.publisher destination m.evidenceJournal controlView) ack.cursor }

/-- `acknowledge_publication` returns the stored cursor if the acknowledgement is not ahead of
it in either coordinate, and makes a step otherwise. -/
theorem acknowledgePublication_runs {ack : PublicationAck} :
    Gate.Runs (acknowledgePublication destination ack)
      (fun c h' => (h' = h ∧ ∃ m, h.store.doc .hostMeta = some m ∧ ack.Addressed destination m ∧
          ack.through ≤ h.store.events.length ∧ h.store.cursor destination m = some c ∧
          ack.through ≤ c.through ∧ ack.platformSequence ≤ c.platformSequence) ∨
        AckStep h destination ack c h')
      (fun _ h' => h' = h) h := by
  refine checkDestination_reads.bind (fun _ => rfl) fun _ _ => ?_
  refine Gate.Reads.journalHead.bind (fun _ => rfl) ?_
  rintro _ rfl
  refine Gate.Reads.require.bind (fun _ => rfl) fun _ haddress => ?_
  refine Gate.Runs.transact ?_ fun _ => rfl
  simp only [recordAck, commits_bind, Tx.commits_fetch, commits_ensure, Tx.commits_get]
  intro row hrow hjournal
  have hjournals := Repository.doc_of_get hrow
  have haddressed : ack.Addressed destination row.document :=
    ⟨haddress.1, haddress.2.1, haddress.2.2.1, hjournal⟩
  cases hstored : h.store.get (.publisher destination row.document.evidenceJournal controlView) with
  | none =>
    simp only [commits_bind, Tx.commits_put, commits_pure]
    intro _
    refine .inr (.mk hjournals haddressed haddress.2.2.2 fun previous hprevious => ?_)
    rw [Store.cursor, Repository.doc_eq_none.mpr hstored] at hprevious
    cases hprevious
  | some stored =>
    have hcursor : h.store.cursor destination row.document = some stored.document :=
      Repository.doc_of_get hstored
    by_cases hbehind : ack.through ≤ stored.document.through ∧
        ack.platformSequence ≤ stored.document.platformSequence
    · dsimp only
      rw [if_pos hbehind]
      exact .inl ⟨rfl, _, hjournals, haddressed, haddress.2.2.2, hcursor, hbehind⟩
    · dsimp only
      rw [if_neg hbehind]
      simp only [commits_bind, commits_ensure, Tx.commits_put, commits_pure]
      intro hahead _
      refine .inr (.mk hjournals haddressed haddress.2.2.2 fun previous hprevious => ?_)
      obtain rfl := Option.some.inj (hcursor.symm.trans hprevious)
      refine ⟨hahead.1, hahead.2, ?_⟩
      by_contra hle
      exact hbehind ⟨not_lt.mp fun h => hle (.inl h), not_lt.mp fun h => hle (.inr h)⟩

/-! ## The publisher -/

namespace Publisher

/-- What the publisher keeps of a connection. Instants are nanoseconds. -/
structure Connection where
  probe : Bool
  lastProbe : Option ℕ
  maxBatch : ℕ
  maxBytes : ℕ

/-- `Connection::needs_probe`: at most one empty batch a second while there is nothing to
send, and one after connecting. -/
def Connection.needsProbe (c : Connection) (recordsEmpty : Bool) (now : ℕ) : Bool :=
  c.probe || recordsEmpty && c.lastProbe.all fun last => last + 1000000000 ≤ now

/-- Why a publication fails. -/
inductive Error
  | local (error : HostError)
  | dataLoss (detail : String)
  deriving DecidableEq

/-- An evidence batch on its way: the records and the number of the first of them. -/
structure Batch where
  journal : Id
  firstSeq : Counter
  records : List EvidenceRecord

/-- Drop records from the end while the batch is too large. -/
def trim (encodedLen : List EvidenceRecord → ℕ) (maxBytes : ℕ) : ℕ → List EvidenceRecord →
    List EvidenceRecord
  | 0, records => records
  | fuel + 1, records =>
    if maxBytes < encodedLen records ∧ records ≠ [] then
      trim encodedLen maxBytes fuel records.dropLast
    else records

/-- The first half of `tick`: the batch to send, or `none` if there is nothing to do.
`encodedLen` is the encoded size of the batch with the given records. -/
def plan (c : Connection) (encodedLen : List EvidenceRecord → ℕ) (now : ℕ)
    (chunk : PublicationChunk) : Except Error (Option Batch) :=
  let probe := c.needsProbe chunk.records.isEmpty now
  if ¬ probe ∧ chunk.records = [] then .ok none
  else
    let selected := if probe then [] else chunk.records.take c.maxBatch
    let records := trim encodedLen c.maxBytes selected.length selected
    if c.maxBytes < encodedLen records ∨ ¬ probe ∧ records = [] then
      .error (.local (.invalid "one evidence record exceeds negotiated transport size"))
    else .ok (some { journal := chunk.journal, firstSeq := chunk.first, records := records })

/-- The platform's position in its own journal, as it reports it. -/
structure PlatformCursor where
  installation : String
  storeGeneration : String
  viewId : String
  seq : Counter

/-- The platform's answer to a batch. -/
structure EvidenceAck where
  producerJournal : String
  throughSeq : Counter
  platformCursor : Option PlatformCursor

/-- `minimum_ack`: the number of the last event of the batch. -/
def Batch.minimumAck (b : Batch) : Counter := b.firstSeq - 1 + b.records.length

/-- The second half of `tick`: the acknowledgement to record for an answer. -/
def settle (parseId : String → Option Id) (batch : Batch) (answer : EvidenceAck) :
    Except Error PublicationAck := do
  if answer.throughSeq < batch.minimumAck then throw (.dataLoss "partial batch acknowledgment")
  match answer.platformCursor with
  | none => throw (.dataLoss "durable ack cursor missing")
  | some platform =>
    let parse (value : String) : Except Error Id :=
      match parseId value with
      | some i => .ok i
      | none => .error (.dataLoss "invalid acknowledgment identity")
    return {
      installation := ← parse platform.installation
      storeGeneration := ← parse platform.storeGeneration
      viewId := platform.viewId
      journal := ← parse answer.producerJournal
      through := answer.throughSeq
      platformSequence := platform.seq }

end Publisher

end RxSolutions.Host
