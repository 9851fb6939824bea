import RxSolutions.Host.Records

/-!
# Publication loses and repeats nothing

The cursor of a destination says how much of the evidence journal the platform has
acknowledged. Only `acknowledge_publication` writes cursors, it moves them forward and
never beyond the journal, and the journal only grows; so what lies beyond a cursor stays
to be published until an acknowledgement for that destination covers it. A publisher
that sends a part of a chunk may be overtaken by any other call before it records the
answer.
-/

namespace RxSolutions.Host

open Domain Durable Program Relation

/-! ## Cursors only move forward -/

section Cursors

variable [Ideal] {c : Call} {h h' : Machine} {d d' : Disk} {destination : Destination} {j : Id}
  {view : String}

theorem Step.cursors (step : Step c h h') :
    (∀ destination j view, h'.store.get (.publisher destination j view) =
      h.store.get (.publisher destination j view)) ∨
    ∃ destination ack cursor, AckStep h destination ack cursor h' := by
  by_cases hc : ∃ destination ack, c = .acknowledgePublication destination ack
  · obtain ⟨destination, ack, rfl⟩ := hc
    cases step with
    | drew => exact .inl fun _ _ _ => rfl
    | acknowledged step => exact .inr ⟨destination, ack, _, step⟩
  · left
    intro destination j view
    apply step.get_eq
    intro hw
    cases c <;> simp_all [Call.Writes, Key.booked, Key.delivers, Touches]

/-- A commit leaves the cursors alone, or moves one. -/
theorem Disk.Move.cursors (move : d.Move d') :
    (∀ destination j view, d'.store.get (.publisher destination j view) =
      d.store.get (.publisher destination j view)) ∨
    ∃ h h' : Machine, ∃ destination ack cursor, d = h.toDisk ∧ d' = h'.toDisk ∧
      AckStep h destination ack cursor h' := by
  cases move with
  | drew => exact .inl fun _ _ _ => rfl
  | booked frame => exact .inl fun _ _ _ => frame.get _ (by simp [Key.bookkeeping])
  | opened step => cases step with
    | mk opened => exact .inl fun _ _ _ => opened.frame.get _ (by simp)
  | stepped step =>
    rcases step.cursors with hsame | ⟨destination, ack, cursor, hstep⟩
    · exact .inl hsame
    · exact .inr ⟨_, _, destination, ack, cursor, rfl, rfl, hstep⟩

/-- Neither coordinate of a cursor is behind the other's. -/
structure PublicationCursor.Behind (c c' : PublicationCursor) : Prop where
  through : c.through ≤ c'.through
  platformSequence : c.platformSequence ≤ c'.platformSequence

omit [Ideal] in
theorem PublicationCursor.Behind.refl (c : PublicationCursor) : c.Behind c := ⟨le_rfl, le_rfl⟩

omit [Ideal] in
theorem PublicationCursor.Behind.trans {c c' c'' : PublicationCursor} (h : c.Behind c')
    (h' : c'.Behind c'') : c.Behind c'' :=
  ⟨h.through.trans h'.through, h.platformSequence.trans h'.platformSequence⟩

/-- A cursor never falls in either coordinate. -/
theorem Disk.Moves.cursor_le (hd : d.Reachable) (hm : d.Moves d') {cursor : PublicationCursor}
    (hcursor : d.store.doc (.publisher destination j view) = some cursor) :
    ∃ cursor', d'.store.doc (.publisher destination j view) = some cursor' ∧
      cursor.Behind cursor' := by
  apply Moves.row (k := .publisher destination j view) (R := PublicationCursor.Behind) .refl
    (fun _ _ _ => .trans) _ hd hm hcursor
  intro d d' move _ cursor hcursor
  rcases move.cursors with hsame | ⟨h, h', destination', ack, new, rfl, rfl, hstep⟩
  · exact ⟨cursor, (Repository.doc_congr (hsame _ _ _)).trans hcursor, .refl _⟩
  · cases hstep with
    | @mk m journals addressed range ahead =>
      by_cases hkey : Key.publisher destination j view =
          .publisher destination' m.evidenceJournal controlView
      · obtain ⟨rfl, rfl, rfl⟩ := Key.publisher.inj hkey
        obtain ⟨hthrough, hsequence, -⟩ := ahead cursor hcursor
        exact ⟨ack.cursor, Repository.doc_write_self _, hthrough, hsequence⟩
      · exact ⟨cursor, (Repository.doc_write_of_ne hkey _).trans hcursor, .refl _⟩

/-- No cursor is beyond the journal. -/
theorem Disk.Reachable.cursor_covered (hd : d.Reachable) {cursor : PublicationCursor}
    (hcursor : d.store.doc (.publisher destination j view) = some cursor) :
    cursor.through ≤ d.store.events.length := by
  refine hd.inductionOn (P := fun d => ∀ cursor, d.store.doc (.publisher destination j view) =
    some cursor → cursor.through ≤ d.store.events.length) ?_ ?_ cursor hcursor
  · intro cursor hcursor
    simp [World.empty, Repository.doc] at hcursor
  · intro d d' move _ ih cursor hcursor
    have hgrown := move.events.length_le
    rcases move.cursors with hsame | ⟨h, h', destination', ack, new, rfl, rfl, hstep⟩
    · exact (ih cursor ((Repository.doc_congr (hsame _ _ _)).symm.trans hcursor)).trans hgrown
    · cases hstep with
      | @mk m journals addressed range ahead =>
        by_cases hkey : Key.publisher destination j view =
            .publisher destination' m.evidenceJournal controlView
        · obtain ⟨rfl, rfl, rfl⟩ := Key.publisher.inj hkey
          rw [Repository.doc_write_self] at hcursor
          obtain rfl := Option.some.inj hcursor
          exact range
        · exact ih cursor ((Repository.doc_write_of_ne hkey _).symm.trans hcursor)

/-- A store with a cursor has its journals. -/
theorem Disk.Reachable.cursor_journals (hd : d.Reachable) {cursor : PublicationCursor}
    (hcursor : d.store.doc (.publisher destination j view) = some cursor) :
    ∃ m, d.store.doc .hostMeta = some m := by
  refine hd.inductionOn (P := fun d => ∀ cursor, d.store.doc (.publisher destination j view) =
    some cursor → ∃ m, d.store.doc .hostMeta = some m) ?_ ?_ cursor hcursor
  · intro cursor hcursor
    simp [World.empty, Repository.doc] at hcursor
  · intro d d' move _ ih cursor hcursor
    have hbefore : ∃ m, d.store.doc .hostMeta = some m := by
      rcases move.cursors with hsame | ⟨h, h', destination', ack, new, rfl, rfl, hstep⟩
      · exact ih cursor ((Repository.doc_congr (hsame _ _ _)).symm.trans hcursor)
      · cases hstep with
        | mk journals => exact ⟨_, journals⟩
    obtain ⟨m, hm⟩ := hbefore
    obtain ⟨m', hm', -⟩ := move.journals hm
    exact ⟨m', hm'⟩

end Cursors

/-! ## The publisher -/

namespace Publisher

variable {c : Connection} {encodedLen : List EvidenceRecord → ℕ} {now : ℕ}
  {chunk : PublicationChunk} {batch : Batch}

/-- Trimming drops records from the end only. -/
theorem trim_isPrefixOf (maxBytes fuel : ℕ) (records : List EvidenceRecord) :
    trim encodedLen maxBytes fuel records <+: records := by
  induction fuel generalizing records with
  | zero => exact List.prefix_rfl
  | succ fuel ih =>
    rw [trim]
    split
    · exact (ih _).trans (List.dropLast_prefix _)
    · exact List.prefix_rfl

/-- What is sent is the beginning of the chunk. -/
theorem plan_isPrefixOf (h : plan c encodedLen now chunk = .ok (some batch)) :
    batch.records <+: chunk.records ∧ batch.firstSeq = chunk.first ∧
      batch.journal = chunk.journal := by
  have hselected : (if c.needsProbe chunk.records.isEmpty now then []
      else chunk.records.take c.maxBatch) <+: chunk.records := by
    split
    · exact List.nil_prefix
    · exact List.take_prefix _ _
  unfold plan at h
  dsimp only at h
  generalize (if c.needsProbe chunk.records.isEmpty now then []
    else chunk.records.take c.maxBatch) = selected at h hselected
  split at h
  · cases h
  · split at h
    · cases h
    · cases h
      exact ⟨(trim_isPrefixOf _ _ _).trans hselected, rfl, rfl⟩

/-- An answer is recorded only if it covers what was sent. -/
theorem settle_covers {parseId : String → Option Id} {answer : EvidenceAck} {ack : PublicationAck}
    (h : settle parseId batch answer = .ok ack) : batch.minimumAck ≤ ack.through := by
  by_cases hpartial : answer.throughSeq < batch.minimumAck
  · simp [settle, hpartial, throw, throwThe, MonadExceptOf.throw, bind, Except.bind] at h
  · have hthrough : ack.through = answer.throughSeq := by
      cases hplatform : answer.platformCursor with
      | none =>
        simp [settle, hpartial, hplatform, throw, throwThe, MonadExceptOf.throw] at h
      | some platform =>
        simp only [settle, hpartial, hplatform, if_false, bind, Except.bind, pure,
          Except.pure] at h
        split at h
        · cases h
        · split at h
          · cases h
          · split at h
            · cases h
            · cases h
              rfl
    rw [hthrough]
    exact not_lt.mp hpartial

end Publisher

/-! ## Acknowledgements in a world -/

theorem Gate.Returns.journalHead {h : Machine} :
    Gate.Returns Host.journalHead (fun n t => n = h.store.events.length ∧ t = h) h := by
  apply Gate.Returns.transact
  simp only [wp_bind, wp_get, wp_pure]
  exact ⟨rfl, trivial⟩

/-- An acknowledgement that is not ahead of the stored cursor is answered with the cursor. -/
theorem acknowledgePublication_returns {h : Machine} {destination : Destination}
    {ack : PublicationAck} {m : HostMeta} {c : PublicationCursor}
    (hbound : ∀ b ∈ h.core.bindings, b.platform = destination.platform)
    (hm : h.store.doc .hostMeta = some m) (haddressed : ack.Addressed destination m)
    (hrange : ack.through ≤ h.store.events.length) (hc : h.store.cursor destination m = some c)
    (hbehind : ack.cursor.Behind c) :
    Gate.Returns (acknowledgePublication destination ack) (fun v _ => v = c) h := by
  have hdestination : Gate.Returns (checkDestination destination) (fun _ t => t = h) h := by
    refine Gate.Returns.bind Gate.Returns.core ?_
    rintro _ _ ⟨rfl, rfl⟩
    exact Gate.Returns.require hbound
  refine Gate.Returns.bind hdestination ?_
  rintro _ _ rfl
  refine Gate.Returns.bind Gate.Returns.journalHead ?_
  rintro _ _ ⟨rfl, rfl⟩
  refine Gate.Returns.bind (Gate.Returns.require ?_) ?_
  · exact ⟨haddressed.installation, haddressed.storeGeneration, haddressed.view, hrange⟩
  rintro _ _ rfl
  obtain ⟨_, hmeta⟩ := Repository.doc_eq_some.mp hm
  obtain ⟨_, hcursor⟩ := Repository.doc_eq_some.mp hc
  apply Gate.Returns.transact
  have hle : ack.through ≤ c.through ∧ ack.platformSequence ≤ c.platformSequence :=
    ⟨hbehind.through, hbehind.platformSequence⟩
  simp only [recordAck, wp_bind, Tx.wp_fetch hmeta, Tx.wp_get, wp_ensure, hcursor,
    haddressed.journal, hle, and_self, if_true, wp_pure]
  simp

namespace World

variable [Ideal] {w : World} {i : Input} {p : Process} {destination : Destination}
  {ack : PublicationAck} {answers : ℕ → Answer} {m : HostMeta} {c : PublicationCursor}

/-- The cursor of the destination covers the event with the number `n`. -/
def Published (w : World) (destination : Destination) (n : Counter) : Prop :=
  ∃ m c, w.store.doc .hostMeta = some m ∧ w.store.cursor destination m = some c ∧ n ≤ c.through

/-- What an acknowledgement does, whether it returns or not. -/
theorem ack_cases (hm : w.store.doc .hostMeta = some m) (p : Process) (destination : Destination)
    (ack : PublicationAck) (answers : ℕ → Answer) :
    (∀ v, (w.call p (.acknowledgePublication destination ack) answers).1 ≠ .ok v) ∧
      (w.call p (.acknowledgePublication destination ack) answers).2.toDisk = w.toDisk ∨
    ∃ v, ∃ h : Machine, (w.call p (.acknowledgePublication destination ack) answers).1 = .ok v ∧
      (w.call p (.acknowledgePublication destination ack) answers).2.toDisk = h.toDisk ∧
      ack.Addressed destination m ∧ ack.through ≤ w.store.events.length ∧
      h.store.cursor destination m = some v ∧ ack.through ≤ v.through ∧
      (h.toDisk = w.toDisk ∧ ack.platformSequence ≤ v.platformSequence ∨
        v = ack.cursor ∧ ∀ previous, w.store.cursor destination m = some previous →
          previous.Behind v ∧ ¬ v.Behind previous) := by
  rcases hcall : w.call p (.acknowledgePublication destination ack) answers with ⟨e | v, w'⟩
  · obtain ⟨h, rfl, hdisk, -⟩ := call_error (c := .acknowledgePublication destination ack)
      acknowledgePublication_runs hcall
    exact .inl ⟨fun _ => by simp, hdisk⟩
  · obtain ⟨h, a, hok, rfl⟩ := call_ok (c := .acknowledgePublication destination ack)
      acknowledgePublication_runs hcall
    refine .inr ⟨v, h, rfl, rfl, ?_⟩
    rcases hok with ⟨rfl, m', hm', haddressed, hrange, hcursor, hthrough, hsequence⟩ | hstep
    · obtain rfl := Option.some.inj (hm.symm.trans hm')
      exact ⟨haddressed, hrange, hcursor, hthrough, .inl ⟨rfl, hsequence⟩⟩
    · cases hstep with
      | @mk m' journals addressed range ahead =>
        obtain rfl := Option.some.inj (hm.symm.trans journals)
        refine ⟨addressed, range, Repository.doc_write_self _, le_rfl, .inr ⟨rfl, ?_⟩⟩
        intro previous hprevious
        obtain ⟨hthrough, hsequence, hahead⟩ := ahead previous hprevious
        refine ⟨⟨hthrough, hsequence⟩, ?_⟩
        intro hback
        rcases hahead with hlt | hlt
        · exact hlt.not_ge hback.through
        · exact hlt.not_ge hback.platformSequence

/-- An acknowledgement that is above the stored cursor in neither coordinate changes nothing. -/
theorem ack_behind (hm : w.store.doc .hostMeta = some m)
    (hc : w.store.cursor destination m = some c) (hbehind : ack.cursor.Behind c) (p : Process)
    (answers : ℕ → Answer) :
    (w.call p (.acknowledgePublication destination ack) answers).2.toDisk = w.toDisk ∧
    ∀ v, (w.call p (.acknowledgePublication destination ack) answers).1 = .ok v → v = c := by
  rcases ack_cases hm p destination ack answers with ⟨hrefused, hdisk⟩ |
    ⟨v, h, hv, hdisk, -, -, hcursor, -, ⟨hsame, -⟩ | ⟨rfl, hahead⟩⟩
  · exact ⟨hdisk, fun v hv => absurd hv (hrefused v)⟩
  · refine ⟨hdisk.trans hsame, fun v' hv' => ?_⟩
    obtain rfl := Except.ok.inj (hv.symm.trans hv')
    rw [hsame] at hcursor
    exact Option.some.inj (hcursor.symm.trans hc)
  · exact absurd hbehind (hahead c hc).2

/-- One that falls behind in one coordinate only, lies beyond the journal or is addressed
elsewhere is refused. -/
theorem ack_refused (hm : w.store.doc .hostMeta = some m)
    (hbad : (∃ c, w.store.cursor destination m = some c ∧ ¬ ack.cursor.Behind c ∧
        ¬ c.Behind ack.cursor) ∨
      w.store.events.length < ack.through ∨ ¬ ack.Addressed destination m) (p : Process)
    (answers : ℕ → Answer) :
    (w.call p (.acknowledgePublication destination ack) answers).2.toDisk = w.toDisk ∧
    ∀ v, (w.call p (.acknowledgePublication destination ack) answers).1 ≠ .ok v := by
  rcases ack_cases hm p destination ack answers with ⟨hrefused, hdisk⟩ |
    ⟨v, h, hv, hdisk, haddressed, hrange, hcursor, hthrough, hkept⟩
  · exact ⟨hdisk, hrefused⟩
  · rcases hbad with ⟨c, hc, hnot, hnot'⟩ | hbeyond | hforeign
    · rcases hkept with ⟨hsame, hsequence⟩ | ⟨rfl, hahead⟩
      · rw [hsame] at hcursor
        obtain rfl := Option.some.inj (hcursor.symm.trans hc)
        exact absurd ⟨hthrough, hsequence⟩ hnot
      · exact absurd (hahead c hc).1 hnot'
    · exact absurd hrange hbeyond.not_ge
    · exact absurd haddressed hforeign

/-- The input that publishes an event acknowledges it for the destination. -/
theorem acknowledged_of_published (hw : w.Reachable) {n : Counter}
    (hnot : ¬ w.Published destination n) (hpublished : (w.step i).Published destination n) :
    ∃ ack answers m, i = .call (.acknowledgePublication destination ack) answers ∧
      w.store.doc .hostMeta = some m ∧ ack.Addressed destination m ∧ n ≤ ack.through := by
  obtain ⟨m', c, hm', hc, hn⟩ := hpublished
  have hnew : w.store.cursor destination m' ≠ some c := by
    intro hold
    obtain ⟨m, hm⟩ := hw.cursor_journals hold
    obtain ⟨m₁, hm₁, hcont⟩ := (step_moves hw i).journals hm
    obtain rfl := Option.some.inj (hm'.symm.trans hm₁)
    -- the same journal, so the same row
    rw [Store.cursor, hcont.evidenceJournal] at hold
    exact hnot ⟨m, c, hm, hold, hn⟩
  have hwrites := writes_of_stored hw hnew hc
  rcases i with _ | ⟨call, answers⟩ | _ | ⟨k, v⟩
  case call =>
    cases call with
    | acknowledgePublication destination' ack =>
      have hsame : destination = destination' := by
        simpa [Input.Writes, Call.Writes] using hwrites
      subst hsame
      obtain ⟨p, h, hp, hdisk, v, hstep⟩ := committed_step hnew hc
        (fun _ => acknowledgePublication_runs) (by rintro _ _ _ rfl; rfl)
      cases hstep with
      | @mk m journals addressed =>
        refine ⟨ack, answers, m, rfl, journals, addressed, ?_⟩
        -- the row is the one the acknowledgement wrote
        rw [hdisk] at hc
        have hsame : m'.evidenceJournal = m.evidenceJournal := by
          by_contra hne
          rw [Store.cursor, Repository.doc_write_of_ne (by simpa using hne)] at hc
          exact hnew hc
        rw [Store.cursor, hsame, Repository.doc_write_self] at hc
        obtain rfl := Option.some.inj hc
        exact hn
    | _ => simp [Input.Writes, Call.Writes, Key.booked, Key.delivers, Touches] at hwrites
  case maintain =>
    obtain ⟨rfl, hb⟩ := hwrites
    cases hb
  all_goals simp [Input.Writes] at hwrites

/-- What publication guarantees, in every continuation of a world. -/
structure PublishesAll (w : World) : Prop where
  /-- The cursor of a destination never falls in either coordinate. -/
  monotone : ∀ destination m c, w.store.doc .hostMeta = some m →
    w.store.cursor destination m = some c → ∀ after, ∃ m' c',
      (w.steps after).store.doc .hostMeta = some m' ∧
      (w.steps after).store.cursor destination m' = some c' ∧ c.Behind c'
  /-- It is never beyond the journal. -/
  covered : ∀ destination m c, w.store.cursor destination m = some c →
    c.through ≤ w.store.events.length
  /-- A chunk holds the events that follow the cursor, in order and without a gap, up to 128. -/
  chunk : ∀ p, w.process = some p → ∀ destination answers chunk,
    (w.call p (.publicationChunk destination) answers).1 = .ok chunk → ∃ m,
      w.store.doc .hostMeta = some m ∧ chunk.journal = m.evidenceJournal ∧
      chunk.cursor = (w.store.cursor destination m).getD ⟨m.evidenceJournal, 0, 0⟩ ∧
      chunk.first = chunk.cursor.through + 1 ∧ chunk.tail = w.store.events.length ∧
      chunk.records.length ≤ 128 ∧
      ∀ n < 128, chunk.records[n]? = (w.store.events[chunk.cursor.through + n]?).map Prod.snd
  /-- An acknowledgement that is above the stored cursor in neither coordinate changes nothing,
  and is answered with that cursor if it is addressed to it. -/
  repeated : ∀ p, w.process = some p → ∀ destination ack answers m c,
    w.store.doc .hostMeta = some m → w.store.cursor destination m = some c →
    ack.cursor.Behind c →
    (w.call p (.acknowledgePublication destination ack) answers).2.toDisk = w.toDisk ∧
    (∀ v, (w.call p (.acknowledgePublication destination ack) answers).1 = .ok v → v = c) ∧
    (ack.Addressed destination m → (∀ b ∈ p.core.bindings, b.platform = destination.platform) →
      Gate.Reliable answers →
      (w.call p (.acknowledgePublication destination ack) answers).1 = .ok c)
  /-- One that falls behind it in one coordinate only, lies beyond the journal or is addressed
  elsewhere is refused and changes nothing. -/
  refused : ∀ p, w.process = some p → ∀ destination ack answers m,
    w.store.doc .hostMeta = some m →
    ((∃ c, w.store.cursor destination m = some c ∧ ¬ ack.cursor.Behind c ∧ ¬ c.Behind ack.cursor) ∨
      w.store.events.length < ack.through ∨ ¬ ack.Addressed destination m) →
    (w.call p (.acknowledgePublication destination ack) answers).2.toDisk = w.toDisk ∧
    ∀ v, (w.call p (.acknowledgePublication destination ack) answers).1 ≠ .ok v
  /-- An event is published for a destination only by an acknowledgement for it that covers the
  event. -/
  published : ∀ destination n, ¬ w.Published destination n → ∀ after,
    (w.steps after).Published destination n → ∃ a b ack answers m,
      after = a ++ .call (.acknowledgePublication destination ack) answers :: b ∧
      (w.steps a).store.doc .hostMeta = some m ∧ ack.Addressed destination m ∧ n ≤ ack.through
  /-- The publisher sends the beginning of its chunk, and whatever happens meanwhile, what it
  then records covers all of it. -/
  tick : ∀ p, w.process = some p → ∀ destination answers chunk,
    (w.call p (.publicationChunk destination) answers).1 = .ok chunk →
    ∀ connection encodedLen now batch,
    Publisher.plan connection encodedLen now chunk = .ok (some batch) →
    batch.records <+: chunk.records ∧ batch.firstSeq = chunk.first ∧
    ∀ parseId answer ack, Publisher.settle parseId batch answer = .ok ack →
      ∀ after q answers' v, (w.steps after).process = some q →
        ((w.steps after).call q (.acknowledgePublication destination ack) answers').1 = .ok v →
        chunk.cursor.through + batch.records.length ≤ v.through ∧
        ∃ m, ((w.steps after).call q
          (.acknowledgePublication destination ack) answers').2.store.cursor
          destination m = some v

end World

/-- Publication loses and repeats nothing: cursors move forward and stay within the journal, a
chunk is what follows the cursor, acknowledgements that are late or foreign change nothing,
and an event is published for a destination only by one that covers it. -/
theorem publication_loses_nothing [Ideal] (inputs : List Input) :
    (World.run inputs).PublishesAll := by
  have hw := World.run_reachable inputs
  constructor
  case monotone =>
    intro destination m c hm hc after
    have hmoves := World.steps_moves hw.regular after
    obtain ⟨m', hm', hcont⟩ := hmoves.journals hm
    obtain ⟨c', hc', hbehind⟩ := Disk.Moves.cursor_le hw hmoves hc
    refine ⟨m', c', hm', ?_, hbehind⟩
    rw [Store.cursor, hcont.evidenceJournal]
    exact hc'
  case covered =>
    intro destination m c hc
    exact hw.cursor_covered hc
  case chunk =>
    intro p hp destination answers chunk hcall
    obtain ⟨h, a, ⟨-, m, hextends⟩, -⟩ := World.call_ok (c := .publicationChunk destination)
      (w := World.run inputs) (p := p) publicationChunk_reads (Prod.ext hcall rfl)
    refine ⟨m, hextends.journals, hextends.journal, hextends.cursor, hextends.first,
      hextends.tail, ?_, ?_⟩
    · rw [hextends.records]
      simp
    · intro n hn
      rw [hextends.records]
      simp [hn, List.getElem?_drop]
      rfl
  case repeated =>
    intro p hp destination ack answers m c hm hc hbehind
    obtain ⟨hdisk, hstored⟩ := World.ack_behind hm hc hbehind p answers
    refine ⟨hdisk, hstored, fun haddressed hbound hreliable => ?_⟩
    have hrange := hbehind.through.trans (hw.cursor_covered hc)
    obtain ⟨v, -, hv, rfl⟩ := World.call_returns (c := .acknowledgePublication destination ack)
      (w := World.run inputs) (p := p)
      (acknowledgePublication_returns hbound hm haddressed hrange hc hbehind) hreliable
    exact hv
  case refused =>
    intro p hp destination ack answers m hm hbad
    exact World.ack_refused hm hbad p answers
  case published =>
    intro destination n hnot after hpublished
    obtain ⟨a, i, b, rfl, hbefore, hthen⟩ := Durable.Runs.first
      (P := fun w : World => w.Published destination n) hnot hpublished
    obtain ⟨ack, answers, m, rfl, hm, haddressed, hn⟩ :=
      World.acknowledged_of_published (World.steps_reachable hw a) hbefore hthen
    exact ⟨a, b, ack, answers, m, rfl, hm, haddressed, hn⟩
  case tick =>
    intro p hp destination answers chunk hcall connection encodedLen now batch hplan
    obtain ⟨h, a, ⟨-, m, hextends⟩, -⟩ := World.call_ok (c := .publicationChunk destination)
      (w := World.run inputs) (p := p) publicationChunk_reads (Prod.ext hcall rfl)
    obtain ⟨hleading, hfirst, -⟩ := Publisher.plan_isPrefixOf hplan
    refine ⟨hleading, hfirst, ?_⟩
    intro parseId answer ack hsettle after q answers' v hq hack
    have hcovers := Publisher.settle_covers hsettle
    -- the number of the last event that was sent
    have hlast : batch.minimumAck = chunk.cursor.through + batch.records.length := by
      rw [Publisher.Batch.minimumAck, hfirst, hextends.first, Nat.add_sub_cancel]
    obtain ⟨m', hm', -⟩ := (World.steps_moves hw.regular after).journals hextends.journals
    rcases World.ack_cases hm' q destination ack answers' with ⟨hrefused, -⟩ |
      ⟨v', h', hv', hdisk, -, -, hcursor, hthrough, -⟩
    · exact absurd hack (hrefused v)
    · obtain rfl := Except.ok.inj (hv'.symm.trans hack)
      rw [← hlast]
      refine ⟨hcovers.trans hthrough, m', ?_⟩
      rw [hdisk]
      exact hcursor

end RxSolutions.Host
