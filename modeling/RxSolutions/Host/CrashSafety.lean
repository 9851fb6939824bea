import RxSolutions.Host.Sealing

/-!
# Binding changes are crash safe

The active change and the receipt of its request are always written together, and a commit
record exists only from the reservation on, so what a tool finds after a crash says how far
the change had come. What happens to one change, whoever runs it and wherever a run ends, is
a small machine: the descriptor it leads to is fixed as soon as its native generation is in
place, and later runs of the same request only install that one.
-/

namespace RxSolutions.Host

open Domain Durable Program Relation

/-- The change is being committed or is committed. -/
def PreparationState.Reserved (s : PreparationState) : Prop := s = .committing ∨ s = .committed

/-! ## The progress of one change -/

/-- How far a change has come: its commit record, its native generation and the descriptor that
is installed. -/
structure Progress where
  record : Option CommitRecord
  generation : Option Generation
  descriptor : Installation

namespace Progress

variable [ServiceIdeal]

/-- One stage of a commit. -/
inductive Advance : Progress → Progress → Prop
  | reserved {c : CommitRecord} {g : Option Generation} {d : Installation}
      (before : c.beforeDescriptor = d) (unset : c.afterDescriptor = none) :
      Advance ⟨none, g, d⟩ ⟨some c, g, d⟩
  | staged {c : CommitRecord} {g : Generation} {d : Installation} :
      Advance ⟨some c, none, d⟩ ⟨some c, some g, d⟩
  | readied {c : CommitRecord} {g : Generation} {d : Installation}
      (unset : c.afterDescriptor = none) : Advance ⟨some c, some g, d⟩ ⟨some (c.ready g), some g, d⟩
  | published {c : CommitRecord} {g : Option Generation} {d after : Installation}
      (target : c.afterDescriptor = some after) (before : d = c.beforeDescriptor) :
      Advance ⟨some c, g, d⟩ ⟨some c, g, after⟩
  | finished {c : CommitRecord} {g : Option Generation} {d : Installation} :
      Advance ⟨some c, g, d⟩ ⟨some { c with phase := .committed }, g, d⟩

/-- The installed descriptor is the one the change was prepared over, or the one it leads to. -/
def Over (d : Installation) (p : Progress) : Prop :=
  (p.record = none ∧ p.descriptor = d) ∨ ∃ c, p.record = some c ∧ c.beforeDescriptor = d ∧
    (p.descriptor = d ∨ c.afterDescriptor = some p.descriptor)

/-- The descriptor the change leads to is installed. -/
def Done (d : Installation) (p : Progress) : Prop :=
  p.descriptor = d ∧ ∃ c, p.record = some c ∧ c.afterDescriptor = some d

/-- The descriptor the change leads to, once it is fixed. -/
def target (p : Progress) : Option Installation :=
  p.record.bind fun c => c.afterDescriptor <|> p.generation.map c.target

variable {p q : Progress} {d : Installation}

theorem Advance.over (h : Advance p q) (hp : p.Over d) : q.Over d := by
  cases h with
  | reserved before unset =>
    rcases hp with ⟨-, rfl⟩ | ⟨c, hc, -⟩
    · exact .inr ⟨_, rfl, before, .inl rfl⟩
    · cases hc
  | staged => exact hp
  | readied unset =>
    rcases hp with ⟨hc, -⟩ | ⟨c, hc, hbefore, hd⟩
    · cases hc
    · obtain rfl := Option.some.inj hc
      -- nothing was fixed yet, so nothing was installed
      rw [unset] at hd
      exact .inr ⟨_, rfl, hbefore, hd.imp id nofun⟩
  | published target before =>
    rcases hp with ⟨hc, -⟩ | ⟨c, hc, hbefore, -⟩
    · cases hc
    · obtain rfl := Option.some.inj hc
      exact .inr ⟨_, rfl, hbefore, .inr target⟩
  | finished =>
    rcases hp with ⟨hc, -⟩ | ⟨c, hc, hbefore, hd⟩
    · cases hc
    · obtain rfl := Option.some.inj hc
      exact .inr ⟨_, rfl, hbefore, hd⟩

theorem Advance.done (h : Advance p q) (hp : p.Done d) : q.Done d := by
  obtain ⟨hd, c, hc, hafter⟩ := hp
  cases h with
  | reserved => cases hc
  | staged => exact ⟨hd, c, hc, hafter⟩
  | readied unset =>
    obtain rfl := Option.some.inj hc
    cases unset.symm.trans hafter
  | published target before =>
    obtain rfl := Option.some.inj hc
    exact ⟨Option.some.inj (target.symm.trans hafter), _, rfl, hafter⟩
  | finished =>
    obtain rfl := Option.some.inj hc
    exact ⟨hd, _, rfl, hafter⟩

theorem Advance.target (h : Advance p q) (hp : p.target = some d) : q.target = some d := by
  cases h with
  | reserved => cases hp
  | @staged c g _ =>
    cases hafter : c.afterDescriptor with
    | none => simp [Progress.target, hafter] at hp
    | some after =>
      simp only [Progress.target, hafter, Option.bind_some] at hp ⊢
      exact hp
  | readied unset =>
    simp only [Progress.target, unset, Option.bind_some, Option.map_some] at hp
    exact hp
  | published | finished => exact hp

/-- What every stage keeps, a commit keeps. -/
theorem advances_keep {P : Progress → Prop} (hstep : ∀ {p q}, Advance p q → P p → P q)
    (h : ReflTransGen Advance p q) (hp : P p) : P q := by
  induction h with
  | refl => exact hp
  | tail _ hlast ih => exact hstep hlast ih

end Progress

namespace Installed

/-! ## What can happen to an installation -/

/-- An atomic change of a tool, or anything that leaves the files and the records of
maintenance. -/
inductive Turn [ServiceIdeal] (i : Installed) : Installed → Prop
  | altered {i' : Installed} (alter : Alter i i') : Turn i i'
  | served {s : Store} (same : ∀ k : Key, k.maintains = true → s.get k = i.store.get k) :
      Turn i { i with store := s }

/-- A commit record is as far as its preparation says. -/
structure Fits (request : Id) (p : Preparation) (c : CommitRecord) : Prop where
  path : c.nativeGeneration = generationPath request
  phase : (c.phase = .reserved ∧ p.state = .committing ∧ c.afterDescriptor = none) ∨
    (c.phase = .nativeReady ∧ p.state = .committing) ∨
    (c.phase = .committed ∧ p.state = .committed)

/-- Receipts, commit records and the active change fit together. -/
structure Consistent (i : Installed) : Prop where
  active : ∀ a, i.store.doc .maintenanceActive = some a →
    i.store.doc (.maintenanceRequest a.request) = some a
  named : ∀ request p, i.store.doc (.maintenanceRequest request) = some p → p.request = request
  unresolved : ∀ request p, i.store.doc (.maintenanceRequest request) = some p →
    p.state.Unresolved → i.store.doc .maintenanceActive = some p
  fits : ∀ request c, i.store.doc (.maintenanceCommit request) = some c →
    ∃ p, i.store.doc (.maintenanceRequest request) = some p ∧ Fits request p c

section Tracks

variable {own : Key → Prop} {request other : Id} {p : Preparation} {s s' : Store}

theorem Tracks.receipt_of_ne (h : Tracks own request p s s')
    (hown : ∀ r, ¬ own (.maintenanceRequest r)) (hne : other ≠ request) :
    s'.doc (.maintenanceRequest other) = s.doc (.maintenanceRequest other) := by
  refine h.frame.doc ?_
  rintro (heq | heq | howned)
  · exact hne (Key.maintenanceRequest.inj heq)
  · cases heq
  · exact hown _ howned

theorem Tracks.commit (h : Tracks own request p s s') (hown : ¬ own (.maintenanceCommit other)) :
    s'.doc (.maintenanceCommit other) = s.doc (.maintenanceCommit other) := by
  refine h.frame.doc ?_
  rintro (heq | heq | howned)
  · cases heq
  · cases heq
  · exact hown howned

end Tracks

section Consistent

variable {i i' : Installed}

/-- A change that is not being committed has no commit record. -/
theorem Consistent.no_commit (hi : i.Consistent) {request : Id} {p : Preparation}
    (hp : i.store.doc (.maintenanceRequest request) = some p) (hstate : p.state = .prepared) :
    i.store.doc (.maintenanceCommit request) = none := by
  cases hc : i.store.doc (.maintenanceCommit request) with
  | none => rfl
  | some c =>
    obtain ⟨q, hq, hfits⟩ := hi.fits request c hc
    cases hp.symm.trans hq
    rcases hfits.phase with ⟨-, h, -⟩ | ⟨-, h⟩ | ⟨-, h⟩ <;> cases hstate.symm.trans h

/-- A preparation that becomes the active one, while no other is unresolved. -/
theorem Consistent.tracked (hi : i.Consistent) {own : Key → Prop} {request : Id}
    {p : Preparation} {s : Store} (ht : Tracks own request p i.store s)
    (hown : ∀ r, ¬ own (.maintenanceRequest r)) (hrequest : p.request = request)
    (hothers : ∀ a, i.store.doc .maintenanceActive = some a → a.request ≠ request →
      ¬ a.state.Unresolved)
    (hcommits : ∀ r, r ≠ request →
      s.doc (.maintenanceCommit r) = i.store.doc (.maintenanceCommit r))
    (hfits : ∀ c, s.doc (.maintenanceCommit request) = some c → Fits request p c) :
    Consistent { i with store := s } := by
  refine ⟨fun a ha => ?_, fun r q hq => ?_, fun r q hq hstate => ?_, fun r c hc => ?_⟩
  · obtain rfl := Option.some.inj (ht.active.symm.trans ha)
    rw [hrequest]
    exact ht.receipt
  · by_cases hr : r = request
    · subst hr
      obtain rfl := Option.some.inj (ht.receipt.symm.trans hq)
      exact hrequest
    · exact hi.named r q ((ht.receipt_of_ne hown hr).symm.trans hq)
  · by_cases hr : r = request
    · subst hr
      obtain rfl := Option.some.inj (ht.receipt.symm.trans hq)
      exact ht.active
    · -- another unresolved change would be the active one
      have hold := (ht.receipt_of_ne hown hr).symm.trans hq
      have hactive := hi.unresolved r q hold hstate
      exact absurd hstate (hothers q hactive (by rwa [hi.named r q hold]))
  · by_cases hr : r = request
    · subst hr
      exact ⟨p, ht.receipt, hfits c hc⟩
    · obtain ⟨q, hq, hfit⟩ := hi.fits r c ((hcommits r hr).symm.trans hc)
      exact ⟨q, (ht.receipt_of_ne hown hr).trans hq, hfit⟩

/-- Nothing of the maintenance changed. -/
theorem Consistent.congr (hi : i.Consistent)
    (same : ∀ k : Key, k.maintains = true → i'.store.get k = i.store.get k) : i'.Consistent := by
  have hdoc : ∀ k : Key, k.maintains = true → i'.store.doc k = i.store.doc k :=
    fun k hk => Repository.doc_congr (same k hk)
  constructor
  · intro a ha
    rw [hdoc _ rfl] at ha ⊢
    exact hi.active a ha
  · intro r p hp
    rw [hdoc _ rfl] at hp
    exact hi.named r p hp
  · intro r p hp hstate
    rw [hdoc _ rfl] at hp ⊢
    exact hi.unresolved r p hp hstate
  · intro r c hc
    rw [hdoc _ rfl] at hc
    obtain ⟨p, hp, hfits⟩ := hi.fits r c hc
    exact ⟨p, (hdoc _ rfl).trans hp, hfits⟩

variable [ServiceIdeal]

theorem Carry.consistent (h : Carry i i') (hi : i.Consistent) : i'.Consistent := by
  -- a change of the active request finds no other active one
  have hothers : ∀ {request : Id} {a : Preparation}, i.store.doc .maintenanceActive = some a →
      a.request = request → ∀ b, i.store.doc .maintenanceActive = some b → b.request ≠ request →
      ¬ b.state.Unresolved := by
    intro request a ha hsame b hb hne
    cases ha.symm.trans hb
    exact absurd hsame hne
  cases h with
  | @cancelled request p a s receipt state active same tracks =>
    refine hi.tracked tracks (by simp) (hi.named request p receipt) (hothers active same)
      (fun r _ => tracks.commit (by simp)) fun c hc => ?_
    cases (hi.no_commit receipt state).symm.trans ((tracks.commit (by simp)).symm.trans hc)
  | @reserved _ _ _ request _ p a s receipt state active same unreserved stored tracks =>
    refine hi.tracked tracks (by simp) (hi.named request p receipt) (hothers active same)
      (fun r hr => tracks.commit (by simpa using hr)) fun c hc => ?_
    obtain rfl := Option.some.inj (stored.symm.trans hc)
    exact ⟨rfl, .inl ⟨rfl, rfl, rfl⟩⟩
  | staged | published => exact ⟨hi.active, hi.named, hi.unresolved, hi.fits⟩
  | @readied request p c g committing phase found =>
    have hdoc : ∀ k : Key, k ≠ .maintenanceCommit request →
        (i.store.write (.maintenanceCommit request) (c.ready g)).doc k = i.store.doc k :=
      fun k hk => Repository.doc_write_of_ne hk _
    refine ⟨fun a ha => ?_, fun r q hq => ?_, fun r q hq hstate => ?_, fun r d hd => ?_⟩
    · rw [hdoc _ (by simp)] at ha ⊢
      exact hi.active a ha
    · rw [hdoc _ (by simp)] at hq
      exact hi.named r q hq
    · rw [hdoc _ (by simp)] at hq ⊢
      exact hi.unresolved r q hq hstate
    · by_cases hr : r = request
      · subst hr
        obtain rfl := Option.some.inj ((Repository.doc_write_self _).symm.trans hd)
        obtain ⟨q, hq, hfits⟩ := hi.fits r c committing.stored
        cases committing.receipt.symm.trans hq
        exact ⟨p, (hdoc _ (by simp)).trans hq, hfits.path, .inr (.inl ⟨rfl, committing.state⟩)⟩
      · rw [hdoc _ (by simpa using hr)] at hd
        obtain ⟨q, hq, hfits⟩ := hi.fits r d hd
        exact ⟨q, (hdoc _ (by simp)).trans hq, hfits⟩
  | @finished request p c s committing phase target stored tracks =>
    obtain ⟨a, hactive, hsame⟩ := committing.active
    refine hi.tracked tracks (by simp) (hi.named request p committing.receipt)
      (hothers hactive hsame)
      (fun r hr => tracks.commit (by simpa using hr)) fun d hd => ?_
    obtain rfl := Option.some.inj (stored.symm.trans hd)
    obtain ⟨q, -, hfits⟩ := hi.fits request c committing.stored
    exact ⟨hfits.path, .inr (.inr ⟨rfl, rfl⟩)⟩

theorem Alter.consistent (h : Alter i i') (hi : i.Consistent) : i'.Consistent := by
  cases h with
  | @prepared p s absent resolved state tracks =>
    refine hi.tracked tracks (by simp) rfl (fun a ha _ => resolved a ha)
      (fun r _ => tracks.commit (by simp)) fun c hc => ?_
    obtain ⟨q, hq, -⟩ := hi.fits p.request c ((tracks.commit (by simp)).symm.trans hc)
    cases absent.symm.trans hq
  | carried carry => exact carry.consistent hi

theorem Turn.consistent (h : Turn i i') (hi : i.Consistent) : i'.Consistent := by
  cases h with
  | altered alter => exact alter.consistent hi
  | served same => exact hi.congr same

end Consistent

/-! ## Installations refine the progress of each change -/

/-- The active change is that of `request`. -/
def Active (i : Installed) (request : Id) : Prop :=
  ∃ a, i.store.doc .maintenanceActive = some a ∧ a.request = request

/-- How far the change of `request` has come. -/
def progress (i : Installed) (request : Id) : Progress where
  record := i.store.doc (.maintenanceCommit request)
  generation := i.files.generations (generationPath request)
  descriptor := i.files.descriptor

theorem generationPath_injective : Function.Injective generationPath := by
  intro r r' h
  have hlist : "native-generations/".toList ++ r.toList =
      "native-generations/".toList ++ r'.toList := by
    rw [← String.toList_append, ← String.toList_append]
    exact congrArg String.toList h
  exact String.toList_inj.mp (List.append_cancel_left hlist)

section Refines

variable {i i' : Installed} {request : Id}

theorem progress_eq {s : Store}
    (h : s.doc (.maintenanceCommit request) = i.store.doc (.maintenanceCommit request)) :
    progress { i with store := s } request = i.progress request := by
  simp only [progress, h]

theorem Tracks.active_iff {own : Key → Prop} {r : Id} {p : Preparation} {s : Store}
    (ht : Tracks own r p i.store s) (hp : p.request = r) :
    Active { i with store := s } request ↔ r = request := by
  constructor
  · rintro ⟨a, ha, rfl⟩
    rw [← Option.some.inj (ht.active.symm.trans ha), hp]
  · rintro rfl
    exact ⟨p, ht.active, hp⟩

variable [ServiceIdeal]

/-- What an installation did for the change of `request` while it went from `i` to `i'`. -/
structure Advances (request : Id) (i i' : Installed) : Prop where
  active : i'.Active request → i.Active request ∧
    ReflTransGen Progress.Advance (i.progress request) (i'.progress request)
  inactive : ¬ i'.Active request →
    (i'.progress request).record = (i.progress request).record ∧
    (i'.progress request).generation = (i.progress request).generation

/-- The change of `request` stays where it is. -/
theorem Advances.of_eq (h : i'.progress request = i.progress request)
    (hactive : i'.Active request → i.Active request) : Advances request i i' :=
  ⟨fun ha => ⟨hactive ha, by rw [h]⟩, fun _ => by rw [h]; exact ⟨rfl, rfl⟩⟩

/-- The change of `request` is the active one and advances. -/
theorem Advances.of_advance (hactive : i.Active request) (hactive' : i'.Active request)
    (h : Progress.Advance (i.progress request) (i'.progress request)) : Advances request i i' :=
  ⟨fun _ => ⟨hactive, .single h⟩, fun hn => absurd hactive' hn⟩

theorem Carry.advances (h : Carry i i') (hi : i.Consistent) : Advances request i i' := by
  cases h with
  | @cancelled r p a s receipt state active same tracks =>
    refine .of_eq (progress_eq (tracks.commit (by simp))) fun ha => ?_
    obtain rfl := (tracks.active_iff (hi.named r p receipt)).mp ha
    exact ⟨a, active, same⟩
  | @reserved _ _ _ r _ p a s receipt state active same unreserved stored tracks =>
    have hiff : Active { i with store := s } request ↔ r = request :=
      tracks.active_iff (hi.named r p receipt)
    by_cases hr : r = request
    · subst hr
      refine .of_advance ⟨a, active, same⟩ (hiff.mpr rfl) ?_
      simp only [progress, unreserved, stored]
      exact .reserved rfl rfl
    · exact .of_eq (progress_eq (tracks.commit (by simpa using Ne.symm hr)))
        fun ha => absurd (hiff.mp ha) hr
  | @staged r p c g committing phase absent =>
    obtain ⟨q, hq, hfits⟩ := hi.fits r c committing.stored
    rw [hfits.path] at absent ⊢
    by_cases hr : r = request
    · subst hr
      refine .of_advance committing.active committing.active ?_
      simp only [progress, committing.stored, absent, Function.update_self]
      exact .staged
    · refine .of_eq ?_ id
      have hne : generationPath request ≠ generationPath r :=
        fun heq => hr (generationPath_injective heq).symm
      simp only [progress, Function.update_of_ne hne]
  | @readied r p c g committing phase found =>
    obtain ⟨q, hq, hfits⟩ := hi.fits r c committing.stored
    rw [hfits.path] at found
    have hactive : ∀ {r'}, Active { i with
        store := i.store.write (.maintenanceCommit r) (c.ready g) } r' ↔ i.Active r' := by
      simp [Active, Repository.doc_write_of_ne]
    by_cases hr : r = request
    · subst hr
      refine .of_advance committing.active (hactive.mpr committing.active) ?_
      simp only [progress, committing.stored, Repository.doc_write_self, found]
      rcases hfits.phase with ⟨-, -, hunset⟩ | ⟨h, -⟩ | ⟨h, -⟩
      · exact .readied hunset
      · cases phase.symm.trans h
      · cases phase.symm.trans h
    · exact .of_eq (progress_eq (Repository.doc_write_of_ne (by simpa using Ne.symm hr) _))
        hactive.mp
  | @published r p c after committing target before =>
    by_cases hr : r = request
    · subst hr
      refine .of_advance committing.active committing.active ?_
      simp only [progress, committing.stored]
      exact .published target before
    · refine ⟨fun ha => ?_, fun _ => ⟨rfl, rfl⟩⟩
      obtain ⟨a, ha, hsame⟩ := ha
      obtain ⟨b, hb, hsame'⟩ := committing.active
      cases ha.symm.trans hb
      exact absurd (hsame'.symm.trans hsame) hr
  | @finished r p c s committing phase target stored tracks =>
    have hiff : Active { i with store := s } request ↔ r = request :=
      tracks.active_iff (hi.named r p committing.receipt)
    by_cases hr : r = request
    · subst hr
      refine .of_advance committing.active (hiff.mpr rfl) ?_
      simp only [progress, committing.stored, stored]
      exact .finished
    · exact .of_eq (progress_eq (tracks.commit (by simpa using Ne.symm hr)))
        fun ha => absurd (hiff.mp ha) hr

theorem Alter.advances (h : Alter i i') (hi : i.Consistent)
    (hreceipt : i.store.doc (.maintenanceRequest request) ≠ none) : Advances request i i' := by
  cases h with
  | @prepared p s absent resolved state tracks =>
    refine .of_eq (progress_eq (tracks.commit (by simp))) fun ha => ?_
    obtain rfl := (tracks.active_iff rfl).mp ha
    exact absurd absent hreceipt
  | carried carry => exact carry.advances hi

theorem Turn.advances (h : Turn i i') (hi : i.Consistent)
    (hreceipt : i.store.doc (.maintenanceRequest request) ≠ none) : Advances request i i' := by
  cases h with
  | altered alter => exact alter.advances hi hreceipt
  | served same =>
    refine .of_eq (progress_eq (Repository.doc_congr (same _ rfl))) ?_
    rintro ⟨a, ha, hsame⟩
    exact ⟨a, (Repository.doc_congr (same .maintenanceActive rfl)).symm.trans ha, hsame⟩

/-- A stage makes no receipt, and what was reserved it does not take back. -/
theorem Carry.receipt (h : Carry i i') (request : Id) :
    i'.store.doc (.maintenanceRequest request) = i.store.doc (.maintenanceRequest request) ∨
    ∃ p q, i.store.doc (.maintenanceRequest request) = some p ∧
      i'.store.doc (.maintenanceRequest request) = some q ∧
      (p.state.Reserved → q.state.Reserved) := by
  cases h with
  | @cancelled r p _ _ receipt state _ _ tracks =>
    by_cases hr : request = r
    · subst hr
      refine .inr ⟨p, _, receipt, tracks.receipt, fun h => ?_⟩
      rcases h with h | h <;> cases state.symm.trans h
    · exact .inl (tracks.receipt_of_ne (by simp) hr)
  | @reserved _ _ _ r _ p _ _ receipt _ _ _ _ _ tracks =>
    by_cases hr : request = r
    · subst hr
      exact .inr ⟨p, _, receipt, tracks.receipt, fun _ => .inl rfl⟩
    · exact .inl (tracks.receipt_of_ne (by simp) hr)
  | staged | published => exact .inl rfl
  | readied => exact .inl (Repository.doc_write_of_ne (by simp) _)
  | @finished r p _ _ committing _ _ _ tracks =>
    by_cases hr : request = r
    · subst hr
      exact .inr ⟨p, _, committing.receipt, tracks.receipt, fun _ => .inr rfl⟩
    · exact .inl (tracks.receipt_of_ne (by simp) hr)

/-- A receipt stays, and a change that was reserved is never taken back. -/
theorem Turn.receipt (h : Turn i i') {p : Preparation}
    (hp : i.store.doc (.maintenanceRequest request) = some p) :
    ∃ q, i'.store.doc (.maintenanceRequest request) = some q ∧
      (p.state.Reserved → q.state.Reserved) := by
  cases h with
  | served same => exact ⟨p, (Repository.doc_congr (same _ rfl)).trans hp, id⟩
  | altered alter =>
    cases alter with
    | @prepared p₀ _ absent _ _ tracks =>
      have hne : request ≠ p₀.request := by
        rintro rfl
        cases absent.symm.trans hp
      exact ⟨p, (tracks.receipt_of_ne (by simp) hne).trans hp, id⟩
    | carried carry =>
      rcases carry.receipt request with hsame | ⟨p', q, hp', hq, hreserved⟩
      · exact ⟨p, hsame.trans hp, id⟩
      · cases hp'.symm.trans hp
        exact ⟨q, hq, hreserved⟩

theorem Carries.no_receipt (h : Carries i i')
    (hnone : i.store.doc (.maintenanceRequest request) = none) :
    i'.store.doc (.maintenanceRequest request) = none := by
  induction h with
  | refl => exact hnone
  | tail _ hlast ih =>
    rcases hlast.receipt request with hsame | ⟨p, q, hp, -⟩
    · exact hsame.trans ih
    · cases ih.symm.trans hp

end Refines

/-! ## Runs -/

section Turns

variable [ServiceIdeal] {i i' : Installed} {request : Id}

theorem turns_consistent (h : ReflTransGen Turn i i') (hi : i.Consistent) : i'.Consistent := by
  induction h with
  | refl => exact hi
  | tail _ hlast ih => exact hlast.consistent ih

theorem turns_receipt (h : ReflTransGen Turn i i') {p : Preparation}
    (hp : i.store.doc (.maintenanceRequest request) = some p) :
    ∃ q, i'.store.doc (.maintenanceRequest request) = some q ∧
      (p.state.Reserved → q.state.Reserved) := by
  induction h with
  | refl => exact ⟨p, hp, id⟩
  | tail _ hlast ih =>
    obtain ⟨q, hq, hreserved⟩ := ih
    obtain ⟨q', hq', hreserved'⟩ := hlast.receipt hq
    exact ⟨q', hq', hreserved' ∘ hreserved⟩

/-- While a change stays the active one, everything that happens to it is an advance. -/
theorem turns_advance (hi : i.Consistent) (h : ReflTransGen Turn i i')
    (hreceipt : i.store.doc (.maintenanceRequest request) ≠ none) (ha : i'.Active request) :
    ReflTransGen Progress.Advance (i.progress request) (i'.progress request) := by
  obtain ⟨p, hp⟩ := Option.ne_none_iff_exists'.mp hreceipt
  induction h with
  | refl => exact .refl
  | tail hinit hlast ih =>
    obtain ⟨q, hq, -⟩ := turns_receipt hinit hp
    obtain ⟨hactive, hsteps⟩ :=
      (hlast.advances (turns_consistent hinit hi) (by simp [hq])).active ha
    exact (ih hactive).trans hsteps

/-- Once fixed, the descriptor a change leads to stays the same. -/
theorem turns_target (hi : i.Consistent) (h : ReflTransGen Turn i i') {d : Installation}
    (hd : (i.progress request).target = some d) : (i'.progress request).target = some d := by
  induction h with
  | refl => exact hd
  | @tail j l hinit hlast ih =>
    have hj := turns_consistent hinit hi
    -- a change with a target has a commit record, hence a receipt
    obtain ⟨c, hc, -⟩ := Option.bind_eq_some_iff.mp ih
    obtain ⟨p, hp, -⟩ := hj.fits request c hc
    have hadvances : Advances request j l := hlast.advances hj (by simp [hp])
    by_cases ha : l.Active request
    · exact Progress.advances_keep Progress.Advance.target (hadvances.active ha).2 ih
    · obtain ⟨hrecord, hgeneration⟩ := hadvances.inactive ha
      rw [Progress.target, hrecord, hgeneration]
      exact ih

end Turns

end Installed

namespace Site

open Installed

variable [Ideal] [ServiceIdeal] {s : Site} {o : Setup} {inputs later : List Input} {request : Id}
  {p : Preparation}

/-! ## Inputs are turns -/

omit [Ideal] [ServiceIdeal] in
/-- No call writes the records of maintenance. -/
theorem not_writes_of_maintains (c : Call) {k : Key} (hk : k.maintains = true) :
    ¬ c.Writes k := by
  cases c <;> cases k <;> simp_all [Call.Writes, Key.maintains, Key.booked, Key.delivers, Touches]

/-- What serves calls, starts or stops leaves the files and the records of maintenance. -/
theorem step_serves (hreg : s.Regular) {i : Input} (hi : i.tool = false) :
    (s.step i).files = s.files ∧
      ∀ k : Key, k.maintains = true → (s.step i).store.get k = s.store.get k := by
  cases i with
  | startup loaded replies =>
    have hcases := s.startup_cases loaded replies
    simp only [step]
    generalize s.startup loaded replies = r at hcases
    cases hcases with
    | refused => exact ⟨rfl, fun _ _ => rfl⟩
    | begun idle hbegun =>
      refine ⟨rfl, fun k hk => hbegun.frame.get k ?_⟩
      rintro (rfl | rfl) <;> cases hk
  | openHost environment answers =>
    have hcases := s.openHost_cases environment answers
    simp only [step]
    generalize s.openHost environment answers = t at hcases
    cases hcases with
    | ignored | failed => exact ⟨rfl, fun _ _ => rfl⟩
    | opened running idle step => cases step with
      | mk opened =>
        refine ⟨rfl, fun k hk => opened.frame.get k ?_⟩
        rintro (rfl | ⟨cell, rfl⟩) <;> cases hk
  | call c answers =>
    simp only [step, Site.call]
    cases s.process with
    | none => exact ⟨rfl, fun _ _ => rfl⟩
    | some p =>
      have hran := gate_cases (c.exec_runs (h := s.machine p) hreg) answers
      refine ⟨hran.files, fun k hk => ?_⟩
      exact hran.store (P := fun t => t.get k = s.store.get k)
        (fun _ _ steps => steps.get_eq (not_writes_of_maintains c hk))
        fun _ _ steps => steps.get_eq (not_writes_of_maintains c hk)
  | requestStop | exit => exact ⟨rfl, fun _ _ => rfl⟩
  | snapshot answers =>
    simp only [step]
    cases hp : s.process with
    | none => simp only [snapshot, hp]; exact ⟨trivial, fun _ _ => trivial⟩
    | some p =>
      have hran := gate_cases (s := s) (p := p) serviceStopSnapshot_runs answers
      have hfiles := hran.files
      have hstore := hran.store (P := fun t => t = s.store) (fun _ _ h => by rw [h.1]; rfl)
        fun _ _ h => by rcases h with rfl | rfl <;> rfl
      simp only [snapshot, hp]
      generalize s.gate p serviceStopSnapshot answers = r at hfiles hstore
      obtain ⟨e | v, t⟩ := r
      · exact ⟨hfiles, fun k _ => congrArg (fun x => Repository.get x k) hstore⟩
      · exact ⟨hfiles, fun k _ => congrArg (fun x => Repository.get x k) hstore⟩
  | sealStop answers =>
    simp only [step]
    rcases s.sealStop_cases answers with heq | ⟨p, v, snapshot, -, -, -, hran⟩
    · rw [heq]
      exact ⟨rfl, fun _ _ => rfl⟩
    · refine ⟨hran.files, fun k hk => ?_⟩
      refine hran.store (P := fun t => t.get k = s.store.get k) (fun _ _ h => ?_) fun _ _ h => ?_
      · refine h.frame.get k ?_
        rintro (rfl | ⟨attempt, rfl⟩) <;> cases hk
      · rw [h]
        rfl
  | prepare | cancel | commit => cases hi

/-- Every input makes turns. -/
theorem step_turns (hreg : s.Regular) (i : Input) :
    ReflTransGen Turn s.installed (s.step i).installed := by
  cases hi : i.tool with
  | true =>
    have haltered := tool_cases (s := s) hi
    generalize s.step i = t at haltered
    cases haltered with
    | mk alters => exact ReflTransGen.mono (fun _ _ => Turn.altered) _ _ alters
  | false =>
    obtain ⟨hfiles, hsame⟩ := step_serves hreg hi
    have heq : (s.step i).installed = { s.installed with store := (s.step i).store } := by
      simp only [installed, hfiles]
    rw [heq]
    exact .single (.served hsame)

theorem steps_turns (hreg : s.Regular) (inputs : List Input) :
    ReflTransGen Turn s.installed (s.steps inputs).installed := by
  induction inputs generalizing s with
  | nil => exact .refl
  | cons i inputs ih =>
    exact (step_turns hreg i).trans (ih ((step_moves hreg i).regular hreg))

theorem run_turns (o : Setup) (inputs later : List Input) :
    ReflTransGen Turn (run o inputs).installed (run o (inputs ++ later)).installed := by
  rw [run_append]
  exact steps_turns (run_regular o inputs) later

omit [ServiceIdeal] in
/-- A new installation has no records of maintenance. -/
theorem install_consistent (o : Setup) : (install o).installed.Consistent := by
  have hnone : ∀ k : Key, k.service = true → (install o).installed.store.doc k = none :=
    fun _ hk => install_none hk
  constructor
  · intro a ha
    cases (hnone _ rfl).symm.trans ha
  · intro r p hp
    cases (hnone _ rfl).symm.trans hp
  · intro r p hp
    cases (hnone _ rfl).symm.trans hp
  · intro r c hc
    cases (hnone _ rfl).symm.trans hc

theorem run_consistent (o : Setup) (inputs : List Input) :
    (run o inputs).installed.Consistent :=
  turns_consistent (steps_turns (install_reachable o).regular inputs) (install_consistent o)

/-! ## The contract of a binding change -/

/-- Only `prepare` makes a receipt, and it leaves the files and the commit records. -/
theorem step_prepares (hreg : s.Regular) {i : Input}
    (hnone : s.store.doc (.maintenanceRequest request) = none)
    (hnew : (s.step i).store.doc (.maintenanceRequest request) ≠ none) :
    (s.step i).files = s.files ∧ (s.step i).store.doc (.maintenanceCommit request) =
      s.store.doc (.maintenanceCommit request) := by
  have hcarries : ∀ {j : Installed}, s.installed.Carries j →
      j.store.doc (.maintenanceRequest request) = none := fun h => h.no_receipt hnone
  cases hi : i.tool with
  | false =>
    obtain ⟨hfiles, hsame⟩ := step_serves hreg hi
    exact ⟨hfiles, Repository.doc_congr (hsame _ rfl)⟩
  | true =>
    cases i with
    | prepare plan current proposed r replies =>
      have hcases := offline_cases (s := s) (@prepareInner_runs _ _ plan current proposed r) replies
      simp only [step] at hnew ⊢
      generalize s.offline _ replies = t at hcases hnew
      cases hcases with
      | contended => exact ⟨rfl, rfl⟩
      | halted idle stopped => subst stopped; exact ⟨rfl, rfl⟩
      | returned idle done =>
        rcases done with ⟨rfl, -⟩ | ⟨store, rfl, happroved⟩
        · exact ⟨rfl, rfl⟩
        · exact ⟨rfl, happroved.tracks.commit (by simp)⟩
    | cancel current r replies =>
      refine absurd ?_ hnew
      have hcases := offline_cases (s := s) (@cancel_runs _ _ current r) replies
      simp only [step]
      generalize s.offline _ replies = t at hcases
      cases hcases with
      | contended => exact hnone
      | halted idle stopped => subst stopped; exact hnone
      | returned idle done => exact hcarries done.1
    | commit plan current proposed r replies =>
      refine absurd ?_ hnew
      have hcases :=
        offline_cases (s := s) (@commitInner_runs _ _ plan current proposed r _) replies
      simp only [step]
      generalize s.offline _ replies = t at hcases
      cases hcases with
      | contended => exact hnone
      | halted idle stopped => exact hcarries stopped.1
      | returned idle done => exact hcarries done.1
    | _ => cases hi

/-- The active change was prepared by some input of the run, over the descriptor that was
installed then; what is installed now is that one, or the one the change leads to. -/
theorem run_over (ha : (run o inputs).installed.Active request) :
    ∃ before i after, inputs = before ++ i :: after ∧
      (run o before).store.doc (.maintenanceRequest request) = none ∧
      (run o (before ++ [i])).store.doc (.maintenanceRequest request) ≠ none ∧
      ((run o inputs).installed.progress request).Over (run o before).files.descriptor := by
  have hreceipt : (run o inputs).store.doc (.maintenanceRequest request) ≠ none := by
    obtain ⟨a, hactive, rfl⟩ := ha
    have hstored := (run_consistent o inputs).active a hactive
    simp only [installed] at hstored
    simp [hstored]
  let P : Site → Prop := fun s => s.store.doc (.maintenanceRequest request) ≠ none
  have hfirst : ∃ before i after, inputs = before ++ i :: after ∧
      ¬ P (run o before) ∧ P ((run o before).step i) :=
    Durable.Runs.first (not_not.mpr (install_none rfl)) hreceipt
  obtain ⟨before, i, after, rfl, hnone, hnew⟩ := hfirst
  have hnone : (run o before).store.doc (.maintenanceRequest request) = none := not_not.mp hnone
  have hnew : (run o (before ++ [i])).store.doc (.maintenanceRequest request) ≠ none := by
    rw [run_concat]
    exact hnew
  refine ⟨before, i, after, rfl, hnone, hnew, ?_⟩
  -- nothing is reserved right after the preparation
  obtain ⟨hfiles, hcommit⟩ := step_prepares (run_regular o before) (i := i) hnone
    (by rw [← run_concat]; exact hnew)
  rw [← run_concat] at hfiles hcommit
  have hunreserved : (run o before).store.doc (.maintenanceCommit request) = none := by
    cases hc : (run o before).store.doc (.maintenanceCommit request) with
    | none => rfl
    | some c =>
      obtain ⟨p, hp, -⟩ := (run_consistent o before).fits request c hc
      cases hnone.symm.trans hp
  have hturns := run_turns o (before ++ [i]) after
  rw [List.append_assoc, List.singleton_append] at hturns
  have hsteps := turns_advance (run_consistent o _) hturns hnew ha
  refine Progress.advances_keep Progress.Advance.over hsteps (.inl ⟨hcommit.trans hunreserved, ?_⟩)
  exact congrArg Files.descriptor hfiles

/-- Once the descriptor of the active change is installed, it stays while the change is the
active one. -/
theorem run_done {d : Installation} (ha : (run o inputs).installed.Active request)
    (hd : ((run o inputs).installed.progress request).Done d)
    (ha' : (run o (inputs ++ later)).installed.Active request) :
    ((run o (inputs ++ later)).installed.progress request).Done d := by
  obtain ⟨a, hactive, rfl⟩ := ha
  have hstored := (run_consistent o inputs).active a hactive
  have hsteps := turns_advance (run_consistent o inputs) (run_turns o inputs later)
    (by rw [hstored]; simp) ha'
  exact Progress.advances_keep Progress.Advance.done hsteps hd

/-- An unresolved change is the active one, and the service does not start over it. -/
theorem startup_refused (hp : (run o inputs).store.doc (.maintenanceRequest request) = some p)
    (hstate : p.state.Unresolved) (loaded : Loaded) (replies : ℕ → Reply) :
    ((run o inputs).startup loaded replies).1 ≠ .ok () := by
  have hactive := (run_consistent o inputs).unresolved request p hp hstate
  have hcases := (run o inputs).startup_cases loaded replies
  intro hok
  generalize (run o inputs).startup loaded replies = r at hcases hok
  cases hcases with
  | refused => cases hok
  | begun idle hbegun => exact hbegun.resolved p hactive hstate

/-- A run of `commit`: what it returns is committed and installed, and it is the descriptor that
was fixed; if it ends early, the descriptor is as it was, or the environment ended the run after
that descriptor was installed. -/
theorem commit_outcome {plan : Plan} {current proposed : Loaded}
    {replies : ℕ → Reply} (r : Except Halt CommitRecord × Site)
    (hr : (run o inputs).offline (commitInner plan current proposed request) replies = r) :
    (∀ c, r.1 = .ok c → Completed r.2.installed request c ∧
      ∀ d, ((run o inputs).installed.progress request).target = some d →
        r.2.files.descriptor = d) ∧
    ∀ e, r.1 = .error e → r.2.files.descriptor = (run o inputs).files.descriptor ∨
      (∃ how, e = .ended how) ∧ (r.2.installed.progress request).Done r.2.files.descriptor := by
  have hcases := offline_cases (s := run o inputs)
    (@commitInner_runs _ _ plan current proposed request _) replies
  rw [hr] at hcases
  cases hcases with
  | contended busy => exact ⟨fun c hc => (by cases hc), fun e _ => .inl rfl⟩
  | @halted e i idle stopped =>
    refine ⟨fun c hc => (by cases hc), fun e' he => ?_⟩
    cases he
    rcases stopped.2 with hsame | ⟨hended, c, hc, hafter⟩
    · exact .inl hsame
    · exact .inr ⟨hended, rfl, c, hc, hafter⟩
  | @returned c i idle done =>
    refine ⟨fun c' hc => ?_, fun e he => by cases he⟩
    cases hc
    refine ⟨done.2, fun d hd => ?_⟩
    -- the target was fixed and stays
    have hturns : ReflTransGen Turn (run o inputs).installed i :=
      ReflTransGen.mono (fun _ _ => Turn.altered) _ _ done.1.alters
    have htarget := turns_target (run_consistent o inputs) hturns hd
    simp only [Progress.target, progress, done.2.stored, done.2.installed,
      Option.bind_some] at htarget
    exact Option.some.inj htarget

/-- Running `commit` again for a committed request changes nothing. -/
theorem commit_replays {c : CommitRecord}
    (hc : s.store.doc (.maintenanceCommit request) = some c) (hphase : c.phase = .committed)
    (plan : Plan) (current proposed : Loaded) (replies : ℕ → Reply) :
    s.step (.commit plan current proposed request replies) = s := by
  have hreads :
      Offline.Reads (commitInner plan current proposed request) (fun _ => True) s.installed :=
    commitInner_replays hc hphase
  have hcases := offline_cases hreads replies
  simp only [step]
  generalize s.offline _ replies = r at hcases
  cases hcases with
  | contended busy => rfl
  | halted idle stopped => subst stopped; rfl
  | returned idle done => rw [done.1]; rfl

/-- A change that was ever reserved is not cancelled any more. -/
theorem cancel_refused (hp : (run o inputs).store.doc (.maintenanceRequest request) = some p)
    (hstate : p.state.Reserved) (later : List Input) (current : Loaded) (replies : ℕ → Reply)
    (q : Preparation) :
    ((run o (inputs ++ later)).offline (Host.cancel current request) replies).1 ≠ .ok q := by
  obtain ⟨p', hp', hreserved⟩ := turns_receipt (run_turns o inputs later) hp
  have hcases := offline_cases (s := run o (inputs ++ later)) (@cancel_runs _ _ current request)
    replies
  intro hok
  generalize (run o (inputs ++ later)).offline _ replies = r at hcases hok
  cases hcases with
  | contended | halted => cases hok
  | returned idle done =>
    obtain ⟨-, -, -, old, hold, hprepared⟩ := done
    cases hp'.symm.trans hold
    rcases hreserved hstate with h | h <;> rcases hprepared with h' | h' <;> cases h.symm.trans h'

/-- Every run of a site, in which each tool may end at every one of its effects:
at most one change is unresolved;
while one is, no service starts;
the descriptor that is installed is the one the active change was prepared over, or the one it
leads to, and once it is the latter it stays so while the change is the active one;
what a change leads to is fixed once, and every run of `commit` either installs it, or leaves the
descriptor as it was, or was ended from outside after installing it;
running `commit` again for a committed request changes nothing, whatever came after;
and a change that was ever reserved is never cancelled. -/
theorem binding_change_crash_safe (o : Setup) (inputs : List Input) :
    (∀ r r' p p', (run o inputs).store.doc (.maintenanceRequest r) = some p →
      (run o inputs).store.doc (.maintenanceRequest r') = some p' →
      p.state.Unresolved → p'.state.Unresolved → r = r') ∧
    (∀ r p, (run o inputs).store.doc (.maintenanceRequest r) = some p → p.state.Unresolved →
      ∀ loaded replies, ((run o inputs).startup loaded replies).1 ≠ .ok ()) ∧
    (∀ r, (run o inputs).installed.Active r →
      (∃ before i after, inputs = before ++ i :: after ∧
        (run o before).store.doc (.maintenanceRequest r) = none ∧
        (run o (before ++ [i])).store.doc (.maintenanceRequest r) ≠ none ∧
        ((run o inputs).installed.progress r).Over (run o before).files.descriptor) ∧
      ∀ d, ((run o inputs).installed.progress r).Done d → ∀ later,
        (run o (inputs ++ later)).installed.Active r →
        ((run o (inputs ++ later)).installed.progress r).Done d) ∧
    (∀ r d, ((run o inputs).installed.progress r).target = some d → ∀ later,
      ((run o (inputs ++ later)).installed.progress r).target = some d) ∧
    (∀ plan current proposed request replies t,
      (run o inputs).offline (commitInner plan current proposed request) replies = t →
      (∀ c, t.1 = .ok c → Completed t.2.installed request c ∧
        ∀ d, ((run o inputs).installed.progress request).target = some d →
          t.2.files.descriptor = d) ∧
      ∀ e, t.1 = .error e → t.2.files.descriptor = (run o inputs).files.descriptor ∨
        (∃ how, e = .ended how) ∧ (t.2.installed.progress request).Done t.2.files.descriptor) ∧
    (∀ request c, (run o inputs).store.doc (.maintenanceCommit request) = some c →
      c.phase = .committed → ∀ plan current proposed replies,
        (run o inputs).step (.commit plan current proposed request replies) = run o inputs) ∧
    ∀ r p, (run o inputs).store.doc (.maintenanceRequest r) = some p → p.state.Reserved →
      ∀ later current replies q,
        ((run o (inputs ++ later)).offline (Host.cancel current r) replies).1 ≠ .ok q := by
  refine ⟨fun r r' p p' hp hp' hstate hstate' => ?_, fun r p => startup_refused,
    fun r ha => ⟨run_over ha, fun d hd later ha' => run_done ha hd ha'⟩,
    fun r d hd later => turns_target (run_consistent o inputs) (run_turns o inputs later) hd,
    fun _ _ _ _ _ => commit_outcome, fun r c => commit_replays, fun r p => cancel_refused⟩
  have hi := run_consistent o inputs
  have hsame := (hi.unresolved r p hp hstate).symm.trans (hi.unresolved r' p' hp' hstate')
  rw [← hi.named r p hp, ← hi.named r' p' hp', Option.some.inj hsame]

end Site

end RxSolutions.Host
