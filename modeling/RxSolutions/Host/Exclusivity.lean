import Mathlib.Data.Nat.WithBot
import RxSolutions.Durable.Tokens
import RxSolutions.Host.AtMostOnce
import RxSolutions.Host.Deliveries

/-!
# Grants exclude each other

The fences, the grants and the operations under way on a disk are read as fencing
tokens, and every commit is a step of them or leaves them alone. So while an operation
that was entered may be under way, only the grant it was entered with passes
`validate_current` for one of its resources.
-/

namespace RxSolutions.Host

open Domain Durable Program Relation

/-- A stored grant as a token. -/
def StoredGrant.token (g : StoredGrant) : Token Name where
  covers := { x | x ∈ g.resources }
  fence := g.fence

/-- The fences and the grants of a disk, and the operations that were entered and may be under
way. -/
def Disk.tokens (d : Disk) : Tokens Name Id Id where
  newest x := (d.store.doc (.resource x)).elim ⊥ fun f => (f.maximum : WithBot ℕ)
  grants id := (d.store.doc (.grant id)).map StoredGrant.token
  uses := { u | ∃ e ∈ d.entries, ∃ r, d.store.doc (.delivery e.operation) = some r ∧
    r.state.InFlight ∧ u = (e.operation, e.request.grant, { x | x ∈ r.intent.resourceSet }) }

/-- What is stored about grants. -/
def Key.granting : Key → Bool
  | .grant _ | .resource _ => true
  | _ => false

section Tokens

variable {d d' : Disk} {id : Id} {g : StoredGrant} {x : Name} {f : ResourceFence}

theorem Disk.newest_eq (hf : d.store.doc (.resource x) = some f) :
    d.tokens.newest x = (f.maximum : WithBot ℕ) := by
  simp [Disk.tokens, hf]

theorem Disk.newest_eq_coe {n : ℕ} (h : d.tokens.newest x = (n : WithBot ℕ)) :
    ∃ f, d.store.doc (.resource x) = some f ∧ f.maximum = n := by
  cases hf : d.store.doc (.resource x) with
  | none => simp [Disk.tokens, hf] at h
  | some f =>
    rw [Disk.newest_eq hf] at h
    exact ⟨f, rfl, WithBot.coe_injective h⟩

theorem Disk.le_newest {n : ℕ} (h : (n : WithBot ℕ) ≤ d.tokens.newest x) :
    ∃ f, d.store.doc (.resource x) = some f ∧ n ≤ f.maximum := by
  cases hf : d.store.doc (.resource x) with
  | none => simp [Disk.tokens, hf] at h
  | some f =>
    rw [Disk.newest_eq hf] at h
    exact ⟨f, rfl, WithBot.coe_le_coe.mp h⟩

theorem Disk.grants_eq (hg : d.store.doc (.grant id) = some g) :
    d.tokens.grants id = some g.token := by
  simp [Disk.tokens, hg]

/-- A grant holds a resource if it is stored and covers it under the stored maximum. -/
theorem Disk.holds_iff : d.tokens.Holds id x ↔
    ∃ g, d.store.doc (.grant id) = some g ∧ Covers d.store g x := by
  constructor
  · rintro ⟨k, hk, hcovers, hnewest⟩
    obtain ⟨g, hg, rfl⟩ := Option.map_eq_some_iff.mp hk
    obtain ⟨f, hf, hmaximum⟩ := Disk.newest_eq_coe hnewest
    exact ⟨g, hg, hcovers, f, hf, hmaximum.symm⟩
  · rintro ⟨g, hg, hcovers, f, hf, hfence⟩
    refine ⟨g.token, Disk.grants_eq hg, hcovers, ?_⟩
    rw [Disk.newest_eq hf, ← hfence]
    rfl

/-- Rows that are not touched are read as the same fences and grants. -/
theorem Disk.tokens_eq (hget : ∀ k : Key, k.granting = true → d'.store.get k = d.store.get k) :
    d'.tokens = { d.tokens with uses := d'.tokens.uses } := by
  have hdoc : ∀ k : Key, k.granting = true → d'.store.doc k = d.store.doc k := fun k hk =>
    Repository.doc_congr (hget k hk)
  simp only [Disk.tokens, hdoc _ (rfl : (Key.resource _).granting = true),
    hdoc _ (rfl : (Key.grant _).granting = true)]

theorem Disk.uses_eq (hget : ∀ op, d'.store.get (.delivery op) = d.store.get (.delivery op))
    (hentries : d'.entries = d.entries) : d'.tokens.uses = d.tokens.uses := by
  have hdoc : ∀ op, d'.store.doc (.delivery op) = d.store.doc (.delivery op) := fun op =>
    Repository.doc_congr (hget op)
  simp only [Disk.tokens, hentries, hdoc]

end Tokens

/-! ## Commits refine fencing tokens -/

section Refinement

variable [Ideal] {c : Call} {h h' : Machine} {d d' : Disk}

/-- A step issues a grant, renews one, or leaves grants and fences alone. -/
theorem Step.grants (step : Step c h h') :
    (∀ k : Key, k.granting = true → h'.store.get k = h.store.get k) ∨
    (∃ caller request resources fence ttlNs g,
      c = .acquireGrant caller request resources fence ttlNs ∧
        GrantStep h caller request resources fence ttlNs g h') ∨
    ∃ caller grant sequence g, c = .renewGrant caller grant sequence ∧
      RenewStep h grant sequence g h' := by
  have hsame : (∀ id, ¬ c.Writes (.grant id)) → (∀ x, ¬ c.Writes (.resource x)) →
      ∀ k : Key, k.granting = true → h'.store.get k = h.store.get k := by
    intro hgrant hresource k hk
    cases k with
    | grant id => exact step.get_eq (hgrant id)
    | resource x => exact step.get_eq (hresource x)
    | _ => cases hk
  cases step with
  | granted step => exact .inr (.inl ⟨_, _, _, _, _, _, rfl, step⟩)
  | renewed step => exact .inr (.inr ⟨_, _, _, _, rfl, step⟩)
  | drew => exact .inl fun _ _ => rfl
  | _ =>
    exact .inl (hsame (by simp [Call.Writes, Key.booked, Key.delivers, Touches])
      (by simp [Call.Writes, Key.booked, Key.delivers, Touches]))

/-- The same for a commit. -/
theorem Disk.Move.grants (move : d.Move d') :
    (∀ k : Key, k.granting = true → d'.store.get k = d.store.get k) ∨
    ∃ h h' : Machine, d = h.toDisk ∧ d' = h'.toDisk ∧
      ((∃ caller request resources fence ttlNs g,
        GrantStep h caller request resources fence ttlNs g h') ∨
      ∃ grant sequence g, RenewStep h grant sequence g h') := by
  cases move with
  | drew => exact .inl fun _ _ => rfl
  | booked frame =>
    refine .inl fun k hk => frame.get k fun hb => ?_
    cases k with
    | grant | resource => cases hb
    | _ => cases hk
  | opened step =>
    cases step with
    | mk opened =>
      refine .inl fun k hk => opened.frame.get k ?_
      rintro (rfl | ⟨cell, rfl⟩) <;> cases hk
  | stepped step =>
    rcases step.grants with hsame | ⟨_, _, _, _, _, _, -, hgrant⟩ | ⟨_, _, _, _, -, hrenew⟩
    · exact .inl hsame
    · exact .inr ⟨_, _, rfl, rfl, .inl ⟨_, _, _, _, _, _, hgrant⟩⟩
    · exact .inr ⟨_, _, rfl, rfl, .inr ⟨_, _, _, hrenew⟩⟩

/-- A delivery that may be under way uses no resource of a new grant. -/
theorem GrantStep.unoccupied {caller : Caller} {request : Id} {resources : List Name}
    {fence ttlNs : Counter} {g : StoredGrant}
    (step : GrantStep h caller request resources fence ttlNs g h') {op : Id} {r : DeliveryRecord}
    (hr : h.store.doc (.delivery op) = some r) (hflying : r.state.InFlight) {x : Name}
    (hx : x ∈ r.intent.resourceSet) : x ∉ g.resources := by
  cases step with
  | mk _ _ _ covers _ _ free =>
    intro hcovered
    obtain ⟨n, hrow⟩ := Repository.doc_eq_some.mp hr
    have hunoccupied := free r (Store.mem_deliveries.mpr ⟨op, _, hrow, rfl⟩)
    rw [DeliveryRecord.occupies, decide_eq_false_iff_not] at hunoccupied
    exact hunoccupied ⟨hflying, x, hx, covers ▸ hcovered⟩

/-- A new grant is issued as a token. -/
theorem GrantStep.tokens {caller : Caller} {request : Id} {resources : List Name}
    {fence ttlNs : Counter} {g : StoredGrant}
    (step : GrantStep h caller request resources fence ttlNs g h') :
    Tokens.Step h.tokens h'.tokens := by
  have hfree := fun {op : Id} {r : DeliveryRecord} (hr : h.store.doc (.delivery op) = some r) =>
    step.unoccupied hr
  cases step with
  | @mk s granted id boot covers fenced unrenewed free =>
    have huntouched : ∀ k : Key, (∀ x ∈ g.resources, k ≠ .resource x) → k ≠ .grant g.id →
        k ≠ .grantRequest request → s.doc k = h.store.doc k := by
      intro k hresource hgrant hrequest
      refine granted.frame.doc ?_
      rintro (⟨x, hx, rfl⟩ | rfl | rfl)
      · exact hresource x hx rfl
      · exact hgrant rfl
      · exact hrequest rfl
    have hissue : Disk.tokens { h.toDisk with drawn := h.drawn + 1, store := s } =
        h.tokens.issue g.id g.token := by
      apply Tokens.ext
      · funext x
        by_cases hx : x ∈ g.token.covers
        · rw [Tokens.newest_issue_of_mem hx, Disk.newest_eq (granted.raised x hx)]
          rfl
        · rw [Tokens.newest_issue_of_notMem hx]
          have hdoc := huntouched (.resource x) (fun y hy heq => hx (by cases heq; exact hy))
            (by simp) (by simp)
          simp only [Disk.tokens, hdoc]
      · funext i
        by_cases hi : i = g.id
        · subst hi
          rw [Tokens.grants_issue_self]
          exact Disk.grants_eq granted.stored
        · rw [Tokens.grants_issue_of_ne hi]
          have hdoc := huntouched (.grant i) (by simp) (by simpa using hi) (by simp)
          simp only [Disk.tokens, hdoc]
      · refine Disk.uses_eq (fun op => granted.frame.get _ ?_) rfl
        simp
    have hstep : Tokens.Step h.tokens (h.tokens.issue g.id g.token) := by
      refine .issue ?_ (fun x hx => ?_) ?_
      · simp [Disk.tokens, granted.absent]
      · cases hf : h.store.doc (.resource x) with
        | none => simp [Disk.tokens, hf]
        | some f =>
          rw [Disk.newest_eq hf]
          exact WithBot.coe_lt_coe.mpr (granted.newer x hx f hf)
      · rintro i g' xs ⟨e, he, r, hr, hflying, heq⟩ x hx
        cases heq
        exact hfree hr hflying hx
    rw [hissue]
    exact hstep

omit [Ideal] in
/-- A renewal leaves the tokens alone. -/
theorem RenewStep.tokens {grant : Id} {sequence : Counter} {g : StoredGrant}
    (step : RenewStep h grant sequence g h') : h'.tokens = h.tokens := by
  cases step with
  | @mk g expires found boot newer held =>
    apply Tokens.ext
    · funext x
      simp only [Disk.tokens, Repository.doc_write_of_ne (by simp : Key.resource x ≠ .grant grant)]
    · funext i
      by_cases hi : i = grant
      · subst hi
        simp only [Disk.tokens, found, Repository.doc_write_self]
        rfl
      · have hne : Key.grant i ≠ .grant grant := by simpa using hi
        simp only [Disk.tokens, Repository.doc_write_of_ne hne]
    · exact Disk.uses_eq (fun op => Repository.get_write_of_ne (by simp) _) rfl

/-! ### Operations under way -/

/-- An operation that was entered and may be under way was so before the commit, with the same
intent. -/
theorem Disk.Move.flying (move : d.Move d') (hd : d.Reachable) {e : NativeEntry}
    {r' : DeliveryRecord} (he : e ∈ d.entries)
    (hr' : d'.store.doc (.delivery e.operation) = some r') (hflying : r'.state.InFlight) :
    ∃ r, d.store.doc (.delivery e.operation) = some r ∧ r.state.InFlight ∧
      r'.intent = r.intent := by
  have hlive := hd.sound.live (e.operation, e.request.permit.id) (List.mem_map.mpr ⟨e, he, rfl⟩)
  cases hr : d.store.doc (.delivery e.operation) with
  | none =>
    rw [Disk.ledger, Store.ledger_life_absent hr] at hlive
    rcases hlive with hlife | hlife <;> cases hlife
  | some r =>
    rw [Disk.ledger, Store.ledger_life hr] at hlive
    obtain ⟨r₁, hr₁, hevolves⟩ := move.evolves hd.regular hr
    obtain rfl := Option.some.inj (hr₁.symm.trans hr')
    refine ⟨r, rfl, ?_, hevolves.intent⟩
    -- a settled record is final, and it is not under way
    by_contra hsettled
    have hpending : ¬ r.state.Pending := by
      rintro (hprepared | hfly)
      · rw [hprepared] at hlive
        rcases hlive with hlife | hlife <;> cases hlife
      · exact hsettled hfly
    rw [hevolves.final hpending] at hflying
    exact hsettled hflying

/-- Users leave, unless the commit enters an operation. -/
theorem Disk.Move.uses (move : d.Move d') (hd : d.Reachable) :
    d'.tokens.uses ⊆ d.tokens.uses ∨
    ∃ (h h' : Machine) (caller : Caller) (request : Request) (invocation : Id)
      (r : DeliveryRecord), d = h.toDisk ∧ d' = h'.toDisk ∧
        EnterStep h caller request invocation r h' := by
  have hleave : d'.entries = d.entries → d'.tokens.uses ⊆ d.tokens.uses := by
    rintro hentries _ ⟨e, he, r', hr', hflying, rfl⟩
    rw [hentries] at he
    obtain ⟨r, hr, hfly, hintent⟩ := move.flying hd he hr' hflying
    exact ⟨e, he, r, hr, hfly, by rw [hintent]⟩
  rcases move.operation with hsame | ⟨h, h', rfl, rfl, hstep⟩
  · exact .inl (hleave hsame.entries)
  · cases hstep with
    | entered step => exact .inr ⟨h, h', _, _, _, _, rfl, rfl, step⟩
    | prepared step | voided step => cases step <;> exact .inl (hleave rfl)
    | sent step | captured step => cases step; exact .inl (hleave rfl)

/-- An entry is made under a grant that holds the resources of the operation. -/
theorem EnterStep.tokens {caller : Caller} {request : Request} {invocation : Id}
    {r : DeliveryRecord} (step : EnterStep h caller request invocation r h') (hd : h.Reachable)
    (hget : ∀ k : Key, k.granting = true → h'.store.get k = h.store.get k) :
    Tokens.Step h.tokens h'.tokens := by
  have hmove : Disk.Move h.toDisk h'.toDisk := .stepped (.entered step)
  rw [Disk.tokens_eq hget]
  obtain ⟨e, hentries, hstore, -, -, rfl, hchecked⟩ := step.checked
  obtain ⟨sent, hsent, -, -, -, hdigest, -⟩ := hchecked.sent
  rw [hstore] at hsent
  have hholds : ∀ x ∈ { x | x ∈ sent.intent.resourceSet }, h.tokens.Holds e.request.grant x := by
    intro x hx
    obtain ⟨h₁, caller, hstore₁, -, hcurrent⟩ := hchecked.current
    obtain ⟨k, hk, -, -, -, -, -, -, hcovers⟩ := hcurrent.grant
    rw [hstore₁, hstore] at hk hcovers
    have hsame := Intent.mem_resourceSet_of_digest_eq (r := x)
      (hdigest ▸ (hd.moves (.single hmove)).digested hsent) hchecked.digest
    have hholds : h'.tokens.Holds e.request.grant x :=
      Disk.holds_iff.mpr ⟨k, hk, hcovers x (hsame.mp hx)⟩
    rw [Disk.tokens_eq hget] at hholds
    exact hholds
  have hle : h'.tokens.uses ⊆ insert
      (e.operation, e.request.grant, { x | x ∈ sent.intent.resourceSet }) h.tokens.uses := by
    rintro _ ⟨e', he', r', hr', hflying, rfl⟩
    rw [hentries] at he'
    rcases List.mem_append.mp he' with hold | hnew
    · obtain ⟨r₀, hr₀, hfly, hintent⟩ := hmove.flying hd hold hr' hflying
      exact .inr ⟨e', hold, r₀, hr₀, hfly, by rw [hintent]⟩
    · obtain rfl := List.mem_singleton.mp hnew
      obtain rfl := Option.some.inj (hsent.symm.trans hr')
      exact .inl rfl
  exact .enter hholds hle

/-- Commits refine fencing tokens. -/
theorem Disk.Move.tokens (move : d.Move d') (hd : d.Reachable) :
    d'.tokens = d.tokens ∨ Tokens.Step d.tokens d'.tokens := by
  rcases move.grants with hget | ⟨h, h', rfl, rfl, ⟨_, _, _, _, _, _, hgrant⟩ | ⟨_, _, _, hrenew⟩⟩
  · rcases move.uses hd with hle | ⟨h, h', _, _, _, _, rfl, rfl, hstep⟩
    · rw [Disk.tokens_eq hget]
      exact .inr (.leave hle)
    · exact .inr (hstep.tokens hd hget)
  · exact .inr hgrant.tokens
  · exact .inl hrenew.tokens

theorem Disk.Reachable.tokens_sound (hd : d.Reachable) : d.tokens.Sound := by
  refine hd.inductionOn (P := fun d => d.tokens.Sound) ?_ fun d d' hmove hreach hsound => ?_
  · refine ⟨?_, ?_, ?_⟩
    · intro g k hk
      simp [Disk.tokens, World.empty, Repository.doc] at hk
    · rintro g g' x ⟨k, hk, -⟩
      simp [Disk.tokens, World.empty, Repository.doc] at hk
    · rintro i g xs ⟨e, he, -⟩
      simp [World.empty] at he
  · rcases hmove.tokens hreach with heq | hstep
    · rw [heq]
      exact hsound
    · exact hsound.step hstep

/-- Fences never fall, and grants stay as they were issued. -/
theorem Disk.Moves.tokens (hm : d.Moves d') (hd : d.Reachable) :
    (∀ x, d.tokens.newest x ≤ d'.tokens.newest x) ∧
      ∀ id k, d.tokens.grants id = some k → d'.tokens.grants id = some k := by
  induction hm with
  | refl => exact ⟨fun _ => le_rfl, fun _ _ => id⟩
  | tail hmoves hlast ih =>
    rcases hlast.tokens (hd.moves hmoves) with heq | hstep
    · rw [heq]
      exact ih
    · exact ⟨fun x => (ih.1 x).trans (hstep.newest_le x),
        fun id k hk => hstep.grants_eq (ih.2 id k hk)⟩

end Refinement

/-! ## What runs guarantee about grants -/

section Exclusive

variable [Ideal] {d : Disk} {e : NativeEntry} {r : DeliveryRecord} {id : Id} {g : StoredGrant}
  {x : Name}

/-- On this store, `validate_current` fails for every request that uses the resource under
another grant. -/
def Excludes (s : Store) (grant : Id) (x : Name) : Prop :=
  ∀ state : GateState, state.machine.store = s → ∀ caller request now guard state',
    x ∈ request.intent.resourceSet → request.grant ≠ grant →
      validateCurrent caller request now state ≠ (.ok guard, state')

/-- While an operation that was entered may be under way, its record has the intent it was
entered with. -/
theorem Disk.Reachable.entered_intent (hd : d.Reachable) (he : e ∈ d.entries)
    (hr : d.store.doc (.delivery e.operation) = some r) : r.intent = e.intent := by
  obtain ⟨d₀, hd₀, hmoves, hstore, hentry⟩ := hd.entry_disk he
  obtain ⟨sent, hsent, -, -, hintent, -⟩ := (hd₀.checked e hentry).sent
  rw [← hstore] at hsent
  obtain ⟨r', hr', hevolves⟩ := Disk.Moves.evolves hmoves hd₀.regular hsent
  obtain rfl := Option.some.inj (hr'.symm.trans hr)
  rw [hevolves.intent, hintent]

theorem Disk.Reachable.excludes (hd : d.Reachable) (he : e ∈ d.entries)
    (hr : d.store.doc (.delivery e.operation) = some r) (hflying : r.state.InFlight)
    (hx : x ∈ e.intent.resourceSet) : Excludes d.store e.request.grant x := by
  intro state hstore caller request now guard state' hmem hother hexec
  have hcurrent := Always.returns
    (validateCurrent_reads (h := state.machine) (r := request)) hexec
  obtain ⟨k, hk, -, -, -, -, -, -, hcovers⟩ := hcurrent.2.grant
  rw [hstore] at hk hcovers
  have hholds : d.tokens.Holds request.grant x := Disk.holds_iff.mpr ⟨k, hk, hcovers x hmem⟩
  have huse : (e.operation, e.request.grant, { y | y ∈ r.intent.resourceSet }) ∈ d.tokens.uses :=
    ⟨e, he, r, hr, hflying, rfl⟩
  rw [← hd.entered_intent he hr] at hx
  exact hother (hd.tokens_sound.eq_of_uses huse hx hholds)

/-- The grant that was not there is the one that was issued. -/
theorem GrantStep.stored {h h' : Machine} {caller : Caller} {request : Id} {resources : List Name}
    {fence ttlNs : Counter} {new : StoredGrant}
    (step : GrantStep h caller request resources fence ttlNs new h')
    (habsent : h.store.doc (.grant id) = none) (hg : h'.store.doc (.grant id) = some g) :
    g = new := by
  cases step with
  | mk granted =>
    by_cases hid : id = new.id
    · subst hid
      exact Option.some.inj (hg.symm.trans granted.stored)
    · rw [granted.frame.doc (by simpa using hid), habsent] at hg
      cases hg

namespace World

variable {w : World} {i : Input}

/-- A grant that an input stores was issued by it. -/
theorem step_granted (hw : w.Reachable) (habsent : w.store.doc (.grant id) = none)
    (hg : (w.step i).store.doc (.grant id) = some g) :
    ∃ (p : Process) (caller : Caller) (request : Id) (resources : List Name)
      (fence ttlNs : Counter) (h' : Machine), w.process = some p ∧
      GrantStep (w.machine p) caller request resources fence ttlNs g h' ∧
      (w.step i).store = h'.store := by
  have hnew : w.store.doc (.grant id) ≠ some g := by simp [habsent]
  have hwrites := writes_of_stored hw hnew hg
  rcases i with _ | ⟨c, answers⟩ | _ | ⟨k, v⟩
  case call =>
    cases c with
    | acquireGrant caller request resources fence ttlNs =>
      obtain ⟨p, h', hp, hdisk, v, hstep⟩ := committed_step hnew hg
        (fun _ => acquireGrant_runs) (by rintro _ _ _ (rfl | rfl) <;> rfl)
      rw [hdisk] at hg
      obtain rfl := hstep.stored habsent hg
      exact ⟨p, caller, request, resources, fence, ttlNs, h', hp, hstep, by rw [hdisk]⟩
    | renewGrant caller grant sequence =>
      -- only a grant that is there is renewed
      obtain ⟨p, h', -, -, v, hstep⟩ := committed_step hnew hg
        (fun _ => renewGrant_runs) (by rintro _ _ _ rfl; rfl)
      cases hstep with
      | mk found =>
        have hsame : id = grant := by simpa [Input.Writes, Call.Writes] using hwrites
        subst hsame
        exact absurd (found.symm.trans habsent) (by simp)
    | _ => simp [Input.Writes, Call.Writes, Key.booked, Key.delivers, Touches] at hwrites
  case maintain =>
    obtain ⟨rfl, hb⟩ := hwrites
    cases hb
  all_goals simp [Input.Writes] at hwrites

/-- What grants guarantee, in every continuation of a world. -/
structure GrantsExclude (w : World) : Prop where
  /-- A grant that is newly stored has raised the fence of each of its resources. -/
  raised : ∀ i id g, w.store.doc (.grant id) = none → (w.step i).store.doc (.grant id) = some g →
    ∀ x ∈ g.resources, (∀ f, w.store.doc (.resource x) = some f → f.maximum < g.fence) ∧
      ∃ f, (w.step i).store.doc (.resource x) = some f ∧ f.maximum = g.fence
  /-- Fences never fall. -/
  monotone : ∀ x f, w.store.doc (.resource x) = some f → ∀ after, ∃ f',
    (w.steps after).store.doc (.resource x) = some f' ∧ f.maximum ≤ f'.maximum
  /-- No grant is above the fence of one of its resources. -/
  bounded : ∀ id g, w.store.doc (.grant id) = some g → ∀ x ∈ g.resources, ∃ f,
    w.store.doc (.resource x) = some f ∧ g.fence ≤ f.maximum
  /-- One grant at most carries the fence of a resource. -/
  unique : ∀ id g id' g' x f, w.store.doc (.grant id) = some g →
    w.store.doc (.grant id') = some g' →
    w.store.doc (.resource x) = some f → x ∈ g.resources → x ∈ g'.resources →
    g.fence = f.maximum → g'.fence = f.maximum → id = id'
  /-- A grant keeps its fence and its resources. -/
  kept : ∀ id g, w.store.doc (.grant id) = some g → ∀ after, ∃ g',
    (w.steps after).store.doc (.grant id) = some g' ∧ g'.fence = g.fence ∧
      ∀ x, x ∈ g'.resources ↔ x ∈ g.resources
  /-- A grant that has lost a resource to a newer grant is not renewed. -/
  lost : ∀ p, w.process = some p → ∀ caller id sequence answers g,
    w.store.doc (.grant id) = some g → g.renewSeq ≠ sequence →
    ∀ x ∈ g.resources, ∀ id' g', w.store.doc (.grant id') = some g' → x ∈ g'.resources →
      g.fence < g'.fence → ∀ v, (w.call p (.renewGrant caller id sequence) answers).1 ≠ .ok v
  /-- No grant is issued over a resource of a delivery that may be under way. -/
  free : ∀ i id g, w.store.doc (.grant id) = none → (w.step i).store.doc (.grant id) = some g →
    ∀ x ∈ g.resources, ∀ op r, w.store.doc (.delivery op) = some r → r.state.InFlight →
      x ∉ r.intent.resourceSet
  /-- When an operation is entered, only its grant passes for one of its resources. -/
  entered : ∀ e ∈ w.entries, ∀ x ∈ e.intent.resourceSet, Excludes e.store e.request.grant x
  /-- This stays so as long as the operation may be under way. -/
  flying : ∀ e ∈ w.entries, ∀ r, w.store.doc (.delivery e.operation) = some r →
    r.state.InFlight → ∀ x ∈ e.intent.resourceSet, Excludes w.store e.request.grant x

/-- A grant that has lost a resource is not renewed. -/
theorem renewGrant_ne_ok {p : Process} {caller : Caller} {sequence : Counter} {answers : ℕ → Answer}
    {f : ResourceFence} (hg : w.store.doc (.grant id) = some g) (hnew : g.renewSeq ≠ sequence)
    (hx : x ∈ g.resources) (hf : w.store.doc (.resource x) = some f) (hlost : g.fence < f.maximum)
    (v : StoredGrant) : (w.call p (.renewGrant caller id sequence) answers).1 ≠ .ok v := by
  intro hcall
  obtain ⟨h', a, hok, -⟩ := call_ok (c := .renewGrant caller id sequence)
    (w := w) (p := p) renewGrant_runs (Prod.ext hcall rfl)
  rcases hok with ⟨-, hstored, hsequence⟩ | hstep
  · obtain rfl := Option.some.inj (hg.symm.trans hstored)
    exact hnew hsequence
  · cases hstep with
    | mk found boot newer held =>
      obtain rfl := Option.some.inj (hg.symm.trans found)
      obtain ⟨f', hf', hheld⟩ := held x hx
      obtain rfl := Option.some.inj (hf.symm.trans hf')
      exact hlost.ne' hheld

end World

end Exclusive

/-- Grants exclude each other: a new grant raises the fence of each of its resources, is not
issued over resources in use, and takes them from all older grants, so while an operation
that was entered may be under way, no other grant passes `validate_current` for one of its
resources. -/
theorem grants_exclude_each_other [Ideal] (inputs : List Input) :
    (World.run inputs).GrantsExclude := by
  have hreach := World.run_reachable inputs
  have hsound := hreach.tokens_sound
  have hmoves :
      ∀ after, Disk.Moves (World.run inputs).toDisk ((World.run inputs).steps after).toDisk :=
    World.steps_moves hreach.regular
  have hbounded : ∀ id g, (World.run inputs).store.doc (.grant id) = some g → ∀ x ∈ g.resources,
      ∃ f, (World.run inputs).store.doc (.resource x) = some f ∧ g.fence ≤ f.maximum := by
    intro id g hg x hx
    exact Disk.le_newest (hsound.bounded id g.token (Disk.grants_eq hg) x hx)
  exact {
    raised := by
      intro i id g habsent hg x hx
      obtain ⟨p, caller, request, resources, fence, ttlNs, h', -, hstep, hstore⟩ :=
        World.step_granted hreach habsent hg
      rw [hstore]
      cases hstep with
      | mk granted => exact ⟨granted.newer x hx, _, granted.raised x hx, rfl⟩
    monotone := by
      intro x f hf after
      have hle := (Disk.Moves.tokens (hmoves after) hreach).1 x
      rw [Disk.newest_eq hf] at hle
      exact Disk.le_newest hle
    bounded := hbounded
    unique := by
      intro id g id' g' x f hg hg' hf hx hx' hfence hfence'
      exact hsound.unique id id' x (Disk.holds_iff.mpr ⟨g, hg, hx, f, hf, hfence⟩)
        (Disk.holds_iff.mpr ⟨g', hg', hx', f, hf, hfence'⟩)
    kept := by
      intro id g hg after
      have htoken := (Disk.Moves.tokens (hmoves after) hreach).2 id g.token (Disk.grants_eq hg)
      obtain ⟨g', hg', heq⟩ := Option.map_eq_some_iff.mp htoken
      obtain ⟨hcovers, hfence⟩ := Token.mk.inj heq
      exact ⟨g', hg', hfence, fun x => Set.ext_iff.mp hcovers x⟩
    lost := by
      intro p _ caller id sequence answers g hg hnew x hx id' g' hg' hx' hnewer
      obtain ⟨f, hf, hle⟩ := hbounded id' g' hg' x hx'
      exact World.renewGrant_ne_ok hg hnew hx hf (hnewer.trans_le hle)
    free := by
      intro i id g habsent hg x hx op r hr hflying hmem
      obtain ⟨p, caller, request, resources, fence, ttlNs, h', -, hstep, -⟩ :=
        World.step_granted hreach habsent hg
      exact hstep.unoccupied hr hflying hmem hx
    entered := by
      intro e he x hx
      obtain ⟨d₀, hd₀, -, hstore, hentry⟩ := hreach.entry_disk he
      obtain ⟨sent, hsent, hstate, -⟩ := (hd₀.checked e hentry).sent
      rw [← hstore] at hsent ⊢
      exact hd₀.excludes hentry hsent (.inl hstate) hx
    flying := fun e he r hr hflying x hx => hreach.excludes he hr hflying hx }

end RxSolutions.Host
