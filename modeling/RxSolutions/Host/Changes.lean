import RxSolutions.Host.Maintenance
import RxSolutions.Host.Serving

/-!
# What a tool can do to an installation

`Alter` lists the atomic changes of a binding change: each is one transaction or one rename.
Every run of a tool, wherever it ends, is a sequence of them. Only `prepareInner` begins a change,
and a run of `commitInner` that refuses has left the descriptor alone.
-/

namespace RxSolutions.Host

open Domain Durable Program Relation
open Repository (doc_eq_none doc_eq_some doc_of_get doc_write_of_ne doc_write_self get_write_of_ne)

namespace Offline

variable {α β : Type}

/-- Every run of `m` on the installation `i`, whatever the environment answers. -/
abbrev Runs (m : Offline α) (ok : α → Installed → Prop) (err : Halt → Installed → Prop)
    (i : Installed) : Prop :=
  Program.Always OfflineState.installed m ok err i

/-- Every run of `m` leaves the installation `i` alone, and a returned value satisfies `p`. -/
abbrev Reads (m : Offline α) (p : α → Prop) (i : Installed) : Prop :=
  Program.Reads OfflineState.installed m p i

variable {ok : α → Installed → Prop} {err : Halt → Installed → Prop} {i : Installed}

namespace Reads

theorem reply : Reads Offline.reply (fun _ => True) i := by
  rintro s rfl
  simp only [Offline.reply, wp_bind, wp_get, wp_set]
  cases (s.replies s.tick).ended with
  | none => exact ⟨rfl, trivial⟩
  | some how => exact rfl

theorem check {p : Prop} [Decidable p] {reason : String} :
    Reads (Offline.check p reason) (fun _ => p) i :=
  Reads.ensure

theorem replied {r : Except String α} : Reads (Offline.replied r) (fun a => r = .ok a) i := by
  cases r with
  | ok a => exact Reads.pure rfl
  | error e => exact Reads.throw

theorem checkFiles : Reads Offline.checkFiles (fun _ => True) i :=
  reply.seq fun _ _ => replied.mono fun _ _ => trivial

theorem inspect {plan : Plan} {current proposed : Loaded} :
    Reads (Offline.inspect plan current proposed) (fun _ => True) i :=
  reply.seq fun _ _ => replied.mono fun _ _ => trivial

theorem initializeMetadata {backend : Backend} :
    Reads (Offline.initializeMetadata backend) (fun _ => True) i :=
  reply.seq fun _ _ => replied.mono fun _ _ => trivial

theorem readInstallation : Reads Offline.readInstallation (· = i.files.descriptor) i := by
  refine reply.seq fun _ _ => ?_
  rintro s rfl
  exact ⟨rfl, rfl⟩

theorem findGeneration {path : String} :
    Reads (Offline.findGeneration path) (· = i.files.generations path) i := by
  refine reply.seq fun _ _ => ?_
  rintro s rfl
  exact ⟨rfl, rfl⟩

theorem readGeneration {path : String} :
    Reads (Offline.readGeneration path) (fun g => i.files.generations path = some g) i := by
  refine findGeneration.seq ?_
  rintro _ rfl
  exact Reads.orThrow

end Reads

namespace Runs

/-- A transaction that ends early leaves the store, and commits what its body wrote else. -/
theorem transact {t : Tx α}
    (ht : t.wp (fun a s => ok a { i with store := s }) (fun e _ => err (.store e) i) i.store)
    (hend : ∀ how, err (.ended how) i) : Runs (Offline.transact t) ok err i := by
  have hreply : Runs Offline.reply (fun _ t => t = i) err i := by
    rintro s rfl
    simp only [Offline.reply, wp_bind, wp_get, wp_set]
    cases (s.replies s.tick).ended with
    | none => exact rfl
    | some how => exact hend how
  refine Always.seq hreply ?_
  rintro _ _ rfl
  rintro s rfl
  simp only [wp_bind, wp_get]
  rcases htx : t s.installed.store with ⟨r, store⟩
  simp only [Program.wp, htx] at ht
  cases r with
  | ok a => exact ht
  | error e => exact ht

end Runs

/-- A transaction that writes nothing. -/
theorem Reads.transact {t : Tx α} {p : α → Prop}
    (ht : t.Commits (fun a s => s = i.store ∧ p a) i.store) : Reads (Offline.transact t) p i := by
  refine Runs.transact (wp_mono ht ?_ fun _ _ _ => rfl) fun _ => rfl
  rintro a s ⟨rfl, ha⟩
  exact ⟨rfl, ha⟩

namespace Runs

theorem persist {ok : Unit → Installed → Prop} {descriptor : Installation}
    (hok : ok () { i with files.descriptor := descriptor }) (herr : ∀ e, err e i) :
    Runs (Offline.persist descriptor) ok err i := by
  refine Reads.reply.bind herr fun _ _ => ?_
  rintro s rfl
  exact hok

theorem publishGeneration {ok : Unit → Installed → Prop} {path : String} {g : Generation}
    (hok : i.files.generations path = none →
      ok () { i with files.generations := Function.update i.files.generations path g })
    (herr : ∀ e, err e i) : Runs (Offline.publishGeneration path g) ok err i := by
  refine Reads.findGeneration.bind herr ?_
  rintro _ rfl
  refine Reads.check.bind herr fun _ hnone => ?_
  rintro s rfl
  exact hok (Option.isNone_iff_eq_none.mp hnone)

end Runs

end Offline

/-! ## Atomic changes -/

/-- The keys of maintenance. -/
def Key.maintains : Key → Bool
  | .maintenanceActive | .maintenanceRequest _ | .maintenancePrepared _ | .maintenanceCancelled _
  | .maintenanceCommit _ => true
  | _ => false

namespace Installed

/-- A preparation is written under its request and as the active one, and besides only keys
in `own`. -/
structure Tracks (own : Key → Prop) (request : Id) (p : Preparation) (s s' : Store) : Prop where
  receipt : s'.doc (.maintenanceRequest request) = some p
  active : s'.doc .maintenanceActive = some p
  frame : Repository.Frame
    (fun k => k = .maintenanceRequest request ∨ k = .maintenanceActive ∨ own k) s s'

/-- The change of `request` is the active one and is being committed as `c`. -/
structure Committing (i : Installed) (request : Id) (p : Preparation)
    (c : CommitRecord) : Prop where
  receipt : i.store.doc (.maintenanceRequest request) = some p
  state : p.state = .committing
  active : ∃ a, i.store.doc .maintenanceActive = some a ∧ a.request = request
  stored : i.store.doc (.maintenanceCommit request) = some c
  digest : c.requestDigest = p.requestDigest

/-- One stage of a change that was prepared: a transaction or a rename. -/
inductive Carry [ServiceIdeal] (i : Installed) : Installed → Prop
  | cancelled {request : Id} {p a : Preparation} {s : Store}
      (receipt : i.store.doc (.maintenanceRequest request) = some p)
      (state : p.state = .prepared)
      (active : i.store.doc .maintenanceActive = some a) (same : a.request = request)
      (tracks : Tracks (· = .maintenanceCancelled request) request { p with state := .cancelled }
        i.store s) :
      Carry i { i with store := s }
  | reserved {plan : Plan} {current proposed : Loaded} {request : Id} {binding : Digest}
      {p a : Preparation} {s : Store}
      (receipt : i.store.doc (.maintenanceRequest request) = some p)
      (state : p.state = .prepared)
      (active : i.store.doc .maintenanceActive = some a) (same : a.request = request)
      (unreserved : i.store.doc (.maintenanceCommit request) = none)
      (stored : s.doc (.maintenanceCommit request) = some (.of plan current proposed request
        p.requestDigest p.planDigest binding i.files.descriptor))
      (tracks : Tracks (· = .maintenanceCommit request) request { p with state := .committing }
        i.store s) :
      Carry i { i with store := s }
  | staged {request : Id} {p : Preparation} {c : CommitRecord} {g : Generation}
      (committing : i.Committing request p c) (phase : c.phase = .reserved)
      (absent : i.files.generations c.nativeGeneration = none) :
      Carry i { i with
        files.generations := Function.update i.files.generations c.nativeGeneration g }
  | readied {request : Id} {p : Preparation} {c : CommitRecord} {g : Generation}
      (committing : i.Committing request p c) (phase : c.phase = .reserved)
      (found : i.files.generations c.nativeGeneration = some g) :
      Carry i { i with store := i.store.write (.maintenanceCommit request) (c.ready g) }
  | published {request : Id} {p : Preparation} {c : CommitRecord} {after : Installation}
      (committing : i.Committing request p c) (target : c.afterDescriptor = some after)
      (before : i.files.descriptor = c.beforeDescriptor) :
      Carry i { i with files.descriptor := after }
  | finished {request : Id} {p : Preparation} {c : CommitRecord} {s : Store}
      (committing : i.Committing request p c) (phase : c.phase ≠ .committed)
      (target : c.afterDescriptor = some i.files.descriptor)
      (stored : s.doc (.maintenanceCommit request) = some { c with phase := .committed })
      (tracks : Tracks
        (fun k => k = .maintenanceCommit request ∨ ∃ cell, k = .hostBindingRequired cell)
        request { p with state := .committed, installationChanged := true } i.store s) :
      Carry i { i with store := s }

/-- Stages, one after the other. -/
abbrev Carries [ServiceIdeal] : Installed → Installed → Prop := ReflTransGen Carry

/-- One atomic change: a new preparation, or a stage of one. -/
inductive Alter [ServiceIdeal] (i : Installed) : Installed → Prop
  | prepared {p : Preparation} {s : Store}
      (absent : i.store.doc (.maintenanceRequest p.request) = none)
      (resolved : ∀ a, i.store.doc .maintenanceActive = some a → ¬ a.state.Unresolved)
      (state : p.state = .prepared)
      (tracks : Tracks (· = .maintenancePrepared p.request) p.request p i.store s) :
      Alter i { i with store := s }
  | carried {i' : Installed} (carry : Carry i i') : Alter i i'

/-- Atomic changes, one after the other. -/
abbrev Alters [ServiceIdeal] : Installed → Installed → Prop := ReflTransGen Alter

theorem Carries.alters [ServiceIdeal] {i i' : Installed} (h : Carries i i') : Alters i i' :=
  ReflTransGen.mono (fun _ _ => Alter.carried) _ _ h

/-- The rows a tool may write. -/
def Touched (k : Key) : Prop := k.maintains = true ∨ ∃ cell, k = .hostBindingRequired cell

theorem Tracks.touched {own : Key → Prop} {request : Id} {p : Preparation} {s s' : Store}
    (h : Tracks own request p s s') (hown : ∀ k, own k → Touched k) :
    Repository.Frame Touched s s' := by
  refine h.frame.mono ?_
  rintro k (rfl | rfl | hk)
  · exact .inl rfl
  · exact .inl rfl
  · exact hown k hk

theorem Carry.frame [ServiceIdeal] {i i' : Installed} (h : Carry i i') :
    Repository.Frame Touched i.store i'.store := by
  cases h with
  | cancelled _ _ _ _ tracks | reserved _ _ _ _ _ _ tracks =>
    refine tracks.touched ?_
    rintro _ rfl
    exact .inl rfl
  | staged | published => exact .refl _ _
  | readied => exact .write (.inl rfl) _
  | finished _ _ _ _ tracks =>
    refine tracks.touched ?_
    rintro _ (rfl | ⟨cell, rfl⟩)
    · exact .inl rfl
    · exact .inr ⟨cell, rfl⟩

theorem Alter.frame [ServiceIdeal] {i i' : Installed} (h : Alter i i') :
    Repository.Frame Touched i.store i'.store := by
  cases h with
  | prepared _ _ _ tracks =>
    refine tracks.touched ?_
    rintro _ rfl
    exact .inl rfl
  | carried carry => exact carry.frame

theorem Alters.frame [ServiceIdeal] {i i' : Installed} (h : Alters i i') :
    Repository.Frame Touched i.store i'.store := by
  induction h with
  | refl => exact .refl _ _
  | tail _ hlast ih => exact ih.trans hlast.frame

end Installed

/-! ## Transactions -/

section Transactions

open Installed

variable {s : Store} {plan : Plan} {current proposed : Loaded} {request : Id}

variable {descriptor : Installation}

theorem sameJournals_commits :
    (sameJournals descriptor).Commits (fun _ s' => s' = s ∧ True) s := by
  simp only [sameJournals, hostMeta, commits_bind, Tx.commits_fetch, commits_pure, commits_ensure]
  exact fun _ _ _ => ⟨trivial, trivial⟩

/-- A change was prepared against a seal over the state that is there. -/
structure Approved [ServiceIdeal] (s : Store) (plan : Plan) (current proposed : Loaded)
    (request : Id)
    (stateDigest : Digest) (tail : Counter) (p : Preparation) (s' : Store) : Prop where
  absent : s.doc (.maintenanceRequest request) = none
  resolved : ∀ a, s.doc .maintenanceActive = some a → ¬ a.state.Unresolved
  lifecycle : s.doc .serviceLifecycle = some (.stopped p.stop)
  fresh : ∃ journals, p.stop.Fresh current journals stateDigest tail
  content : p = .of plan current proposed request p.stop
  tracks : Tracks (· = .maintenancePrepared request) request p s s'

theorem prepareTransaction_commits [ServiceIdeal] {stateDigest : Digest} {tail : Counter} :
    (prepareTransaction plan current proposed request stateDigest tail).Commits (fun p s' =>
      (s' = s ∧ s.doc (.maintenanceRequest request) = some p) ∨
      Approved s plan current proposed request stateDigest tail p s') s := by
  simp only [prepareTransaction, commits_bind, Tx.commits_get]
  cases hreceipt : s.get (.maintenanceRequest request) with
  | some row =>
    simp only [commits_bind, commits_ensure, commits_pure]
    exact fun _ => .inl ⟨trivial, doc_of_get hreceipt⟩
  | none =>
    simp only [activePreparation, hostMeta, commits_bind, Tx.commits_get, commits_pure,
      commits_ensure, Tx.commits_fetch]
    intro hresolved row hrow
    split
    · exact commits_throw _
    · next stop hstop =>
      simp only [commits_bind, commits_ensure, commits_pure, Tx.commits_fetch, Tx.commits_get,
        Tx.commits_put]
      intro journals _ hfresh _ _ _
      refine .inr ⟨doc_eq_none.mpr hreceipt, hresolved, ?_, ⟨_, hfresh⟩, rfl, ?_⟩
      · exact (doc_of_get hrow).trans (congrArg some hstop)
      · refine ⟨?_, ?_, ?_⟩
        · rw [doc_write_of_ne (by simp), doc_write_self]
        · rw [doc_write_of_ne (by simp), doc_write_of_ne (by simp),
            doc_write_self]
        · exact ((Repository.Frame.write (.inr (.inl rfl)) _).trans (.write (.inl rfl) _)).trans
            (.write (.inr (.inr rfl)) _)

theorem cancelTransaction_commits :
    (cancelTransaction request).Commits (fun p s' =>
      (s' = s ∧ s.doc (.maintenanceRequest request) = some p ∧ p.state = .cancelled) ∨
      ∃ old a, s.doc (.maintenanceRequest request) = some old ∧ old.state = .prepared ∧
        s.doc .maintenanceActive = some a ∧ a.request = request ∧
        p = { old with state := .cancelled } ∧
        Tracks (· = .maintenanceCancelled request) request p s s') s := by
  simp only [cancelTransaction, commits_bind, Tx.commits_fetch]
  intro row hrow
  have hreceipt := doc_of_get hrow
  split
  · next hcancelled => exact .inl ⟨rfl, hreceipt, hcancelled⟩
  · simp only [commits_bind, commits_ensure, commits_pure, Tx.commits_fetch, Tx.commits_put]
    intro hstate active hactive hsame _ _ _
    refine .inr ⟨row.document, active.document, hreceipt, hstate, doc_of_get hactive,
      hsame.1, rfl, ?_, ?_, ?_⟩
    · rw [doc_write_of_ne (by simp), doc_write_of_ne (by simp),
        doc_write_self]
    · rw [doc_write_of_ne (by simp), doc_write_self]
    · exact ((Repository.Frame.write (.inl rfl) _).trans (.write (.inr (.inl rfl)) _)).trans
        (.write (.inr (.inr rfl)) _)

/-- A change was reserved for commit. -/
structure Reserved (s : Store) (plan : Plan) (current proposed : Loaded) (request : Id)
    (descriptor : Installation) (c : CommitRecord) (s' : Store) : Prop where
  prepared : ∃ p a, s.doc (.maintenanceRequest request) = some p ∧ p.state = .prepared ∧
    s.doc .maintenanceActive = some a ∧ a.request = request ∧
    (∃ binding, c = .of plan current proposed request p.requestDigest p.planDigest binding
      descriptor) ∧
    Tracks (· = .maintenanceCommit request) request { p with state := .committing } s s'
  unreserved : s.doc (.maintenanceCommit request) = none
  stored : s'.doc (.maintenanceCommit request) = some c

theorem reserve_commits [Ideal] {fingerprint stateDigest : Digest} {tail : Counter} :
    (reserve plan current proposed request fingerprint descriptor stateDigest tail).Commits
      (fun c s' => Reserved s plan current proposed request descriptor c s' ∧
        c.requestDigest = fingerprint ∧ c.phase = .reserved) s := by
  simp only [reserve, activePreparation, commits_bind, Tx.commits_fetch, Tx.commits_get,
    commits_pure, commits_orThrow, commits_ensure, Tx.commits_checked, Tx.commits_put]
  rintro row hrow active hactive ⟨hstate, hsame, rfl, -, -⟩ canonical - - activeRow - - hnew
  rw [get_write_of_ne (by simp), get_write_of_ne (by simp),
    Option.map_eq_none_iff] at hnew
  refine ⟨⟨⟨row.document, active, doc_of_get hrow, hstate, hactive, hsame,
    ⟨_, rfl⟩, ?_, ?_, ?_⟩, doc_eq_none.mpr hnew, doc_write_self _⟩, rfl, rfl⟩
  · rw [doc_write_of_ne (by simp), doc_write_of_ne (by simp),
      doc_write_self]
  · rw [doc_write_of_ne (by simp), doc_write_self]
  · exact ((Repository.Frame.write (.inl rfl) _).trans (.write (.inr (.inl rfl)) _)).trans
      (.write (.inr (.inr rfl)) _)

theorem verifyStopped_commits {fingerprint stateDigest : Digest} {tail : Counter} :
    (verifyStopped request fingerprint stateDigest tail).Commits (fun _ s' => s' = s ∧
      ∃ p a, s.doc (.maintenanceRequest request) = some p ∧ p.state = .committing ∧
        p.requestDigest = fingerprint ∧ s.doc .maintenanceActive = some a ∧ a.request = request)
      s := by
  simp only [verifyStopped, activePreparation, commits_bind, Tx.commits_fetch, Tx.commits_get,
    commits_pure, commits_orThrow, commits_ensure]
  rintro row hrow active hactive _ _ ⟨hstate, -, hsame, hdigest, -⟩
  exact ⟨trivial, row.document, active, doc_of_get hrow, hstate, hdigest, hactive, hsame⟩

/-- A startup was marked. -/
structure Begun (s : Store) (identity startup : Digest) (attempt : Id) (s' : Store) : Prop where
  resolved : ∀ a, s.doc .maintenanceActive = some a → ¬ a.state.Unresolved
  lifecycle : s'.doc .serviceLifecycle = some (.starting none attempt identity startup)
  frame : Repository.Frame (fun k => k = .serviceLifecycle ∨ k = .serviceStart attempt) s s'

variable {attempt : Id}

theorem beginStartup_commits {identity startup : Digest} :
    (beginStartup identity startup attempt).Commits
      (fun _ s' => Begun s identity startup attempt s') s := by
  simp only [beginStartup, activePreparation, commits_bind, Tx.commits_get, commits_pure,
    commits_ensure, Tx.commits_put]
  intro hresolved _ _
  refine ⟨hresolved, ?_, (Repository.Frame.write (.inl rfl) _).trans (.write (.inr rfl) _)⟩
  rw [doc_write_of_ne (by simp), doc_write_self]

theorem checkCell_commits {b : Binding} : (checkCell b).Commits (fun _ s' => s' = s ∧ True) s := by
  simp only [checkCell, commits_bind, Tx.commits_fetch, commits_ensure]
  exact fun _ _ _ => ⟨trivial, trivial⟩

theorem startupTransaction_commits [ServiceIdeal] {loaded : Loaded} :
    (startupTransaction loaded descriptor attempt).Commits (fun _ s' =>
      Begun s loaded.identity (ServiceIdeal.startupDigest loaded.config) attempt s') s := by
  simp only [startupTransaction, commits_bind, Tx.commits_fetch, commits_ensure]
  intro _ _ _
  refine (commits_forM_check fun b _ => checkCell_commits).mono ?_
  rintro _ _ ⟨rfl, -⟩
  exact beginStartup_commits

/-- A stop was sealed over the state that is there. -/
structure Sealed [ServiceIdeal] (h : Machine) (snapshot : StopSnapshot) (stop : StopSeal)
    (h' : Machine) : Prop where
  safe : snapshot.safeToDrop = true
  content : stop.snapshot = snapshot
  digest : stop.stateDigest = h.store.operationalDigest
  tail : stop.journalTail = h.store.events.length
  lifecycle : h'.store.doc .serviceLifecycle = some (.stopped stop)
  frame : Repository.Frame (fun k => k = .serviceLifecycle ∨ ∃ attempt, k = .serviceStop attempt)
    h.store h'.store
  rest : h' = { h with store := h'.store }

theorem sealServiceStop_runs [ServiceIdeal] {h : Machine} {identity startup : Digest}
    {snapshot : StopSnapshot} :
    Gate.Runs (sealServiceStop identity startup attempt snapshot) (Sealed h snapshot)
      (fun _ h' => h' = h) h := by
  refine Gate.Reads.requireStopping.bind (fun _ => rfl) fun _ _ => ?_
  refine Gate.Reads.core.bind (fun _ => rfl) fun _ _ => ?_
  refine Gate.Reads.require.bind (fun _ => rfl) fun _ _ => ?_
  refine Gate.Reads.require.bind (fun _ => rfl) fun _ hsafe => ?_
  have hdigest : Gate.Reads (transact do return (← MonadState.get).operationalDigest)
      (· = h.store.operationalDigest) h := Gate.Reads.transact ⟨rfl, rfl⟩
  refine hdigest.bind (fun _ => rfl) ?_
  rintro _ rfl
  refine Gate.Reads.journalHead.bind (fun _ => rfl) ?_
  rintro _ rfl
  refine Gate.Runs.transact ?_ fun _ => rfl
  simp only [sealLifecycle, commits_bind, Tx.commits_fetch]
  intro row _
  split
  · simp only [hostMeta, commits_bind, commits_ensure, Tx.commits_fetch, commits_pure,
      Tx.commits_put]
    intro _ journals _ _ _
    refine ⟨hsafe.2, rfl, rfl, rfl, ?_, ?_, rfl⟩
    · rw [doc_write_of_ne (by simp), doc_write_self]
    · exact (Repository.Frame.write (.inl rfl) _).trans (.write (.inr ⟨_, rfl⟩) _)
  · exact commits_throw _

/-- The last transaction of a commit finds everything in place. -/
theorem finishCommit_completes {i : Installed} {p : Preparation} {c : CommitRecord}
    (hc : i.Committing request p c) :
    (finishCommit plan request c).Completes (fun _ s' =>
      s'.doc (.maintenanceCommit request) = some { c with phase := .committed } ∧
      Tracks (fun k => k = .maintenanceCommit request ∨ ∃ cell, k = .hostBindingRequired cell)
        request { p with state := .committed, installationChanged := true } i.store s')
      i.store := by
  obtain ⟨n, hrow⟩ := doc_eq_some.mp hc.receipt
  obtain ⟨a, hactive, -⟩ := hc.active
  obtain ⟨m, hactive⟩ := doc_eq_some.mp hactive
  obtain ⟨l, hstored⟩ := doc_eq_some.mp hc.stored
  rw [Completes, finishCommit, wp_bind, Tx.wp_fetch hrow, wp_bind, wp_ensure]
  refine ⟨fun _ => ?_, fun hn => hn ⟨hc.state, hc.digest.symm⟩⟩
  rw [wp_bind]
  refine Tx.wp_put (by rw [hrow]; rfl) ?_
  rw [wp_bind, Tx.wp_fetch ((get_write_of_ne (by simp) _).trans hactive)]
  rw [wp_bind]
  refine Tx.wp_put (by rw [get_write_of_ne (by simp), hactive]; rfl) ?_
  rw [wp_bind, replaceCommit, wp_bind, Tx.wp_fetch ((get_write_of_ne (by simp) _).trans
    ((get_write_of_ne (by simp) _).trans hstored))]
  refine Tx.wp_put (by
    rw [get_write_of_ne (by simp), get_write_of_ne (by simp), hstored]
    rfl) ?_
  rw [wp_bind, Tx.wp_get]
  refine Tx.wp_put rfl ⟨?_, ?_, ?_, ?_⟩
  · rw [doc_write_of_ne (by simp), doc_write_self]
  · rw [doc_write_of_ne (by simp), doc_write_of_ne (by simp),
      doc_write_of_ne (by simp), doc_write_self]
  · rw [doc_write_of_ne (by simp), doc_write_of_ne (by simp),
      doc_write_self]
  · exact (((Repository.Frame.write (.inl rfl) _).trans (.write (.inr (.inl rfl)) _)).trans
      (.write (.inr (.inr (.inl rfl))) _)).trans (.write (.inr (.inr (.inr ⟨_, rfl⟩))) _)

end Transactions

/-! ## Runs of the tools -/

section Runs

open Installed Offline

variable [ServiceIdeal] {i : Installed} {plan : Plan} {current proposed : Loaded} {request : Id}

theorem operationalDigest_reads :
    Offline.Reads (Offline.transact do return (← MonadState.get).operationalDigest)
      (· = i.store.operationalDigest) i :=
  .transact ⟨rfl, rfl⟩

omit [ServiceIdeal] in
theorem journalHead_reads :
    Offline.Reads (Offline.transact do return (← MonadState.get).journalHead)
      (· = i.store.events.length) i :=
  .transact ⟨rfl, rfl⟩

variable {loaded : Loaded}

omit [ServiceIdeal] in
theorem stoppedStore_reads :
    Offline.Reads (stoppedStore loaded) (fun _ => True) i := by
  refine Reads.checkFiles.seq fun _ _ => ?_
  refine Reads.readInstallation.seq fun descriptor _ => ?_
  refine Reads.check.seq fun _ _ => ?_
  exact Reads.transact sameJournals_commits

/-- The service marks its startup, or does nothing. -/
theorem runStartup_runs {attempt : Id} :
    Offline.Runs (runStartup loaded attempt)
      (fun _ i' => ∃ s, i' = { i with store := s } ∧
        Begun i.store loaded.identity (ServiceIdeal.startupDigest loaded.config) attempt s)
      (fun _ i' => i' = i) i := by
  refine Reads.checkFiles.bind (fun _ => rfl) fun _ _ => ?_
  refine Reads.readInstallation.bind (fun _ => rfl) fun descriptor _ => ?_
  refine Reads.check.bind (fun _ => rfl) fun _ _ => ?_
  refine Runs.transact (wp_mono startupTransaction_commits ?_ fun _ _ _ => rfl) fun _ => rfl
  exact fun _ s hs => ⟨s, rfl, hs⟩

/-- A tool returns the preparation that is recorded for its request, or grants a new one against
the sealed stop. -/
theorem prepareInner_runs :
    Offline.Runs (prepareInner plan current proposed request)
      (fun p i' => (i' = i ∧ i.store.doc (.maintenanceRequest request) = some p) ∨
        ∃ s, i' = { i with store := s } ∧ Approved i.store plan current proposed request
          i.store.operationalDigest i.store.events.length p s)
      (fun _ i' => i' = i) i := by
  refine Reads.inspect.bind (fun _ => rfl) fun _ _ => ?_
  refine Reads.check.bind (fun _ => rfl) fun _ _ => ?_
  refine stoppedStore_reads.bind (fun _ => rfl) fun _ _ => ?_
  refine operationalDigest_reads.bind (fun _ => rfl) ?_
  rintro _ rfl
  refine journalHead_reads.bind (fun _ => rfl) ?_
  rintro _ rfl
  refine Runs.transact (wp_mono prepareTransaction_commits ?_ fun _ _ _ => rfl) fun _ => rfl
  rintro p s (⟨rfl, hreceipt⟩ | hgranted)
  · exact .inl ⟨rfl, hreceipt⟩
  · exact .inr ⟨s, rfl, hgranted⟩

variable {p : Preparation}

theorem Approved.alter {stateDigest : Digest} {tail : Counter} {s : Store}
    (h : Approved i.store plan current proposed request stateDigest tail p s) :
    Alter i { i with store := s } := by
  have hrequest : p.request = request := by rw [h.content]; rfl
  have hstate : p.state = .prepared := by rw [h.content]; rfl
  have habsent := h.absent
  have htracks := h.tracks
  rw [← hrequest] at habsent htracks
  exact .prepared habsent h.resolved hstate htracks

/-- `cancel` returns a cancelled change, which it has just cancelled or found. -/
theorem cancel_runs :
    Offline.Runs (cancel current request)
      (fun p i' => Carries i i' ∧ p.state = .cancelled ∧
        i'.store.doc (.maintenanceRequest request) = some p ∧
        ∃ old, i.store.doc (.maintenanceRequest request) = some old ∧
          (old.state = .prepared ∨ old.state = .cancelled))
      (fun _ i' => i' = i) i := by
  refine stoppedStore_reads.bind (fun _ => rfl) fun _ _ => ?_
  refine Runs.transact (wp_mono cancelTransaction_commits ?_ fun _ _ _ => rfl) fun _ => rfl
  rintro p s (⟨rfl, hreceipt, hstate⟩ | ⟨old, a, hreceipt, hstate, hactive, hsame, rfl, htracks⟩)
  · exact ⟨.refl, hstate, hreceipt, p, hreceipt, .inr hstate⟩
  · exact ⟨.single (.cancelled hreceipt hstate hactive hsame htracks), rfl, htracks.receipt,
      old, hreceipt, .inl hstate⟩

omit [ServiceIdeal] in
theorem existingStore_reads :
    Offline.Reads (existingStore loaded) (· = i.files.descriptor) i := by
  refine Reads.checkFiles.seq fun _ _ => ?_
  refine Reads.readInstallation.seq ?_
  rintro _ rfl
  refine Reads.check.seq fun _ _ => ?_
  refine Reads.checkFiles.seq fun _ _ => ?_
  refine (Reads.transact sameJournals_commits).seq fun _ _ => ?_
  exact Reads.pure rfl

omit [ServiceIdeal] in
theorem sameScopes_reads {old : Binding} :
    Offline.Reads (sameScopes proposed old) (fun _ => True) i := by
  refine Reads.orThrow.seq fun next _ => ?_
  exact Reads.check.mono fun _ _ => trivial

/-- A tool that ends early has made atomic changes. It has left the descriptor, unless the
environment ended it after the descriptor of `request` was installed. -/
def Ended (request : Id) (i : Installed) (e : Halt) (i' : Installed) : Prop :=
  Carries i i' ∧ (i'.files.descriptor = i.files.descriptor ∨ (∃ how, e = .ended how) ∧
    ∃ c, i'.store.doc (.maintenanceCommit request) = some c ∧
      c.afterDescriptor = some i'.files.descriptor)

theorem Ended.refl (e : Halt) : Ended request i e i := ⟨.refl, .inl rfl⟩

theorem Ended.of_carries {i' i'' : Installed} {e : Halt} (hm : Carries i i')
    (hd : i'.files.descriptor = i.files.descriptor) (h : Ended request i' e i'') :
    Ended request i e i'' :=
  ⟨hm.trans h.1, h.2.imp (fun hsame => hsame.trans hd) fun hinstalled => hinstalled⟩

variable {c : CommitRecord}

/-- From `Reserved` to `NativeReady`: the generation that is there is used, or a new one is put
in place first. -/
theorem stageNative_runs (hc : i.Committing request p c) (hphase : c.phase = .reserved) :
    Offline.Runs (stageNative proposed request c)
      (fun c' i' => Carries i i' ∧ i'.files.descriptor = i.files.descriptor ∧
        i'.Committing request p c' ∧ c'.phase = .nativeReady) (Ended request i) i := by
  -- what follows once a generation is in place
  have hready : ∀ j : Installed, Carries i j → j.files.descriptor = i.files.descriptor →
      j.Committing request p c → Offline.Runs (do
        Offline.checkFiles
        let generation ← Offline.readGeneration c.nativeGeneration
        Offline.check (generation.request = request ∧
          generation.proposedIdentity = proposed.identity)
          "native generation belongs to another transition"
        Offline.transact (replaceCommit request (c.ready generation))
        return c.ready generation)
      (fun c' i' => Carries i i' ∧ i'.files.descriptor = i.files.descriptor ∧
        i'.Committing request p c' ∧ c'.phase = .nativeReady) (Ended request i) j := by
    intro j hij hd hj
    have hend : ∀ e, Ended request i e j := fun e => ⟨hij, .inl hd⟩
    refine Reads.checkFiles.bind hend fun _ _ => ?_
    refine Reads.readGeneration.bind hend fun g hg => ?_
    refine Reads.check.bind hend fun _ _ => ?_
    obtain ⟨n, hstored⟩ := doc_eq_some.mp hj.stored
    refine Always.bind (Runs.transact ?_ fun _ => hend _)
    rw [replaceCommit, wp_bind, Tx.wp_fetch hstored]
    refine Tx.wp_put (by rw [hstored]; rfl) (Always.pure ⟨?_, hd, ⟨?_, hj.state, ?_, ?_, ?_⟩, rfl⟩)
    · exact hij.tail (.readied hj hphase hg)
    · exact (doc_write_of_ne (by simp) _).trans hj.receipt
    · obtain ⟨a, ha, hsame⟩ := hj.active
      exact ⟨a, (doc_write_of_ne (by simp) _).trans ha, hsame⟩
    · exact doc_write_self _
    · exact hj.digest
  refine Reads.checkFiles.bind Ended.refl fun _ _ => ?_
  refine Reads.findGeneration.bind Ended.refl ?_
  rintro _ rfl
  cases hg : i.files.generations c.nativeGeneration with
  | some g => exact hready i .refl rfl hc
  | none =>
    refine Reads.initializeMetadata.bind Ended.refl fun native _ => ?_
    refine Always.bind (Runs.publishGeneration (fun _ => ?_) Ended.refl)
    exact hready _ (.single (.staged hc hphase hg)) rfl
      ⟨hc.receipt, hc.state, hc.active, hc.stored, hc.digest⟩

/-- The changed descriptor is installed, or was. -/
theorem publishDescriptor_runs (hc : i.Committing request p c) :
    Offline.Runs (publishDescriptor c)
      (fun _ i' => Carries i i' ∧ i'.Committing request p c ∧
        c.afterDescriptor = some i'.files.descriptor) (Ended request i) i := by
  refine Reads.readInstallation.bind Ended.refl ?_
  rintro _ rfl
  refine Reads.orThrow.bind Ended.refl fun after hafter => ?_
  refine Always.ite (fun hsame => Always.pure ⟨.refl, hc, ?_⟩) fun _ => ?_
  · rw [hafter, hsame]
  · refine Reads.check.bind Ended.refl fun _ hbefore => ?_
    refine Runs.persist ⟨.single (.published hc hafter hbefore), ?_, hafter⟩ Ended.refl
    exact ⟨hc.receipt, hc.state, hc.active, hc.stored, hc.digest⟩

/-- What a completed commit leaves. -/
structure Completed (i : Installed) (request : Id) (c : CommitRecord) : Prop where
  stored : i.store.doc (.maintenanceCommit request) = some c
  phase : c.phase = .committed
  installed : c.afterDescriptor = some i.files.descriptor

theorem completeCommit_runs {fingerprint : Digest}
    (hstored : i.store.doc (.maintenanceCommit request) = some c)
    (hdigest : c.requestDigest = fingerprint) (hphase : c.phase ≠ .committed) :
    Offline.Runs (completeCommit plan proposed request fingerprint c)
      (fun c' i' => Carries i i' ∧ Completed i' request c') (Ended request i) i := by
  refine operationalDigest_reads.bind Ended.refl fun _ _ => ?_
  refine journalHead_reads.bind Ended.refl fun _ _ => ?_
  refine (Reads.transact verifyStopped_commits).bind Ended.refl ?_
  rintro _ ⟨p, a, hreceipt, hstate, hfingerprint, hactive, hsame⟩
  have hc : i.Committing request p c :=
    ⟨hreceipt, hstate, ⟨a, hactive, hsame⟩, hstored, hdigest.trans hfingerprint.symm⟩
  have hstage : Offline.Runs (ensureNative proposed request c)
      (fun c' i' => Carries i i' ∧ i'.files.descriptor = i.files.descriptor ∧
        i'.Committing request p c' ∧ c'.phase ≠ .committed) (Ended request i) i := by
    refine Always.ite (fun hreserved => ?_) fun _ => ?_
    · refine Always.mono (stageNative_runs hc hreserved) ?_ fun _ _ h => h
      rintro c' i' ⟨hm, hd, hc', hready⟩
      exact ⟨hm, hd, hc', by rw [hready]; simp⟩
    · exact Always.pure ⟨.refl, rfl, hc, hphase⟩
  refine Always.seq hstage ?_
  rintro c' j ⟨hij, hd, hc', hphase'⟩
  have hend : ∀ e, Ended request i e j := fun e => ⟨hij, .inl hd⟩
  refine Reads.readGeneration.bind hend fun g _ => ?_
  refine Reads.check.bind hend fun _ _ => ?_
  refine Always.bind (Always.mono (publishDescriptor_runs hc') ?_
    fun _ _ h => h.of_carries hij hd)
  rintro _ l ⟨hjl, hc'', hafter⟩
  -- nothing refuses any more: the descriptor may have changed
  have hended : ∀ how, Ended request i (.ended how) l := fun how =>
    ⟨hij.trans hjl, .inr ⟨⟨how, rfl⟩, c', hc''.stored, hafter⟩⟩
  refine Always.bind (Runs.transact
    (wp_mono (finishCommit_completes hc'') ?_ fun _ _ => False.elim) hended)
  rintro _ s ⟨hcommitted, htracks⟩
  refine Always.pure ⟨(hij.trans hjl).tail ?_, hcommitted, rfl, hafter⟩
  exact .finished hc'' hphase' hafter hcommitted htracks

/-- Every run of `commit` makes atomic changes. If it returns, the change is committed and its
descriptor installed; if it refuses, the descriptor is as before. -/
theorem commitInner_runs [Ideal] :
    Offline.Runs (commitInner plan current proposed request)
      (fun c i' => Carries i i' ∧ Completed i' request c) (Ended request i) i := by
  refine Reads.check.bind Ended.refl fun _ _ => ?_
  refine Reads.inspect.bind Ended.refl fun _ _ => ?_
  refine Reads.check.bind Ended.refl fun _ _ => ?_
  refine (Reads.forM fun old _ => sameScopes_reads).bind Ended.refl fun _ _ => ?_
  refine existingStore_reads.bind Ended.refl ?_
  rintro _ rfl
  have hread : Offline.Reads (Offline.transact (readCommit request))
      (· = i.store.doc (.maintenanceCommit request)) i := Reads.transact ⟨rfl, rfl⟩
  refine hread.bind Ended.refl ?_
  rintro _ rfl
  cases hstored : i.store.doc (.maintenanceCommit request) with
  | some old =>
    refine Reads.check.bind Ended.refl fun _ hdigest => ?_
    refine Always.ite (fun hcommitted => ?_) fun hphase => ?_
    · refine Reads.check.bind Ended.refl fun _ hinstalled => ?_
      exact Always.pure ⟨.refl, hstored, hcommitted, hinstalled⟩
    · exact completeCommit_runs hstored hdigest hphase
  | none =>
    refine Reads.check.bind Ended.refl fun _ _ => ?_
    refine operationalDigest_reads.bind Ended.refl fun _ _ => ?_
    refine journalHead_reads.bind Ended.refl fun _ _ => ?_
    refine Always.bind (Runs.transact (wp_mono reserve_commits ?_ fun _ _ _ => Ended.refl _)
      fun _ => Ended.refl _)
    rintro c s ⟨⟨⟨p, a, hreceipt, hstate, hactive, hsame, ⟨binding, rfl⟩, htracks⟩,
      hunreserved, hreserved⟩, hdigest, hphase⟩
    have hcarry : Carry i { i with store := s } :=
      .reserved hreceipt hstate hactive hsame hunreserved hreserved htracks
    refine Always.mono (completeCommit_runs hreserved hdigest (by rw [hphase]; simp)) ?_ ?_
    · rintro c' i' ⟨hm, hdone⟩
      exact ⟨hm.head hcarry, hdone⟩
    · intro e i' hended
      exact hended.of_carries (.single hcarry) rfl

/-- A request that was committed is only looked at. -/
theorem commitInner_replays [Ideal] (hstored : i.store.doc (.maintenanceCommit request) = some c)
    (hphase : c.phase = .committed) :
    Offline.Reads (commitInner plan current proposed request) (fun _ => True) i := by
  refine Reads.check.seq fun _ _ => ?_
  refine Reads.inspect.seq fun _ _ => ?_
  refine Reads.check.seq fun _ _ => ?_
  refine (Reads.forM fun old _ => sameScopes_reads).seq fun _ _ => ?_
  refine existingStore_reads.seq fun descriptor _ => ?_
  have hread : Offline.Reads (Offline.transact (readCommit request)) (· = some c) i :=
    Reads.transact ⟨rfl, hstored⟩
  refine hread.seq ?_
  rintro _ rfl
  refine Reads.check.seq fun _ _ => ?_
  rw [if_pos hphase]
  exact Reads.check.seq fun _ _ => Reads.pure trivial

end Runs

end RxSolutions.Host
