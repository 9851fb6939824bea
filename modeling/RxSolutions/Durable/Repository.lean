import Mathlib.Data.List.AList
import RxSolutions.Durable.Program

/-!
# Revisioned key-value repositories with an event journal

A repository holds one row per key, each with a revision that a writer must name
to replace it, and an append-only journal of events numbered from one. The type of
a row's document depends on its key, so a row can only be read at the type it was
written at.

Transactions are `Program`s over the repository. Committing one atomically, or
throwing its writes away on an error, is left to whoever runs it.
-/

namespace Durable

/-- A stored document with the number of times its key was written. -/
structure Row (α : Type) where
  revision : ℕ
  document : α
  deriving DecidableEq, Repr

/-- Rows by key, and journal events (with their identifiers) in commit order. -/
structure Repository {κ : Type} (δ : κ → Type) (ι ν : Type) where
  rows : AList fun k => Row (δ k)
  events : List (ι × ν)

namespace Repository

variable {κ ι ν ε α : Type} {δ : κ → Type}

/-- Nothing stored. -/
def empty : Repository δ ι ν := ⟨∅, []⟩

/-- All stored rows that `select` picks. -/
def scan (r : Repository δ ι ν) (select : (k : κ) → Row (δ k) → Option α) : List α :=
  r.rows.entries.filterMap fun entry => select entry.1 entry.2

/-- The sequence number of the newest event. -/
def journalHead (r : Repository δ ι ν) : ℕ := r.events.length

/-- At most `limit` events after position `after`, with their sequence numbers. -/
def eventsAfter (r : Repository δ ι ν) (after limit : ℕ) : List (ℕ × ι × ν) :=
  ((r.events.zipIdx 1).map fun e => (e.2, e.1)).drop after |>.take limit

theorem map_eventsAfter (r : Repository δ ι ν) (after limit : ℕ) :
    (r.eventsAfter after limit).map Prod.snd = (r.events.drop after).take limit := by
  have h : ((r.events.zipIdx 1).map fun e => (e.2, e.1)).map Prod.snd = r.events := by
    rw [List.map_map]
    exact List.zipIdx_map_fst 1 r.events
  rw [eventsAfter, List.map_take, List.map_drop, h]

variable [DecidableEq κ]

/-- The row stored at a key. -/
def get (r : Repository δ ι ν) (k : κ) : Option (Row (δ k)) := r.rows.lookup k

/-- The document stored at a key. -/
def doc (r : Repository δ ι ν) (k : κ) : Option (δ k) := (r.get k).map Row.document

/-- Replace the row at a key, raising its revision by one. -/
def write (r : Repository δ ι ν) (k : κ) (v : δ k) : Repository δ ι ν :=
  { r with rows := AList.insert k ⟨((r.get k).elim 0 Row.revision) + 1, v⟩ r.rows }

/-- Record one more event. -/
def push (r : Repository δ ι ν) (i : ι) (v : ν) : Repository δ ι ν :=
  { r with events := r.events ++ [(i, v)] }

/-! ## Reading after writing -/

section Lookup

variable {r : Repository δ ι ν} {k l : κ}

@[simp] theorem get_empty : (empty : Repository δ ι ν).get k = none := rfl

@[simp] theorem get_write_self (v : δ k) :
    (r.write k v).get k = some ⟨((r.get k).elim 0 Row.revision) + 1, v⟩ :=
  AList.lookup_insert _

/-- A write leaves every other row. -/
theorem get_write_of_ne (h : l ≠ k) (v : δ k) : (r.write k v).get l = r.get l :=
  AList.lookup_insert_ne h

@[simp] theorem doc_write_self (v : δ k) : (r.write k v).doc k = some v := by
  simp [doc]

/-- A write leaves every other document. -/
theorem doc_write_of_ne (h : l ≠ k) (v : δ k) : (r.write k v).doc l = r.doc l := by
  rw [doc, doc, get_write_of_ne h]

theorem doc_eq_some {v : δ k} : r.doc k = some v ↔ ∃ n, r.get k = some ⟨n, v⟩ := by
  constructor
  · intro h
    obtain ⟨⟨n, w⟩, hrow, rfl⟩ := Option.map_eq_some_iff.mp h
    exact ⟨n, hrow⟩
  · rintro ⟨n, h⟩
    simp [doc, h]

@[simp] theorem doc_eq_none : r.doc k = none ↔ r.get k = none := Option.map_eq_none_iff

/-- Equal rows hold equal documents. -/
theorem doc_congr {r' : Repository δ ι ν} (h : r.get k = r'.get k) : r.doc k = r'.doc k := by
  rw [doc, doc, h]

theorem doc_of_get {row : Row (δ k)} (h : r.get k = some row) : r.doc k = some row.document := by
  simp [doc, h]

@[simp] theorem events_write (v : δ k) : (r.write k v).events = r.events := rfl

@[simp] theorem get_push (i : ι) (v : ν) : (r.push i v).get k = r.get k := rfl

@[simp] theorem doc_push (i : ι) (v : ν) : (r.push i v).doc k = r.doc k := rfl

omit [DecidableEq κ] in
@[simp] theorem events_push (i : ι) (v : ν) : (r.push i v).events = r.events ++ [(i, v)] := rfl

/-- Scanning finds exactly the stored rows. -/
theorem mem_scan {select : (k : κ) → Row (δ k) → Option α} {a : α} :
    a ∈ r.scan select ↔ ∃ k row, r.get k = some row ∧ select k row = some a := by
  simp only [scan, List.mem_filterMap]
  constructor
  · rintro ⟨⟨k, row⟩, hmem, hsel⟩
    exact ⟨k, row, AList.mem_lookup_iff.mpr hmem, hsel⟩
  · rintro ⟨k, row, hget, hsel⟩
    exact ⟨⟨k, row⟩, AList.mem_lookup_iff.mp hget, hsel⟩

end Lookup

/-! ## Frames -/

/-- The repositories differ at touched keys only. -/
structure Frame (touched : κ → Prop) (r r' : Repository δ ι ν) : Prop where
  get : ∀ k, ¬ touched k → r'.get k = r.get k
  events : r'.events = r.events

namespace Frame

variable {touched touched' : κ → Prop} {r r' r'' : Repository δ ι ν} {k : κ}

theorem refl (touched : κ → Prop) (r : Repository δ ι ν) : Frame touched r r :=
  ⟨fun _ _ => rfl, rfl⟩

theorem trans (h : Frame touched r r') (h' : Frame touched r' r'') : Frame touched r r'' :=
  ⟨fun k hk => (h'.get k hk).trans (h.get k hk), h'.events.trans h.events⟩

theorem mono (h : Frame touched r r') (hle : ∀ k, touched k → touched' k) : Frame touched' r r' :=
  ⟨fun k hk => h.get k fun ht => hk (hle k ht), h.events⟩

theorem write (hk : touched k) (v : δ k) : Frame touched r (r.write k v) :=
  ⟨fun _ hl => get_write_of_ne (by rintro rfl; exact hl hk) v, rfl⟩

theorem doc (h : Frame touched r r') (hk : ¬ touched k) : r'.doc k = r.doc k := by
  rw [Repository.doc, Repository.doc, h.get k hk]

end Frame

/-- Every document at one of the keys is still there, unchanged. -/
def Keeps (keys : κ → Prop) (r r' : Repository δ ι ν) : Prop :=
  ∀ k, keys k → ∀ v, r.doc k = some v → r'.doc k = some v

namespace Keeps

variable {keys touched : κ → Prop} {r r' r'' : Repository δ ι ν} {k : κ}

theorem refl (keys : κ → Prop) (r : Repository δ ι ν) : Keeps keys r r := fun _ _ _ h => h

theorem trans (h : Keeps keys r r') (h' : Keeps keys r' r'') : Keeps keys r r'' :=
  fun k hk v hv => h' k hk v (h k hk v hv)

/-- A first document replaces nothing. -/
theorem write_new (hk : r.doc k = none) (v : δ k) : Keeps keys r (r.write k v) := by
  intro l _ w hw
  rw [doc_write_of_ne _ v, hw]
  rintro rfl
  rw [hk] at hw
  cases hw

theorem write_of_not (hk : ¬ keys k) (v : δ k) : Keeps keys r (r.write k v) := by
  intro l hl w hw
  rw [doc_write_of_ne _ v, hw]
  rintro rfl
  exact hk hl

/-- Only the touched keys need a look. -/
theorem of_frame (h : Frame touched r r')
    (htouched : ∀ k, keys k → touched k → ∀ v, r.doc k = some v → r'.doc k = some v) :
    Keeps keys r r' := by
  intro k hk v hv
  by_cases ht : touched k
  · exact htouched k hk ht v hv
  · exact (h.doc ht).trans hv

end Keeps

/-! ## Transaction steps -/

/-- Read the row at a key. -/
def read (k : κ) : Program (Repository δ ι ν) ε (Option (Row (δ k))) := do
  return (← MonadState.get).get k

/-- Write a document at a key whose revision is the expected one (`none`: no row). -/
def put (conflict : ε) (k : κ) (expected : Option ℕ) (v : δ k) :
    Program (Repository δ ι ν) ε Unit := do
  let r ← MonadState.get
  ensure ((r.get k).map Row.revision = expected) conflict
  set (r.write k v)

/-- Record an event. The same event again returns its old number; its identifier
with another document is refused. -/
def append [DecidableEq ι] [DecidableEq ν] (conflict : ε) (i : ι) (v : ν) :
    Program (Repository δ ι ν) ε ℕ := do
  let r ← MonadState.get
  match r.events.findIdx? (fun e => e.1 = i) with
  | some n =>
    ensure (r.events[n]? = some (i, v)) conflict
    return n + 1
  | none =>
    set (r.push i v)
    return r.events.length + 1

section Steps

open Program

variable {r : Repository δ ι ν} {k : κ}

@[simp] theorem commits_put {ok : Unit → Repository δ ι ν → Prop} {conflict : ε}
    {expected : Option ℕ} {v : δ k} :
    Commits (put conflict k expected v) ok r ↔
      ((r.get k).map Row.revision = expected → ok () (r.write k v)) := by
  simp only [put, commits_bind, commits_get, commits_ensure]
  exact Iff.rfl

omit [DecidableEq κ] in
/-- An event whose identifier is new is added at the end. -/
theorem commits_append_of_new [DecidableEq ι] [DecidableEq ν] {ok : ℕ → Repository δ ι ν → Prop}
    {conflict : ε} {i : ι} {v : ν} (hnew : ∀ e ∈ r.events, e.1 ≠ i) :
    Commits (append conflict i v) ok r ↔ ok (r.events.length + 1) (r.push i v) := by
  have hnone : r.events.findIdx? (fun e => e.1 = i) = none := by
    simpa [List.findIdx?_eq_none_iff] using hnew
  simp only [append, commits_bind, commits_get, hnone]
  exact Iff.rfl

/-- A loop whose rounds touch rows of their own, and besides only keys in `aux`. If what a
round does depends on its own rows only, every round does it to the rows as they were
before the loop, and later rounds leave it alone. -/
theorem commits_mapM_local {γ : Type} {f : γ → Program (Repository δ ι ν) ε α} {l : List γ}
    (touch : γ → κ → Prop) (aux : κ → Prop)
    (post : γ → Repository δ ι ν → Repository δ ι ν → Prop)
    (hf : ∀ c ∈ l, ∀ r, Commits (f c) (fun _ r' => post c r r' ∧
      Frame (fun k => touch c k ∨ aux k) r r') r)
    (hlocal : ∀ c r r' s s', (∀ k, touch c k → s.get k = r.get k) →
      (∀ k, touch c k → s'.get k = r'.get k) → post c r r' → post c s s')
    (hdisjoint : l.Pairwise fun c d => ∀ k, touch c k → ¬ touch d k)
    (haux : ∀ c k, touch c k → ¬ aux k) :
    Commits (l.mapM f) (fun _ r' => (∀ c ∈ l, post c r r') ∧
      Frame (fun k => (∃ c ∈ l, touch c k) ∨ aux k) r r') r := by
  induction l generalizing r with
  | nil => exact ⟨by simp, Frame.refl _ r⟩
  | cons c l ih =>
    simp only [List.mapM_cons, commits_bind, commits_pure]
    obtain ⟨hc, hdisjoint⟩ := List.pairwise_cons.mp hdisjoint
    refine (hf c List.mem_cons_self r).mono ?_
    rintro _ r₁ ⟨hpost, hframe⟩
    refine (ih (fun d hd => hf d (List.mem_cons_of_mem c hd)) hdisjoint).mono ?_
    rintro _ r₂ ⟨hl, hframe'⟩
    refine ⟨List.forall_mem_cons.mpr ⟨?_, fun d hd => ?_⟩, ?_⟩
    · refine hlocal c r r₁ r r₂ (fun _ _ => rfl) (fun k hk => ?_) hpost
      refine hframe'.get k ?_
      rintro (⟨d, hd, hdk⟩ | h)
      · exact hc d hd k hk hdk
      · exact haux c k hk h
    · refine hlocal d r₁ r₂ r r₂ (fun k hk => ?_) (fun _ _ => rfl) (hl d hd)
      refine (hframe.get k ?_).symm
      rintro (h | h)
      · exact hc d hd k h hk
      · exact haux d k hk h
    · refine (hframe.mono ?_).trans (hframe'.mono ?_)
      · rintro k (h | h)
        · exact .inl ⟨c, List.mem_cons_self, h⟩
        · exact .inr h
      · rintro k (⟨d, hd, h⟩ | h)
        · exact .inl ⟨d, List.mem_cons_of_mem c hd, h⟩
        · exact .inr h

end Steps

end Repository

end Durable
