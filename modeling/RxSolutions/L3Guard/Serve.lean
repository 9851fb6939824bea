import RxSolutions.Durable.Program
import RxSolutions.Durable.History
import RxSolutions.Durable.Runs

/-!
# The L3 service-generation gate

A serve of the gate takes the next generation number, starts a child under it, and on a stop
request leaves a fence in the state directory before it ends the child; a serve that finds the
fence starts nothing. Number and fence are replaced through a temporary file next to them. A
serve may die at each of its effects, by itself or with the machine; in the second case each
entry of the directory is what it was then or what had been synced last.

The numbers handed out rise and no child is started after an accepted stop, whatever happened
before. That a stop request ends the child and leaves the fence needs one thing more: the
temporary file of the fence, which a serve that died before the replacement leaves behind, makes
every later `atomic_json` of the fence fail.
-/

namespace RxSolutions.L3Guard

open Durable Durable.Program

/-! ## The state directory -/

/-- Who starts the guard. -/
inductive Owner
  | rx
  | compose
  deriving DecidableEq

/-- The files of the state directory. -/
inductive Name
  | fence
  | fenceTmp
  | generation
  | generationTmp
  deriving DecidableEq

/-- `path.with_suffix(".tmp")`. -/
def Name.withSuffix : Name → Name
  | .fence | .fenceTmp => .fenceTmp
  | .generation | .generationTmp => .generationTmp

/-- What a file holds; `empty` is one that has been created and not yet written. -/
inductive Content
  | empty
  | generation (generation : ℕ)
  | stop (owner : Owner) (generation : ℕ)
  deriving DecidableEq

/-- The rows that `append_event` writes. -/
inductive Observation
  | secondSupervisorRefusedActiveOwner (attemptedOwner : Owner)
  | foreignRestartAfterRxStopRefused (attemptedOwner : Owner)
  | serviceGenerationStarted (owner : Owner) (generation : ℕ)
  | stopRequestAccepted (owner : Owner) (generation : ℕ)
  | ownedProcessTreeExitObserved (owner : Owner) (generation : ℕ)
  | ownedProcessTreeExitUnexpected (owner : Owner) (generation : ℕ)
  deriving DecidableEq

/-- What serves have done: `next_generation` returned a number, a child was started, the loop was
left because of a stop request, the child has been waited for, a row was written. -/
inductive Event
  | handed (generation : ℕ)
  | started (generation : ℕ)
  | requested (generation : ℕ)
  | ended (generation : ℕ)
  | recorded (observation : Observation)
  deriving DecidableEq

/-- The state directory and all that has been done with it. -/
structure Disk where
  directory : Name → Option Content
  /-- The entries as they were when the directory was synced last. -/
  synced : Name → Option Content
  trace : List Event

namespace Disk

/-- A new state directory. -/
def empty : Disk := ⟨fun _ => none, fun _ => none, []⟩

/-- Put a file in the place of the one there, or remove it. -/
def put (d : Disk) (name : Name) (content : Option Content) : Disk :=
  { d with directory := fun n => if n = name then content else d.directory n }

/-- `os.replace`. -/
def replace (d : Disk) (source target : Name) : Disk :=
  (d.put target (d.directory source)).put source none

/-- Sync the directory. -/
def sync (d : Disk) : Disk := { d with synced := d.directory }

/-- Note an event. -/
def log (d : Disk) (e : Event) : Disk := { d with trace := d.trace ++ [e] }

/-- The machine goes down: of an entry that has changed since the last sync, the change may be
`kept` or not. -/
def powerLoss (d : Disk) (kept : Name → Bool) : Disk :=
  let entries := fun n => if kept n then d.directory n else d.synced n
  { d with directory := entries, synced := entries }

end Disk

/-! ## One serve -/

/-- How an effect goes. -/
inductive Answer
  | done
  | fails
  | dies
  | powerLoss (kept : Name → Bool)

/-- The serve does not die and no effect of it fails. -/
def Calm (a : ℕ → Answer) : Prop := ∀ k, a k = .done

/-- How a guard ends. -/
inductive Halt
  | died
  | raised (error : String)
  | exit (code : ℕ)

/-- A guard with the outcomes its effects will have. -/
structure Process where
  disk : Disk
  answers : ℕ → Answer
  tick : ℕ

/-- A guard may end at every effect. -/
abbrev Gate := Program Process Halt

/-- Change the disk. -/
def change (f : Disk → Disk) : Gate Unit := modify fun s => { s with disk := f s.disk }

/-- One effect; `f` is what it does if it is not disturbed. -/
def effect (f : Disk → Disk) : Gate Unit := do
  let s ← get
  set { s with tick := s.tick + 1 }
  match s.answers s.tick with
  | .done => change f
  | .fails => throw (.raised "OSError")
  | .dies => throw .died
  | .powerLoss kept => do
    change (·.powerLoss kept)
    throw .died

/-- The directory as it is now. -/
def directory : Gate (Name → Option Content) := return (← get).disk.directory

/-- `append_event`. -/
def appendEvent (o : Observation) : Gate Unit := effect (·.log (.recorded o))

/-- The `except` clause of `atomic_json`; a process that has died runs none. -/
def cleanup (temporary : Name) : Halt → Gate Unit
  | .died => throw .died
  | e => do
    effect (·.put temporary none)
    throw e

/-- `atomic_json`. -/
def atomicJson (path : Name) (value : Content) : Gate Unit := do
  let temporary := path.withSuffix
  ensure ((← directory) temporary = none) (.raised "FileExistsError")
  effect (·.put temporary (some .empty))
  tryCatch (do
    effect (·.put temporary (some value))
    effect (·.replace temporary path)
    effect (·.sync)) (cleanup temporary)

/-- What `generation.json` says. -/
def current : Option Content → Except Halt ℕ
  | none => .ok 0
  | some (.generation n) => .ok n
  | some _ => .error (.raised "KeyError")

/-- `next_generation`. -/
def nextGeneration : Gate ℕ := do
  match current ((← directory) .generation) with
  | .error e => throw e
  | .ok n => do
    atomicJson .generation (.generation (n + 1))
    change (·.log (.handed (n + 1)))
    return n + 1

/-- The end of `serve` after a stop request. -/
def stop (owner : Owner) (generation : ℕ) : Gate Unit := do
  change (·.log (.requested generation))
  atomicJson .fence (.stop owner generation)
  appendEvent (.stopRequestAccepted owner generation)
  effect (·.log (.ended generation))
  appendEvent (.ownedProcessTreeExitObserved owner generation)

/-- The end of `serve` when the child has exited by itself. -/
def unexpected (owner : Owner) (generation : ℕ) : Gate Unit := do
  effect (·.log (.ended generation))
  appendEvent (.ownedProcessTreeExitUnexpected owner generation)
  throw (.exit 75)

/-- `serve` once the lock is held. -/
def admitted (owner : Owner) (stopping : Bool) : Gate Unit := do
  if (← directory) .fence ≠ none then do
    appendEvent (.foreignRestartAfterRxStopRefused owner)
    throw (.exit 74)
  else do
    let generation ← nextGeneration
    effect (·.log (.started generation))
    appendEvent (.serviceGenerationStarted owner generation)
    -- the handlers are installed and the server is bound
    effect id
    if stopping then stop owner generation else unexpected owner generation

/-- `serve`. Another process may hold the lock, and the loop may be left because of a stop request
or because the child has exited. -/
def serve (held : Bool) (owner : Owner) (stopping : Bool) : Gate Unit := do
  effect id
  if held then do
    appendEvent (.secondSupervisorRefusedActiveOwner owner)
    throw (.exit 73)
  else admitted owner stopping

/-- What is outside of a serve. -/
structure Inputs where
  held : Bool
  owner : Owner
  stopping : Bool
  answers : ℕ → Answer

/-- One serve. The lock is held until it ends, so what another one does in between is `held`. -/
def run (d : Disk) (i : Inputs) : Disk :=
  (serve i.held i.owner i.stopping ⟨d, i.answers, 0⟩).2.disk

/-! ## What every point of a run keeps -/

/-- The numbers that have been handed out, in order. -/
def handed (t : List Event) : List ℕ :=
  t.filterMap fun
    | .handed g => some g
    | _ => none

/-- A stop has been accepted. -/
def Accepted (t : List Event) : Prop :=
  ∃ owner generation, .recorded (.stopRequestAccepted owner generation) ∈ t

/-- A child is not started after an accepted stop. -/
def Unstopped (before : List Event) : Event → Prop
  | .started _ => ¬ Accepted before
  | _ => True

/-- The entries do not fall behind what has been handed out and accepted. -/
structure Covers (entries : Name → Option Content) (t : List Event) : Prop where
  handed : ∀ g ∈ handed t, ∃ n, entries .generation = some (.generation n) ∧ g ≤ n
  fence : Accepted t → entries .fence ≠ none

/-- What holds of a directory after any runs. -/
structure Kept (d : Disk) : Prop where
  now : Covers d.directory d.trace
  synced : Covers d.synced d.trace
  rising : (handed d.trace).Pairwise (· < ·)
  final : History.Every Unstopped d.trace

variable {d : Disk} {entries : Name → Option Content} {t : List Event}

theorem Covers.congr {entries' : Name → Option Content} (h : Covers entries t)
    (hgeneration : entries' .generation = entries .generation)
    (hfence : entries' .fence = entries .fence) : Covers entries' t :=
  ⟨by rw [hgeneration]; exact h.handed, by rw [hfence]; exact h.fence⟩

/-- An event that neither hands out a number nor accepts a stop. -/
def Quiet : Event → Prop
  | .handed _ | .recorded (.stopRequestAccepted _ _) => False
  | _ => True

variable {e : Event}

theorem handed_concat (he : Quiet e) : handed (t ++ [e]) = handed t := by
  cases e with
  | handed g => exact he.elim
  | _ => simp [handed]

theorem accepted_concat (he : Quiet e) (h : Accepted (t ++ [e])) : Accepted t := by
  obtain ⟨owner, generation, hmem⟩ := h
  rcases List.mem_append.mp hmem with hmem | hmem
  · exact ⟨owner, generation, hmem⟩
  · rw [List.mem_singleton] at hmem
    rw [← hmem] at he
    exact he.elim

theorem Covers.log (h : Covers entries t) (he : Quiet e) :
    Covers entries (t ++ [e]) := by
  constructor
  · rw [handed_concat he]
    exact h.handed
  · intro haccepted
    exact h.fence (accepted_concat he haccepted)

namespace Kept

theorem empty : Kept Disk.empty :=
  have hnothing : Covers (fun _ => none) [] := ⟨by simp [handed], by simp [Accepted]⟩
  ⟨hnothing, hnothing, List.Pairwise.nil, History.every_nil⟩

theorem put (h : Kept d) (path : Name) (content : Option Content) :
    Kept (d.put path.withSuffix content) := by
  refine ⟨h.now.congr ?_ ?_, h.synced, h.rising, h.final⟩ <;> cases path <;> rfl

theorem powerLoss (h : Kept d) (kept : Name → Bool) : Kept (d.powerLoss kept) := by
  have hcovers : Covers (d.powerLoss kept).directory d.trace := by
    constructor
    · intro g hg
      by_cases hkept : kept .generation
      · simpa [Disk.powerLoss, hkept] using h.now.handed g hg
      · simpa [Disk.powerLoss, hkept] using h.synced.handed g hg
    · intro haccepted
      by_cases hkept : kept .fence
      · simpa [Disk.powerLoss, hkept] using h.now.fence haccepted
      · simpa [Disk.powerLoss, hkept] using h.synced.fence haccepted
  exact ⟨hcovers, hcovers, h.rising, h.final⟩

theorem log {e : Event} (h : Kept d) (he : Quiet e) (hfinal : Unstopped d.trace e) :
    Kept (d.log e) := by
  refine ⟨h.now.log he, h.synced.log he, ?_, History.every_concat.mpr ⟨h.final, hfinal⟩⟩
  rw [Disk.log, handed_concat he]
  exact h.rising

/-- The number is above the ones before it and is in the directory. -/
theorem hand {g : ℕ} (h : Kept d) (hnow : d.directory .generation = some (.generation g))
    (hsynced : d.synced .generation = some (.generation g)) (hlt : ∀ k ∈ handed d.trace, k < g) :
    Kept (d.log (.handed g)) := by
  have hhanded : handed (d.trace ++ [.handed g]) = handed d.trace ++ [g] := by simp [handed]
  have hcovers : ∀ entries : Name → Option Content, Covers entries d.trace →
      entries .generation = some (.generation g) → Covers entries (d.trace ++ [.handed g]) := by
    intro entries hentries hgeneration
    constructor
    · intro k hk
      rw [hhanded, List.mem_append, List.mem_singleton] at hk
      refine ⟨g, hgeneration, ?_⟩
      rcases hk with hk | rfl
      · exact Nat.le_of_lt (hlt k hk)
      · exact Nat.le_refl _
    · rintro ⟨owner, generation, hmem⟩
      exact hentries.fence ⟨owner, generation, by simpa using hmem⟩
  refine ⟨hcovers _ h.now hnow, hcovers _ h.synced hsynced, ?_,
    History.every_concat.mpr ⟨h.final, trivial⟩⟩
  rw [Disk.log, hhanded, List.pairwise_append]
  refine ⟨h.rising, List.pairwise_singleton .., ?_⟩
  intro k hk _ hg
  rw [List.mem_singleton.mp hg]
  exact hlt k hk

/-- The fence is there when a stop is recorded as accepted. -/
theorem accept (h : Kept d) (owner : Owner) (g : ℕ) (hnow : d.directory .fence ≠ none)
    (hsynced : d.synced .fence ≠ none) :
    Kept (d.log (.recorded (.stopRequestAccepted owner g))) := by
  have hhanded : handed (d.trace ++ [.recorded (.stopRequestAccepted owner g)]) =
    handed d.trace := by simp [handed]
  have hcovers : ∀ entries : Name → Option Content, Covers entries d.trace →
      entries .fence ≠ none →
      Covers entries (d.trace ++ [.recorded (.stopRequestAccepted owner g)]) := by
    intro entries hentries hfence
    exact ⟨by rw [hhanded]; exact hentries.handed, fun _ => hfence⟩
  refine ⟨hcovers _ h.now hnow, hcovers _ h.synced hsynced, ?_,
    History.every_concat.mpr ⟨h.final, trivial⟩⟩
  rw [Disk.log, hhanded]
  exact h.rising

end Kept

/-! ## One serve, whatever disturbs it -/

/-- What the rest of a serve depends on; which effect is next is left out. -/
def seen (s : Process) : Disk × (ℕ → Answer) := (s.disk, s.answers)

variable {a : ℕ → Answer} {α : Type} {err : Halt → Disk × (ℕ → Answer) → Prop}

theorem always_directory {ok : (Name → Option Content) → Disk × (ℕ → Answer) → Prop}
    (h : ok d.directory (d, a)) : Always seen directory ok err (d, a) := by
  rintro s hs
  cases hs
  exact h

variable {ok : Unit → Disk × (ℕ → Answer) → Prop}

theorem always_change (f : Disk → Disk) (h : ok () (f d, a)) :
    Always seen (change f) ok err (d, a) := by
  rintro s hs
  cases hs
  exact h

/-- An effect that does not happen is one that has been disturbed. -/
theorem always_effect {f : Disk → Disk} (hd : Kept d)
    (herr : ∀ e d', ¬ Calm a → Kept d' → err e (d', a)) (hok : ok () (f d, a)) :
    Always seen (effect f) ok err (d, a) := by
  rintro s hs
  cases hs
  unfold effect
  simp only [wp_bind, wp_get, wp_set]
  cases hanswer : s.answers s.tick with
  | done => exact hok
  | fails => exact herr _ _ (fun hcalm => by simp [hcalm s.tick] at hanswer) hd
  | dies => exact herr _ _ (fun hcalm => by simp [hcalm s.tick] at hanswer) hd
  | powerLoss kept =>
    exact herr _ _ (fun hcalm => by simp [hcalm s.tick] at hanswer) (hd.powerLoss kept)

/-- The directory before it is synced in `atomic_json`. -/
def Disk.written (d : Disk) (path : Name) (value : Content) : Disk :=
  ((d.put path.withSuffix (some .empty)).put path.withSuffix (some value)).replace
    path.withSuffix path

/-- The file is replaced and synced, or the temporary file was there, or something disturbed. -/
theorem always_atomicJson {path : Name} {value : Content} (hd : Kept d)
    (hcovers : Covers (d.written path value).directory d.trace)
    (herr : ∀ e d', ¬ Calm a → Kept d' → err e (d', a))
    (hexists : d.directory path.withSuffix ≠ none → err (.raised "FileExistsError") (d, a))
    (hok : d.directory path.withSuffix = none → ok () ((d.written path value).sync, a)) :
    Always seen (atomicJson path value) ok err (d, a) := by
  have hwritten : Kept (d.written path value) := ⟨hcovers, hd.synced, hd.rising, hd.final⟩
  refine Always.bind (always_directory (Always.bind (Always.ensure ?_ hexists)))
  intro hnone
  have hcreated := hd.put path (some .empty)
  refine Always.bind (always_effect hd herr ?_)
  -- whatever stops the replacement, the handler removes at most the temporary file
  have hreplace : Always seen (do
      effect (·.put path.withSuffix (some value))
      effect (·.replace path.withSuffix path)
      effect (·.sync)) ok (fun _ s => s.2 = a ∧ ¬ Calm a ∧ Kept s.1)
      (d.put path.withSuffix (some .empty), a) := by
    have hmid : ∀ (e : Halt) d', ¬ Calm a → Kept d' → a = a ∧ ¬ Calm a ∧ Kept d' :=
      fun _ _ hcalm hkept => ⟨rfl, hcalm, hkept⟩
    refine Always.bind (always_effect hcreated hmid ?_)
    refine Always.bind (always_effect (hcreated.put path (some value)) hmid ?_)
    exact always_effect hwritten hmid (hok hnone)
  refine Always.tryCatch hreplace ?_
  intro e s hs
  obtain ⟨d', a'⟩ := s
  obtain ⟨rfl, hcalm, hkept⟩ := hs
  cases e with
  | died => exact Always.throw (herr _ _ hcalm hkept)
  | raised e =>
    exact Always.bind (always_effect hkept herr
      (Always.throw (herr _ _ hcalm (hkept.put path none))))
  | exit code =>
    exact Always.bind (always_effect hkept herr
      (Always.throw (herr _ _ hcalm (hkept.put path none))))

/-- What a serve that was not disturbed has done about a stop request: the child is ended and the
fence is there, unless the temporary file of the fence was there already. -/
def Stops (d₀ d : Disk) : Prop :=
  ∃ l, d.trace = d₀.trace ++ l ∧ ∀ g, .requested g ∈ l →
    ((.ended g ∈ l ∧ d.directory .fence ≠ none) ↔ d₀.directory .fenceTmp = none)

/-- How a serve from `d₀` may end. -/
def Ends (d₀ : Disk) (a : ℕ → Answer) (s : Disk × (ℕ → Answer)) : Prop :=
  Kept s.1 ∧ (Calm a → Stops d₀ s.1)

/-- A serve from `d₀` up to a stop request. -/
structure Starting (d₀ d : Disk) : Prop where
  kept : Kept d
  trace : ∃ l, d.trace = d₀.trace ++ l ∧ ∀ g, .requested g ∉ l
  same : d.directory .fenceTmp = d₀.directory .fenceTmp
  clear : d.directory .fence = none

theorem ends_of_disturbed {d₀ : Disk} (hcalm : ¬ Calm a) (h : Kept d) : Ends d₀ a (d, a) :=
  ⟨h, fun h => absurd h hcalm⟩

namespace Starting

variable {d₀ : Disk}

theorem ends (h : Starting d₀ d) : Ends d₀ a (d, a) := by
  obtain ⟨l, hl, hnone⟩ := h.trace
  exact ⟨h.kept, fun _ => ⟨l, hl, fun g hg => absurd hg (hnone g)⟩⟩

theorem unaccepted (h : Starting d₀ d) : ¬ Accepted d.trace :=
  fun haccepted => h.kept.now.fence haccepted h.clear

theorem log {e : Event} (h : Starting d₀ d) (hkept : Kept (d.log e))
    (hrequested : ∀ g, e ≠ .requested g) : Starting d₀ (d.log e) := by
  obtain ⟨l, hl, hnone⟩ := h.trace
  refine ⟨hkept, ⟨l ++ [e], ?_, ?_⟩, h.same, h.clear⟩
  · rw [Disk.log, hl, List.append_assoc]
  · intro g hg
    rcases List.mem_append.mp hg with hg | hg
    · exact hnone g hg
    · exact hrequested g (List.mem_singleton.mp hg).symm

end Starting

theorem always_nextGeneration {d₀ : Disk} {ok : ℕ → Disk × (ℕ → Answer) → Prop}
    (h : Starting d₀ d) (hok : ∀ g d', Starting d₀ d' → ok g (d', a)) :
    Always seen nextGeneration ok (fun _ => Ends d₀ a) (d, a) := by
  refine Always.bind (always_directory ?_)
  cases hcurrent : current (d.directory .generation) with
  | error e => exact Always.throw h.ends
  | ok n =>
    have hle : ∀ k ∈ handed d.trace, k ≤ n := by
      intro k hk
      obtain ⟨m, hm, hkm⟩ := h.kept.now.handed k hk
      rw [hm] at hcurrent
      cases hcurrent
      exact hkm
    have hcovers : Covers (d.written .generation (.generation (n + 1))).directory d.trace :=
      ⟨fun k hk => ⟨n + 1, rfl, Nat.le_succ_of_le (hle k hk)⟩, h.kept.now.fence⟩
    refine Always.bind (always_atomicJson h.kept hcovers (fun _ _ => ends_of_disturbed)
      (fun _ => h.ends) fun _ => Always.bind (always_change _ (Always.pure (hok _ _ ?_))))
    have hpublished : Starting d₀ (d.written .generation (.generation (n + 1))).sync :=
      ⟨⟨hcovers, hcovers, h.kept.rising, h.kept.final⟩, h.trace, h.same, h.clear⟩
    refine hpublished.log (hpublished.kept.hand rfl rfl ?_) (fun _ => nofun)
    intro k hk
    exact Nat.lt_succ_of_le (hle k hk)

variable {owner : Owner}

/-- The stop request: the fence, the row, the child, one more row. -/
theorem always_stop {d₀ : Disk} {g : ℕ} (h : Starting d₀ d) :
    Always seen (stop owner g) (fun _ => Ends d₀ a) (fun _ => Ends d₀ a) (d, a) := by
  have hdisturbed : ∀ (e : Halt) d', ¬ Calm a → Kept d' → Ends d₀ a (d', a) :=
    fun _ _ => ends_of_disturbed
  have hrequested : Kept (d.log (.requested g)) := h.kept.log trivial trivial
  obtain ⟨l, hl, hnone⟩ := h.trace
  refine Always.bind (always_change _ (Always.bind (always_atomicJson hrequested
    ⟨hrequested.now.handed, fun _ => nofun⟩ hdisturbed ?_ fun hfree => ?_)))
  · -- no fence, and the temporary file has been there from the start
    intro htemporary
    refine ⟨hrequested, fun _ => ⟨l ++ [.requested g], ?_, fun _ _ => ?_⟩⟩
    · rw [Disk.log, hl, List.append_assoc]
    · exact iff_of_false (fun hstopped => hstopped.2 h.clear) (h.same ▸ htemporary)
  · have hpublished : Kept ((d.log (.requested g)).written .fence (.stop owner g)).sync :=
      ⟨⟨hrequested.now.handed, fun _ => nofun⟩, ⟨hrequested.now.handed, fun _ => nofun⟩,
        hrequested.rising, hrequested.final⟩
    have haccepted := hpublished.accept owner g nofun nofun
    have hended : Kept _ := haccepted.log (e := .ended g) trivial trivial
    refine Always.bind (always_effect hpublished hdisturbed
      (Always.bind (always_effect haccepted hdisturbed
        (always_effect hended hdisturbed ⟨hended.log trivial trivial, ?_⟩))))
    refine fun _ => ⟨l ++ [.requested g, .recorded (.stopRequestAccepted owner g), .ended g,
      .recorded (.ownedProcessTreeExitObserved owner g)], ?_, fun g' hg' => ?_⟩
    · simp [Disk.log, Disk.sync, Disk.written, Disk.replace, Disk.put, hl]
    · have hsame : g' = g := by simpa [hnone g'] using hg'
      exact iff_of_true ⟨by simp [hsame], nofun⟩ (h.same ▸ hfree)

theorem always_unexpected {d₀ : Disk} {g : ℕ} (h : Starting d₀ d) :
    Always seen (unexpected owner g) (fun _ => Ends d₀ a) (fun _ => Ends d₀ a) (d, a) := by
  have hended := h.log (h.kept.log (e := .ended g) trivial trivial) fun _ => nofun
  have hrecorded := hended.log (hended.kept.log
    (e := .recorded (.ownedProcessTreeExitUnexpected owner g)) trivial trivial) fun _ => nofun
  exact Always.bind (always_effect h.kept (fun _ _ => ends_of_disturbed)
    (Always.bind (always_effect hended.kept (fun _ _ => ends_of_disturbed)
      (Always.throw hrecorded.ends))))

/-- A serve that is refused writes one row. -/
theorem always_refused {o : Observation} {code : ℕ} (h : Kept d)
    (ho : Quiet (.recorded o)) :
    Always seen (do appendEvent o; throw (.exit code) : Gate Unit) (fun _ => Ends d a)
      (fun _ => Ends d a) (d, a) := by
  have hrecorded : Ends d a (d.log (.recorded o), a) :=
    ⟨h.log ho trivial, fun _ => ⟨[.recorded o], rfl, by simp⟩⟩
  exact Always.bind (always_effect h (fun _ _ => ends_of_disturbed) (Always.throw hrecorded))

theorem always_admitted {stopping : Bool} (h : Kept d) :
    Always seen (admitted owner stopping) (fun _ => Ends d a) (fun _ => Ends d a) (d, a) := by
  refine Always.bind (always_directory (Always.ite (fun _ => always_refused h trivial) ?_))
  intro hclear
  have hstarting : Starting d d := ⟨h, ⟨[], by simp, by simp⟩, rfl, not_not.mp hclear⟩
  refine Always.bind (always_nextGeneration hstarting fun g d' hnumbered => ?_)
  have hstarted := hnumbered.log (hnumbered.kept.log (e := .started g) trivial
    hnumbered.unaccepted) fun _ => nofun
  have hrecorded := hstarted.log (hstarted.kept.log
    (e := .recorded (.serviceGenerationStarted owner g)) trivial trivial) fun _ => nofun
  refine Always.bind (always_effect hnumbered.kept (fun _ _ => ends_of_disturbed)
    (Always.bind (always_effect hstarted.kept (fun _ _ => ends_of_disturbed)
      (Always.bind (always_effect hrecorded.kept (fun _ _ => ends_of_disturbed) ?_)))))
  cases stopping with
  | true => exact always_stop hrecorded
  | false => exact always_unexpected hrecorded

theorem always_serve (held : Bool) (owner : Owner) (stopping : Bool) (h : Kept d) :
    Always seen (serve held owner stopping) (fun _ => Ends d a) (fun _ => Ends d a) (d, a) := by
  refine Always.bind (always_effect h (fun _ _ => ends_of_disturbed) ?_)
  exact Always.ite (fun _ => always_refused h trivial) fun _ => always_admitted h

/-! ## Serves one after the other -/

theorem run_ends (h : Kept d) (i : Inputs) : Ends d i.answers (run d i, i.answers) := by
  have hserve := always_serve (a := i.answers) i.held i.owner i.stopping h ⟨d, i.answers, 0⟩ rfl
  unfold wp at hserve
  unfold run
  split at hserve <;> rename_i hrun <;> rw [hrun] <;> exact hserve

/-- Whatever became of the serves before: the numbers handed out rise, no child has been started
after an accepted stop, and the fence of an accepted stop is there. A serve that handles a stop
request and is not disturbed ends its child and leaves the fence exactly if it did not find the
temporary file of the fence. -/
theorem stop_final_iff (runs : List Inputs) :
    let d := Runs.after run Disk.empty runs
    (handed d.trace).Pairwise (· < ·) ∧ History.Every Unstopped d.trace ∧
      (Accepted d.trace → d.directory .fence ≠ none) ∧
      ∀ i : Inputs, Calm i.answers → ∃ l, (run d i).trace = d.trace ++ l ∧
        ∀ g, .requested g ∈ l → ((.ended g ∈ l ∧ (run d i).directory .fence ≠ none) ↔
          d.directory .fenceTmp = none) := by
  intro d
  have hkept : Kept d :=
    Runs.invariant (P := Kept) (fun _ i h => (run_ends h i).1) Kept.empty runs
  refine ⟨hkept.rising, hkept.final, hkept.now.fence, ?_⟩
  intro i hcalm
  exact (run_ends hkept i).2 hcalm

/-- The first serve dies after it has created the temporary file of the fence. The second one
gets the next number and starts a child; its stop request fails at that file, so that the child
is not ended, there is no fence, and the third one starts a child again. -/
theorem stop_not_final :
    let dying : Inputs := ⟨false, .rx, true, fun k => if k = 9 then .dies else .done⟩
    let stopped : Inputs := ⟨false, .rx, true, fun _ => .done⟩
    let d := Runs.after run Disk.empty [dying, stopped]
    .requested 2 ∈ d.trace ∧ .ended 2 ∉ d.trace ∧ d.directory .fence = none ∧
      .started 3 ∈ (run d stopped).trace := by
  decide +kernel

end RxSolutions.L3Guard
