import Mathlib.Algebra.Group.Action.Defs
import Mathlib.Algebra.Order.BigOperators.Group.List
import Mathlib.Data.Nat.Digits.Defs
import RxSolutions.Durable.History
import RxSolutions.Supervisor.Initialization

/-!
# Initializers run once and in order

Every state that is written is one that is read back, and a step never returns to an earlier
phase. A process is spawned only right after its step was marked as entered, and the step was
pending in every state written before. Since a run that finds an entered step stops there, an
initializer whose outcome is unknown is never spawned again.
-/

namespace RxSolutions.Supervisor.Initialization

open Domain Durable
open Markup (Json)

/-! ## What is written is read back -/

theorem charSize_le (c : Char) : Json.charSize c ≤ 6 := by
  unfold Json.charSize
  have h := c.utf8Size_le_four
  split_ifs <;> omega

theorem stringSize_le (s : String) : Json.stringSize s ≤ 6 * s.toList.length + 2 := by
  have h := List.sum_le_card_nsmul (s.toList.map Json.charSize) 6 (by
    intro n hn
    obtain ⟨c, -, rfl⟩ := List.mem_map.mp hn
    exact charSize_le c)
  rw [List.length_map, smul_eq_mul] at h
  unfold Json.stringSize
  omega

theorem codeSize_le (c : Int32) : (toString c.toInt).length ≤ 11 := by
  have hlt := c.toInt_lt
  have hle := c.le_toInt
  cases h : c.toInt with
  | ofNat m =>
    have hm : m < 10 ^ 11 := by
      rw [h, Int.ofNat_eq_natCast] at hlt
      omega
    change (toString m).length ≤ 11
    rw [Nat.toString_eq_repr]
    exact Nat.repr_length m 11 (by decide) hm
  | negSucc m =>
    have hm : m + 1 < 10 ^ 10 := by
      rw [h] at hle
      omega
    have hdigits := Nat.repr_length (m + 1) 10 (by decide) hm
    have hsign : "-".length = 1 := rfl
    change ("-" ++ toString (m + 1)).length ≤ 11
    rw [String.length_append, Nat.toString_eq_repr]
    omega

/-- The texts of a step are short. -/
structure Step.Small (s : Step) : Prop where
  program : s.program.toList.length ≤ 128
  error : ∀ e ∈ s.error, e.toList.length ≤ 1024

theorem Step.Small.size_le {s : Step} (h : s.Small) : s.size ≤ 8000 := by
  have hprogram := stringSize_le s.program
  have hname := h.program
  have herror : optionSize Json.stringSize s.error ≤ 6146 := by
    cases he : s.error with
    | none => simp [optionSize]
    | some e =>
      have htext := stringSize_le e
      have hshort := h.error e he
      simp only [optionSize]
      omega
  have hcode : optionSize (fun c => (toString c.toInt).length) s.exitCode ≤ 11 := by
    cases s.exitCode with
    | none => simp [optionSize]
    | some c => exact codeSize_le c
  have hphase : s.phase.size ≤ 11 := by cases s.phase <;> simp [Phase.size]
  have hrole : s.role.size ≤ 10 := by cases s.role <;> simp [ServiceRole.size]
  unfold Step.size
  omega

theorem decode_of_valid {s : State} (h : s.Valid) (hsmall : ∀ step ∈ s.steps, step.Small) :
    decode s = .ok s := by
  have hsteps := List.sum_le_card_nsmul (s.steps.map Step.size) 8000 (by
    intro n hn
    obtain ⟨step, hstep, rfl⟩ := List.mem_map.mp hn
    exact (hsmall step hstep).size_le)
  have hlength := h.2.1
  rw [List.length_map, smul_eq_mul] at hsteps
  have hsize : ¬ maxMessageBytes < s.size := by
    unfold State.size maxMessageBytes
    omega
  rw [decode, if_neg hsize, if_pos h]

theorem valid_of_decode {s t : State} (h : decode s = .ok t) : t = s ∧ s.Valid := by
  unfold decode at h
  split_ifs at h with hsize hvalid
  exact ⟨(Except.ok.inj h).symm, hvalid⟩

/-- A later state of the same plan: no step has returned to `pending`. -/
structure State.Before (old new : State) : Prop where
  programs : old.steps.map Step.program = new.steps.map Step.program
  pending : ∀ (i : ℕ) (s : Step), new.steps[i]? = some s → s.phase = .pending →
    ∃ s' : Step, old.steps[i]? = some s' ∧ s'.phase = .pending

theorem State.Before.refl (s : State) : s.Before s := ⟨rfl, fun _ t ht hp => ⟨t, ht, hp⟩⟩

theorem State.Before.trans {a b c : State} (h : a.Before b) (h' : b.Before c) : a.Before c := by
  refine ⟨h.programs.trans h'.programs, fun i s hs hp => ?_⟩
  obtain ⟨t, ht, htp⟩ := h'.pending i s hs hp
  exact h.pending i t ht htp

/-- A step in its next phase. -/
structure Changed (commands : List Initializer) (index : ℕ) (phase : Phase) (code : Option Int32)
    (error : Option String) (old : State) (step : Step) (new : State) : Prop where
  valid : old.Valid
  plan : old.steps.map Step.program = commands.map Initializer.id
  found : old.steps[index]? = some step
  follows : step.phase.Follows phase
  content : new = { old with
    steps := old.steps.set index { step with phase := phase, exitCode := code, error := error } }

theorem plan_of_checkCommands {s : State} {commands : List Initializer}
    (h : checkCommands s commands = .ok ()) :
    s.steps.map Step.program = commands.map Initializer.id := by
  unfold checkCommands at h
  split_ifs at h with heq
  have hfst := congrArg (List.map Prod.fst) heq
  rw [List.map_map, List.map_map] at hfst
  exact hfst

section Changed

variable {expected : Digest} {commands : List Initializer} {index : ℕ} {phase : Phase}
  {code : Option Int32} {error : Option String} {old new : State} {step : Step}

theorem changed_of_ok {record : Option State}
    (h : State.changed expected commands index phase code error record = .ok new) :
    ∃ old step, record = some old ∧ Changed commands index phase code error old step new := by
  cases record with
  | none => cases h
  | some row =>
    simp only [State.changed, bind, Except.bind] at h
    split at h
    · cases h
    · next t ht =>
      obtain ⟨rfl, hvalid⟩ := valid_of_decode ht
      split at h
      · cases h
      · next hcommands =>
        split at h
        · cases h
        · split at h
          · cases h
          · next step hstep =>
            split_ifs at h with hfollows
            exact ⟨t, step, rfl, hvalid, plan_of_checkCommands hcommands, hstep, hfollows,
              (Except.ok.inj h).symm⟩

namespace Changed

variable (h : Changed commands index phase code error old step new)

include h

/-- The step in its new phase. -/
theorem getElem_self :
    new.steps[index]? = some { step with phase := phase, exitCode := code, error := error } := by
  obtain ⟨hlt, -⟩ := List.getElem?_eq_some_iff.mp h.found
  rw [h.content, List.getElem?_set_self hlt]

theorem getElem_of_ne {i : ℕ} (hi : i ≠ index) :
    new.steps[i]? = old.steps[i]? := by
  rw [h.content, List.getElem?_set_ne (Ne.symm hi)]

/-- A change leaves what it does not set. -/
theorem map_steps {γ : Type} (f : Step → γ)
    (hf : f { step with phase := phase, exitCode := code, error := error } = f step) :
    old.steps.map f = new.steps.map f := by
  apply List.ext_getElem?
  intro i
  rw [List.getElem?_map, List.getElem?_map]
  by_cases hi : i = index
  · rw [hi, h.getElem_self, h.found, Option.map_some, Option.map_some, hf]
  · rw [h.getElem_of_ne hi]

theorem programs : old.steps.map Step.program = new.steps.map Step.program :=
  h.map_steps _ rfl

theorem instances : old.steps.map Step.instance_ = new.steps.map Step.instance_ :=
  h.map_steps _ rfl

theorem before : old.Before new := by
  refine ⟨h.programs, fun i s hs hp => ?_⟩
  by_cases hi : i = index
  · -- no step becomes pending
    subst hi
    obtain rfl := Option.some.inj (h.getElem_self.symm.trans hs)
    have hfollows := h.follows
    simp only at hp
    rw [hp] at hfollows
    cases hphase : step.phase <;> rw [hphase] at hfollows <;> cases hfollows
  · exact ⟨s, (h.getElem_of_ne hi).symm.trans hs, hp⟩

/-- Every step but one is an old one. -/
theorem mem {s : Step} (hs : s ∈ new.steps) :
    s ∈ old.steps ∨ s = { step with phase := phase, exitCode := code, error := error } := by
  rw [h.content] at hs
  exact List.mem_or_eq_of_mem_set hs

theorem valid_new
    (hshaped : ({ step with phase := phase, exitCode := code, error := error } : Step).Shaped) :
    new.Valid := by
  obtain ⟨hne, hlength, hprograms, hinstances, hsteps⟩ := h.valid
  have hlength' : new.steps.length = old.steps.length := by
    rw [h.content, List.length_set]
  refine ⟨?_, by omega, h.programs ▸ hprograms, h.instances ▸ hinstances, fun s hs => ?_⟩
  · rw [← List.length_pos_iff] at hne ⊢
    omega
  · rcases h.mem hs with hold | rfl
    · exact hsteps s hold
    · exact hshaped

theorem take : new.steps.take index = old.steps.take index := by
  rw [h.content, List.take_set_of_le (Nat.le_refl index)]

end Changed

end Changed

/-! ## What holds at every effect -/

/-- A process is spawned for the step `index`, right after `state` was written. -/
structure Entering (commands : List Initializer) (index : ℕ) (before : List Event) (state : State) :
    Prop where
  plan : state.steps.map Step.program = commands.map Initializer.id
  completed : ∀ s ∈ state.steps.take index, s.phase = .completed
  entered : ∃ s, state.steps[index]? = some s ∧ s.phase = .entered
  fresh : ∀ old, Event.stored old ∈ before →
    old.steps.map Step.program = commands.map Initializer.id ∧
    ∃ s, old.steps[index]? = some s ∧ s.phase = .pending

/-- What may be done after what was done before. -/
def Allowed (h : List Event) : Event → Prop
  | .opened => True
  | .stored state => state.Valid ∧ ∀ s ∈ state.steps, s.Small
  | .spawn commands index _ =>
    ∃ before state, h = before ++ [.stored state] ∧ Entering commands index before state

/-- What holds of the store at every effect of a run, which began when `base` was done. -/
structure Sound (base : List Event) (d : Disk) : Prop where
  grown : base <+: d.trace
  recorded : ∀ state, d.record = some state → .stored state ∈ d.trace
  earlier : ∀ old, .stored old ∈ d.trace → ∃ state, d.record = some state ∧ old.Before state
  every : History.Every Allowed d.trace

namespace Sound

variable {base : List Event} {d : Disk}

theorem small (h : Sound base d) {state : State} (hs : d.record = some state) :
    ∀ s ∈ state.steps, s.Small := by
  obtain ⟨a, b, htrace⟩ := List.append_of_mem (h.recorded state hs)
  exact (h.every a _ b htrace).2

theorem commit (h : Sound base d) {new : State} {n : ℕ} (hvalid : new.Valid)
    (hsmall : ∀ s ∈ new.steps, s.Small) (hbefore : ∀ old, d.record = some old → old.Before new) :
    Sound base (d.commit new n) where
  grown := h.grown.trans (List.prefix_append _ _)
  recorded state hs := by
    obtain rfl := Option.some.inj hs
    exact List.mem_append_right _ (List.mem_singleton_self _)
  earlier old hold := by
    refine ⟨new, rfl, ?_⟩
    rcases List.mem_append.mp hold with hmem | hlast
    · obtain ⟨state, hstate, hold⟩ := h.earlier old hmem
      exact hold.trans (hbefore state hstate)
    · rw [List.mem_singleton] at hlast
      obtain rfl := Event.stored.inj hlast
      exact .refl _
  every := History.every_concat.mpr ⟨h.every, hvalid, hsmall⟩

/-- One more event that stores nothing. -/
theorem note (h : Sound base d) {e : Event} (hstate : e.state = none) (he : Allowed d.trace e) :
    Sound base { d with trace := d.trace ++ [e] } where
  grown := h.grown.trans (List.prefix_append _ _)
  recorded state hs := List.mem_append_left _ (h.recorded state hs)
  earlier old hold := by
    rcases List.mem_append.mp hold with hmem | hlast
    · exact h.earlier old hmem
    · rw [List.mem_singleton] at hlast
      rw [← hlast] at hstate
      cases hstate
  every := History.every_concat.mpr ⟨h.every, he⟩

end Sound

/-! ## Effects -/

/-- Every run of `m` on the store `d`, whatever the environment answers. -/
abbrev Init.Runs {α : Type} (m : Init α) (ok : α → Disk → Prop) (err : Failure → Disk → Prop)
    (d : Disk) : Prop :=
  Program.Always InitState.disk m ok err d

/-- Every run of `m` leaves the store `d` alone, and a returned value satisfies `p`. -/
abbrev Init.Reads {α : Type} (m : Init α) (p : α → Prop) (d : Disk) : Prop :=
  Program.Reads InitState.disk m p d

section Effects

variable {α : Type} {d : Disk}

theorem reply_reads : Init.Reads reply (fun _ => True) d := by
  rintro s rfl
  simp only [reply, Program.wp_bind, Program.wp_get, Program.wp_set, Program.wp_ensure,
    Program.wp_pure]
  exact ⟨fun _ => ⟨trivial, trivial⟩, fun _ => trivial⟩

theorem answered_reads {r : Except Error α} : Init.Reads (answered r) (fun a => r = .ok a) d := by
  cases r with
  | ok a => exact Program.Reads.pure rfl
  | error e => exact Program.Reads.throw

theorem checkFiles_reads : Init.Reads checkFiles (fun _ => True) d :=
  reply_reads.seq fun _ _ => answered_reads.mono fun _ _ => trivial

theorem snapshot_reads : Init.Reads snapshot (· = d) d := by
  refine reply_reads.seq fun a _ => ?_
  cases a.fault with
  | some e => exact Program.Reads.throw
  | none =>
    rintro s rfl
    exact ⟨rfl, rfl⟩

theorem view_reads {body : Option State → Except StoreError α} :
    Init.Reads (view body) (fun v => body d.record = .ok v) d := by
  refine reply_reads.seq fun a _ => ?_
  cases a.fault with
  | some e => exact Program.Reads.throw
  | none =>
    rintro s rfl
    simp only [Program.wp_bind, Program.wp_get]
    cases hbody : body s.disk.record with
    | ok v => exact ⟨rfl, rfl⟩
    | error e => exact rfl

theorem wait_reads : Init.Reads wait (fun _ => True) d := by
  refine reply_reads.seq fun a _ => ?_
  refine answered_reads.seq fun status _ => ?_
  exact Program.Reads.pure trivial

/-- A transaction commits what its body returns, and a store that fails may have done so. -/
theorem store_runs {body : Option State → Except StoreError State} {n : ℕ} :
    Init.Runs (store body n)
      (fun _ d' => ∃ state, body d.record = .ok state ∧ d' = d.commit state n)
      (fun _ d' => d' = d ∨ ∃ state, body d.record = .ok state ∧ d' = d.commit state n) d := by
  refine reply_reads.bind (fun _ => .inl rfl) fun a _ => ?_
  rintro s rfl
  simp only [Program.wp_bind, Program.wp_get]
  cases hbody : body s.disk.record with
  | error e => exact .inl rfl
  | ok state =>
    cases a.fault with
    | none => exact ⟨state, rfl, rfl⟩
    | some e =>
      cases a.applied with
      | true => exact .inr ⟨state, rfl, rfl⟩
      | false => exact .inl rfl

theorem spawn_runs {commands : List Initializer} {index : ℕ} :
    Init.Runs (spawn commands index)
      (fun _ d' => ∃ started, d' = { d with trace := d.trace ++ [.spawn commands index started] })
      (fun _ d' => d' = d) d := by
  refine reply_reads.bind (fun _ => rfl) fun a _ => ?_
  rintro s rfl
  exact ⟨_, rfl⟩

end Effects

/-! ## One initializer -/

section Steps

variable {expected : Digest} {commands : List Initializer} {index : ℕ} {base : List Event}
  {d : Disk}

theorem readState_ok {record : Option State} {state : State}
    (h : readState expected commands record = .ok state) : record = some state := by
  cases record with
  | none => cases h
  | some row =>
    simp only [readState, bind, Except.bind] at h
    split at h
    · cases h
    · next t ht =>
      obtain ⟨rfl, -⟩ := valid_of_decode ht
      split at h
      · cases h
      · split at h
        · cases h
        · cases h
          rfl

/-- The steps before `index` are completed. -/
def Done (index : ℕ) (d : Disk) : Prop :=
  ∀ state, d.record = some state → ∀ s ∈ state.steps.take index, s.phase = .completed

/-- A change keeps the store sound, whether it is confirmed or not. -/
theorem change_runs (hd : Sound base d) {phase : Phase} {code : Option Int32}
    {error : Option String}
    (hshaped : ∀ step : Step,
      ({ step with phase := phase, exitCode := code, error := error } : Step).Shaped)
    (herror : ∀ e ∈ error, e.toList.length ≤ 1024) :
    Init.Runs (change expected commands index phase code error)
      (fun _ d' => Sound base d' ∧ ∃ old step new, d.record = some old ∧
        Changed commands index phase code error old step new ∧ d' = d.commit new 1)
      (fun _ d' => Sound base d') d := by
  have hcommit : ∀ {old step new}, d.record = some old →
      Changed commands index phase code error old step new → Sound base (d.commit new 1) := by
    intro old step new hold hchanged
    have hstep := List.mem_of_getElem? hchanged.found
    refine hd.commit (hchanged.valid_new (hshaped step)) (fun s hs => ?_) fun old' hold' => ?_
    · rcases hchanged.mem hs with hmem | rfl
      · exact hd.small hold s hmem
      · exact ⟨(hd.small hold step hstep).program, herror⟩
    · cases hold.symm.trans hold'
      exact hchanged.before
  refine Program.Always.mono store_runs ?_ ?_
  · rintro _ _ ⟨new, hnew, rfl⟩
    obtain ⟨old, step, hold, hchanged⟩ := changed_of_ok hnew
    exact ⟨hcommit hold hchanged, old, step, new, hold, hchanged, rfl⟩
  · rintro _ _ (rfl | ⟨new, hnew, rfl⟩)
    · exact hd
    · obtain ⟨old, step, hold, hchanged⟩ := changed_of_ok hnew
      exact hcommit hold hchanged

theorem finish_runs (hd : Sound base d) (hdone : Done index d) {status : Option Int32}
    {interrupted : Bool} :
    Init.Runs (finish expected commands index status interrupted)
      (fun _ d' => Sound base d' ∧ Done (index + 1) d') (fun _ d' => Sound base d') d := by
  unfold finish
  cases hcompleted : (decide (status = some 0) && !interrupted) with
  | true =>
    have hstatus : status = some 0 := by
      rw [Bool.and_eq_true, decide_eq_true_eq] at hcompleted
      exact hcompleted.1
    refine Program.Always.seq (change_runs hd (fun _ => ⟨hstatus, rfl⟩) (by simp)) ?_
    rintro _ d' ⟨hd', old, step, new, hold, hchanged, rfl⟩
    refine Program.Always.ensure (fun _ => ⟨hd', ?_⟩) fun _ => hd'
    intro state hstate s hs
    obtain rfl := Option.some.inj hstate
    rw [List.take_add_one, hchanged.getElem_self, hchanged.take] at hs
    rcases List.mem_append.mp hs with hs | hs
    · exact hdone old hold s hs
    · rw [Option.toList_some, List.mem_singleton] at hs
      rw [hs]
      rfl
  | false =>
    refine Program.Always.seq (change_runs hd (fun _ => ?_) ?_) ?_
    · exact Option.some_ne_none _
    · intro e he
      obtain rfl := Option.some.inj he
      decide
    · rintro _ d' ⟨hd', -⟩
      exact Program.Always.ensure nofun fun _ => hd'

/-- A step that was marked as entered may be spawned. -/
theorem entering_of_changed (hd : Sound base d) (hdone : Done index d) {old new : State}
    {step : Step} (hold : d.record = some old)
    (h : Changed commands index .entered none none old step new) :
    Entering commands index d.trace new := by
  have hpending : step.phase = .pending := by
    have hfollows := h.follows
    cases hphase : step.phase <;> rw [hphase] at hfollows <;> first | rfl | cases hfollows
  refine ⟨h.programs.symm.trans h.plan, ?_, ⟨_, h.getElem_self, rfl⟩, fun old' hold' => ?_⟩
  · rw [h.take]
    exact hdone old hold
  · obtain ⟨state, hstate, hbefore⟩ := hd.earlier old' hold'
    cases hold.symm.trans hstate
    exact ⟨hbefore.programs.trans h.plan, hbefore.pending index step h.found hpending⟩

theorem start_runs (hd : Sound base d) (hdone : Done index d) {command : Initializer} :
    Init.Runs (start expected commands index command)
      (fun _ d' => Sound base d' ∧ Done (index + 1) d') (fun _ d' => Sound base d') d := by
  refine checkFiles_reads.bind (fun _ => hd) fun _ _ => ?_
  have hfiles : Init.Reads (forM command.files fun _ => checkFiles)
      (fun _ => ∀ f ∈ command.files, True) d := Program.Reads.forM fun _ _ => checkFiles_reads
  refine hfiles.bind (fun _ => hd) fun _ _ => ?_
  refine checkFiles_reads.bind (fun _ => hd) fun _ _ => ?_
  refine Program.Always.seq (change_runs hd (fun _ => ⟨rfl, rfl⟩) (by simp)) ?_
  rintro _ _ ⟨hd', old, step, new, hold, hchanged, rfl⟩
  have hentering := entering_of_changed hd hdone hold hchanged
  refine checkFiles_reads.bind (fun _ => hd') fun _ _ => ?_
  refine checkFiles_reads.bind (fun _ => hd') fun _ _ => ?_
  refine Program.Always.seq (Program.Always.mono spawn_runs (fun _ _ h => h) ?_) ?_
  · rintro _ _ rfl
    exact hd'
  · rintro result _ ⟨started, rfl⟩
    have hspawned := hd'.note (e := .spawn commands index started) rfl
      ⟨d.trace, new, rfl, hentering⟩
    cases result with
    | error e =>
      refine Program.Always.seq (change_runs hspawned (fun _ => Option.some_ne_none _) ?_) ?_
      · intro text htext
        obtain rfl := Option.some.inj htext
        exact e.short
      · rintro _ _ ⟨hd'', -⟩
        exact Program.Always.throw hd''
    | ok _ =>
      refine wait_reads.bind (fun _ => hspawned) fun status _ => ?_
      refine finish_runs hspawned ?_
      intro state hstate
      obtain rfl := Option.some.inj hstate
      exact hentering.completed

theorem turn_runs (hd : Sound base d) (hdone : Done index d) {command : Initializer} :
    Init.Runs (turn expected commands index command)
      (fun _ d' => Sound base d' ∧ Done (index + 1) d') (fun _ d' => Sound base d') d := by
  refine view_reads.bind (fun _ => hd) fun state hread => ?_
  have hstate := readState_ok hread
  refine Program.Reads.orThrow.bind (fun _ => hd) fun step hstep => ?_
  have hfound := Option.eq_some_of_filter_eq_some hstep
  refine Program.Always.ite (fun hcompleted => Program.Always.pure ⟨hd, ?_⟩) fun _ => ?_
  · -- one more step is known to be completed
    intro state' hstate' s hs
    cases hstate.symm.trans hstate'
    rw [List.take_add_one, hfound] at hs
    rcases List.mem_append.mp hs with hs | hs
    · exact hdone state hstate s hs
    · rw [Option.toList_some, List.mem_singleton] at hs
      rw [hs, hcompleted]
  · exact Program.Reads.ensure.bind (fun _ => hd) fun _ _ => start_runs hd hdone

/-- The initializers that are left are run in order. -/
theorem turns_runs (hd : Sound base d) (hdone : Done index d) (rest : List Initializer) :
    Init.Runs (turns expected commands rest index)
      (fun _ d' => Sound base d') (fun _ d' => Sound base d') d := by
  induction rest generalizing index d with
  | nil => exact Program.Always.pure hd
  | cons command rest ih =>
    refine Program.Always.seq (turn_runs hd hdone) ?_
    rintro _ _ ⟨hd', hdone'⟩
    exact ih hd' hdone'

end Steps

/-! ## A run -/

section Run

variable [FreshIds] {expected : Digest} {commands : List Initializer} {base : List Event} {d : Disk}

variable {ids : List Id}

omit [FreshIds] in
theorem initial_programs (h : ids.length = commands.length) :
    (State.initial expected commands ids).steps.map Step.program = commands.map Initializer.id := by
  simp only [State.initial, List.map_zipWith]
  induction commands generalizing ids with
  | nil => simp
  | cons c commands ih =>
    obtain ⟨id, ids, rfl⟩ := List.exists_cons_of_length_eq_add_one h
    rw [List.zipWith_cons_cons, List.map_cons, ih (Nat.succ.inj h)]

omit [FreshIds] in
theorem initial_instances (h : ids.length = commands.length) :
    (State.initial expected commands ids).steps.map Step.instance_ = ids := by
  simp only [State.initial, List.map_zipWith]
  induction commands generalizing ids with
  | nil =>
    rw [List.length_eq_zero_iff.mp h]
    rfl
  | cons c commands ih =>
    obtain ⟨id, ids, rfl⟩ := List.exists_cons_of_length_eq_add_one h
    rw [List.zipWith_cons_cons, ih (Nat.succ.inj h)]

omit [FreshIds] in
theorem mem_initial {s : Step} (hs : s ∈ (State.initial expected commands ids).steps) :
    ∃ c ∈ commands, ∃ id, s = ⟨c.id, c.role, id, .pending, none, none⟩ := by
  obtain ⟨i, hi, rfl⟩ := List.mem_iff_getElem.mp hs
  simp only [State.initial, List.length_zipWith, lt_min_iff] at hi
  refine ⟨commands[i], List.getElem_mem hi.1, ids[i], ?_⟩
  simp only [State.initial, List.getElem_zipWith]

omit [FreshIds] in
theorem initial_valid (hcommands : Bounded commands) (hlength : ids.length = commands.length)
    (hids : ids.Nodup) :
    (State.initial expected commands ids).Valid ∧
      ∀ s ∈ (State.initial expected commands ids).steps, s.Small := by
  obtain ⟨hne, hshort, -, hnodup⟩ := hcommands
  have hsteps : (State.initial expected commands ids).steps.length = commands.length := by
    simp [State.initial, hlength]
  refine ⟨⟨?_, by omega, ?_, ?_, fun s hs => ?_⟩, fun s hs => ?_⟩
  · rw [← List.length_pos_iff] at hne ⊢
    omega
  · rwa [initial_programs hlength]
  · rwa [initial_instances hlength]
  · obtain ⟨c, -, id, rfl⟩ := mem_initial hs
    exact ⟨rfl, rfl⟩
  · obtain ⟨c, -, id, rfl⟩ := mem_initial hs
    exact ⟨c.named.1, by simp⟩

theorem create_runs (hd : Sound base d) (hnone : d.record = none) (hcommands : Bounded commands) :
    Init.Runs (create expected commands) (fun _ d' => Sound base d') (fun _ d' => Sound base d')
      d := by
  -- identifiers are drawn from the store, all different
  have hids : Init.Runs (identifiers commands.length)
      (fun ids d' => d' = { d with drawn := d.drawn + commands.length } ∧
        ids.length = commands.length ∧ ids.Nodup) (fun _ _ => False) d := by
    rintro s rfl
    refine ⟨rfl, by simp, List.Nodup.map ?_ List.nodup_range⟩
    intro i j hij
    exact Nat.add_left_cancel (FreshIds.freshId.injective hij)
  refine Program.Always.seq (hids.mono (fun _ _ h => h) fun _ _ h => h.elim) ?_
  rintro ids _ ⟨rfl, hlength, hnodup⟩
  have hdrawn : Sound base { d with drawn := d.drawn + commands.length } :=
    ⟨hd.grown, hd.recorded, hd.earlier, hd.every⟩
  obtain ⟨hvalid, hsmall⟩ : (State.initial expected commands ids).Valid ∧
      ∀ s ∈ (State.initial expected commands ids).steps, s.Small :=
    initial_valid hcommands hlength hnodup
  have hcommit :=
    hdrawn.commit (n := 0) hvalid hsmall fun old hold => by cases hnone.symm.trans hold
  refine Program.Always.mono store_runs ?_ ?_
  · rintro _ _ ⟨state, hstate, rfl⟩
    simp only [hnone] at hstate
    cases hstate
    exact hcommit
  · rintro _ _ (rfl | ⟨state, hstate, rfl⟩)
    · exact hdrawn
    · simp only [hnone] at hstate
      cases hstate
      exact hcommit

/-- A run keeps the store sound, wherever it ends, and begins with a note of its own. -/
theorem run_runs (hd : Sound base d) (expected : Digest) (commands : List Initializer) :
    Init.Runs (run expected commands) (fun _ d' => Sound (d.trace ++ [.opened]) d')
      (fun _ d' => Sound (d.trace ++ [.opened]) d') d := by
  have hopened : Sound (d.trace ++ [.opened]) { d with trace := d.trace ++ [.opened] } := by
    obtain ⟨-, hrecorded, hearlier, hevery⟩ := hd.note (e := .opened) rfl trivial
    exact ⟨List.prefix_rfl, hrecorded, hearlier, hevery⟩
  have hnote : Init.Runs (note .opened)
      (fun _ d' => d' = { d with trace := d.trace ++ [.opened] }) (fun _ _ => False) d := by
    rintro s rfl
    exact rfl
  refine Program.Always.seq (hnote.mono (fun _ _ h => h) fun _ _ h => h.elim) ?_
  rintro _ _ rfl
  refine Program.Reads.ensure.bind (fun _ => hopened) fun _ hcommands => ?_
  refine snapshot_reads.bind (fun _ => hopened) ?_
  rintro _ rfl
  refine Program.Always.seq (Program.Always.ite
    (fun hempty => create_runs hopened hempty.1 hcommands)
    fun _ => Program.Always.pure hopened) fun _ d' hd' => ?_
  refine checkFiles_reads.bind (fun _ => hd') fun _ _ => ?_
  have hdone : Done 0 d' := by
    intro state _ s hs
    simp at hs
  refine Program.Always.seq (turns_runs hd' hdone commands) fun _ d'' hd'' => ?_
  refine view_reads.bind (fun _ => hd'') fun state _ => ?_
  refine Program.Reads.ensure.bind (fun _ => hd'') fun _ _ => ?_
  exact Program.Always.pure hd''

end Run

/-! ## Many runs -/

section Runs

variable [FreshIds]

theorem step_sound {base : List Event} {d : Disk} (hd : Sound base d) (a : Attempt) :
    Sound (d.trace ++ [.opened]) (d.step a) := by
  have hrun := run_runs hd a.expected a.commands ⟨d, a.answers, 0⟩ rfl
  rw [Disk.step]
  rcases hexec : run a.expected a.commands ⟨d, a.answers, 0⟩ with ⟨r, t⟩
  simp only [Program.wp, hexec] at hrun
  cases r <;> exact hrun

theorem after_sound (attempts : List Attempt) : ∃ base, Sound base (after attempts) := by
  induction attempts using List.reverseRecOn with
  | nil => exact ⟨[], List.prefix_rfl, by simp [after, Disk.empty], by simp [after, Disk.empty],
      by simp [after, Disk.empty]⟩
  | append_singleton attempts a ih =>
    obtain ⟨base, hsound⟩ := ih
    have hstep : after (attempts ++ [a]) = (after attempts).step a := by
      rw [after, List.foldl_append]
      rfl
    rw [hstep]
    exact ⟨_, step_sound hsound a⟩

/-- What later runs do begins with a note of their own. -/
theorem after_append (attempts later : List Attempt) :
    after (attempts ++ later) = after attempts ∨
      ∃ new, (after (attempts ++ later)).trace = (after attempts).trace ++ .opened :: new := by
  induction later using List.reverseRecOn with
  | nil => exact .inl (by rw [List.append_nil])
  | append_singleton later a ih =>
    obtain ⟨base, hsound⟩ := after_sound (attempts ++ later)
    have hstep : after (attempts ++ (later ++ [a])) = (after (attempts ++ later)).step a := by
      rw [← List.append_assoc, after, List.foldl_append]
      rfl
    obtain ⟨new, hnew⟩ := (step_sound hsound a).grown
    right
    rw [hstep, ← hnew]
    rcases ih with hsame | ⟨old, hold⟩
    · exact ⟨new, by rw [hsame]; simp⟩
    · exact ⟨old ++ .opened :: new, by rw [hold]; simp⟩

end Runs

/-- The initializer an event starts, or tries to. -/
def Event.starts : Event → Option Name
  | .spawn commands index _ => commands[index]?.map Initializer.id
  | _ => none

theorem starts_eq_some {e : Event} {name : Name} (h : e.starts = some name) :
    ∃ commands index started, e = .spawn commands index started ∧
      (commands.map Initializer.id)[index]? = some name := by
  cases e with
  | spawn commands index started =>
    exact ⟨commands, index, started, rfl, by rw [List.getElem?_map]; exact h⟩
  | _ => cases h

/-- A started initializer was pending in every state but the one written last. -/
theorem pending_of_starts {t a b : List Event} {e : Event} {name : Name}
    (h : History.Every Allowed t) (ht : t = a ++ e :: b) (he : e.starts = some name) :
    ∃ before state, a = before ++ [.stored state] ∧
      ∀ old, Event.stored old ∈ before → ∀ s ∈ old.steps, s.program = name →
        s.phase = .pending := by
  obtain ⟨commands, index, started, rfl, hname⟩ := starts_eq_some he
  obtain ⟨before, state, rfl, hentering⟩ := h a _ b ht
  refine ⟨before, state, rfl, fun old hold s hs hprogram => ?_⟩
  obtain ⟨hplan, s', hs', hpending⟩ := hentering.fresh old hold
  -- names of steps are different, so it is that step
  obtain ⟨x, y, hxy⟩ := List.append_of_mem hold
  have hvalid : old.Valid := by
    subst hxy
    exact (h x (.stored old) (y ++ [.stored state] ++ .spawn commands index started :: b)
      (by simp [ht])).1
  obtain ⟨i, hi⟩ := List.mem_iff_getElem?.mp hs
  have hindex : i = index := by
    have hleft : (old.steps.map Step.program)[i]? = some name := by
      rw [List.getElem?_map, hi, Option.map_some, hprogram]
    have hright : (old.steps.map Step.program)[index]? = some name := by
      rw [hplan, hname]
    obtain ⟨hlt, -⟩ := List.getElem?_eq_some_iff.mp hleft
    exact (List.getElem?_inj hlt hvalid.2.2.1).mp (hleft.trans hright.symm)
  subst hindex
  cases hi.symm.trans hs'
  exact hpending

/-- No initializer is started twice. -/
theorem starts_nodup {t : List Event} (h : History.Every Allowed t) :
    (t.filterMap Event.starts).Nodup := by
  induction t using List.reverseRecOn with
  | nil => simp
  | append_singleton t e ih =>
    have hinit := (History.every_concat.mp h).1
    rw [List.filterMap_append]
    cases he : e.starts with
    | none => simpa [he] using ih hinit
    | some name =>
      rw [List.filterMap_cons_some he, List.filterMap_nil, List.nodup_append_comm,
        List.singleton_append, List.nodup_cons]
      refine ⟨fun hmem => ?_, ih hinit⟩
      obtain ⟨e', he', hname⟩ := List.mem_filterMap.mp hmem
      obtain ⟨a, b, rfl⟩ := List.append_of_mem he'
      -- the first start came right after a state in which the step is entered
      obtain ⟨commands, index, started, rfl, hcommand⟩ := starts_eq_some hname
      obtain ⟨before, state, rfl, hentering⟩ := hinit a _ b rfl
      obtain ⟨before', state', hsplit, hpending⟩ := pending_of_starts h rfl he
      obtain ⟨s, hs, hentered⟩ := hentering.entered
      have hprogram : s.program = name := by
        have hmap := congrArg (fun l => l[index]?) hentering.plan
        simp only [hcommand, List.getElem?_map, hs, Option.map_some] at hmap
        exact Option.some.inj hmap
      have hold : Event.stored state ∈ before' := by
        rcases List.eq_nil_or_concat b with rfl | ⟨b', last, rfl⟩
        · have hlast := (List.append_inj' hsplit rfl).2
          cases hlast
        · have hsplit' : before ++ [.stored state] ++ .spawn commands index started ::
            b' ++ [last] =
              before' ++ [.stored state'] := by simpa using hsplit
          rw [← (List.append_inj' hsplit' rfl).1]
          simp
      have hphase := hpending state hold s (List.mem_of_getElem? hs) hprogram
      cases hentered.symm.trans hphase

/-- In every history of runs, with whatever plans, answers, store failures and crashes:
each initializer is started at most once;
the last state written before a start has every earlier initializer completed and this one
entered, for the plan of the run;
an initializer that some run left in another phase than `pending`, be its outcome known or not,
is never started by a later run;
and every state that was written is read back. -/
theorem initializers_once [FreshIds] (attempts : List Attempt) :
    ((after attempts).trace.filterMap Event.starts).Nodup ∧
    (∀ a commands index started b,
      (after attempts).trace = a ++ .spawn commands index started :: b →
      ∃ before state, a = before ++ [.stored state] ∧
        state.steps.map Step.program = commands.map Initializer.id ∧
        (∀ s ∈ state.steps.take index, s.phase = .completed) ∧
        ∃ s, state.steps[index]? = some s ∧ s.phase = .entered) ∧
    (∀ later state s, (after attempts).record = some state → s ∈ state.steps → s.phase ≠ .pending →
      ∃ new, (after (attempts ++ later)).trace = (after attempts).trace ++ new ∧
        s.program ∉ new.filterMap Event.starts) ∧
    ∀ state, .stored state ∈ (after attempts).trace → decode state = .ok state := by
  obtain ⟨base, hsound⟩ := after_sound attempts
  refine ⟨starts_nodup hsound.every, ?_, ?_, ?_⟩
  · intro a commands index started b htrace
    obtain ⟨before, state, rfl, hentering⟩ := hsound.every a _ b htrace
    exact ⟨before, state, rfl, hentering.plan, hentering.completed, hentering.entered⟩
  · intro later state s hstate hs hphase
    rcases after_append attempts later with hsame | ⟨new, hnew⟩
    · exact ⟨[], by rw [hsame, List.append_nil], by simp⟩
    · refine ⟨.opened :: new, hnew, fun hmem => hphase ?_⟩
      obtain ⟨base', hsound'⟩ := after_sound (attempts ++ later)
      obtain ⟨e, he, hname⟩ := List.mem_filterMap.mp hmem
      rcases List.mem_cons.mp he with rfl | he
      · cases hname
      · obtain ⟨x, y, rfl⟩ := List.append_of_mem he
        have hsplit : (after (attempts ++ later)).trace =
            ((after attempts).trace ++ .opened :: x) ++ e :: y := by rw [hnew]; simp
        obtain ⟨before, state', heq, hpending⟩ := pending_of_starts hsound'.every hsplit hname
        -- the state that was found is older than the last one written
        have hold : Event.stored state ∈ before := by
          rcases List.eq_nil_or_concat x with rfl | ⟨x', last, rfl⟩
          · have hlast := (List.append_inj' heq rfl).2
            cases hlast
          · have heq' : ((after attempts).trace ++ .opened :: x') ++ [last] =
                before ++ [.stored state'] := by simpa using heq
            rw [← (List.append_inj' heq' rfl).1]
            exact List.mem_append_left _ (hsound.recorded state hstate)
        exact hpending state hold s hs rfl
  · intro state hstate
    obtain ⟨a, b, htrace⟩ := List.append_of_mem hstate
    obtain ⟨hvalid, hsmall⟩ := hsound.every a _ b htrace
    exact decode_of_valid hvalid hsmall

end RxSolutions.Supervisor.Initialization
