import RxSolutions.RosJtc.Handler

/-!
# Each goal is sent once

Whatever lines a bridge is given and whatever the controller answers, each goal is sent at most
once, and not while an earlier one may still be running. What a handler can do to the memory is
said once, as a list of moves; an exception may stop it between any two of them.
-/

namespace RxSolutions.RosJtc.Bridge

open Durable Durable.Program
open Markup (Json)
open Relation (ReflTransGen)

/-- What an event has to respect, after the events before it. -/
def Once (before : List Event) : Event → Prop
  | .accepted n => ∀ n', .accepted n' ∈ before → n' < n
  | .sendCalled o i =>
    (∀ o' i', .sendCalled o' i' ∈ before → o' ≠ o ∧ i' ≠ i) ∧
    (∀ o' i', .sendCalled o' i' ∈ before → ∃ b, .answered i' b ∈ before) ∧
    (∀ i', .answered i' true ∈ before → ∃ r, .captured i' r ∈ before) ∧
    ∀ i', .sendUnknown i' ∉ before ∧ .cancelUnknown i' ∉ before
  | .cancelCalled i => .cancelCalled i ∉ before ∧ ∃ o, .entered o i ∈ before
  | .captured i _ => (∀ r, .captured i r ∉ before) ∧ ∃ o, .entered o i ∈ before
  | _ => True

/-! ## Moves -/

/-- A goal is recorded. -/
def Memory.record (m : Memory) (i : String) (e : Entry) : Memory :=
  { m with goals := m.goals.insert i e }.log (.entered e.operation i)

/-- Its operation is recorded too. -/
def Memory.assign (m : Memory) (o i : String) (size : ℕ) : Memory :=
  { m with operations := m.operations.insert o i, recordedBytes := m.recordedBytes + size }

/-- An entry of a goal that has not been sent yet. -/
structure Entry.Fresh (e : Entry) : Prop where
  pending : e.pending = true
  result : e.result = none
  cancel : e.cancel = none

/-- A goal may be sent. -/
structure Memory.Admits (m : Memory) (i : String) (e : Entry) : Prop where
  faulted : m.faulted = false
  idle : ∀ j d, m.goals.get? j = some d → d.pending = false
  unknown : m.goals.get? i = none
  unassigned : m.operations.get? e.operation = none
  fresh : e.Fresh

/-- What a handler can do to the memory. A send and the answer to it are one move, since nothing
can come between them but a fault. -/
inductive Move : Memory → Memory → Prop
  | replied (m : Memory) (message : Json) : Move m (m.log (.replied message))
  | accepted {m : Memory} {n : ℕ} (h : m.sequence < n) :
    Move m ({ m with sequence := n }.log (.accepted n))
  | recorded {m : Memory} {i : String} {e : Entry} (h : m.Admits i e) : Move m (m.record i e)
  | assigned {m : Memory} {i : String} {e : Entry} (size : ℕ) (h : m.Admits i e) :
    Move m ((m.record i e).assign e.operation i size)
  | answered {m : Memory} {i : String} {e : Entry} (size : ℕ) (b : Bool) (h : m.Admits i e) :
    Move m (((((m.record i e).assign e.operation i size).log (.sendCalled e.operation i)).update i
      ({ · with pending := b })).log (.answered i b))
  | unsent {m : Memory} {i : String} {e : Entry} (size : ℕ) (h : m.Admits i e) :
    Move m ({ (m.record i e).assign e.operation i size with faulted := true }.log (.sendUnknown i))
  | unanswered {m : Memory} {i : String} {e : Entry} (size : ℕ) (h : m.Admits i e) :
    Move m ({ ((m.record i e).assign e.operation i size).log (.sendCalled e.operation i) with
      faulted := true }.log (.sendUnknown i))
  | sendUnknown (m : Memory) (i : String) :
    Move m ({ m with faulted := true }.log (.sendUnknown i))
  /-- A change of an entry that its later handling does not depend on. -/
  | noted (m : Memory) (i : String) (f : Entry → Entry)
    (h : ∀ e, (f e).operation = e.operation ∧ (f e).pending = e.pending ∧
      (f e).result = e.result ∧ (e.cancel.isSome = true → (f e).cancel.isSome = true)) :
    Move m (m.update i f)
  | captured {m : Memory} {i : String} {e : Entry} (value : Json) (h : m.goals.get? i = some e)
    (hnone : e.result = none) :
    Move m ((m.update i ({ · with result := some value, pending := false })).log
      (.captured i value))
  | cancelCalled {m : Memory} {i : String} {e : Entry} (value : Json)
    (h : m.goals.get? i = some e) (hnone : e.cancel = none) :
    Move m ((m.update i ({ · with cancel := some value })).log (.cancelCalled i))
  | cancelUnknown (m : Memory) (i : String) :
    Move m ({ m with faulted := true }.log (.cancelUnknown i))

/-- How the table of goals bears out the trace. -/
structure Safe (m : Memory) : Prop where
  once : History.Every Once m.trace
  sequence : ∀ n, .accepted n ∈ m.trace → n ≤ m.sequence
  entered : ∀ i e, m.goals.get? i = some e → .entered e.operation i ∈ m.trace
  called : ∀ o i, .sendCalled o i ∈ m.trace →
    m.operations.get? o = some i ∧ m.goals.get? i ≠ none
  answered : ∀ i b, .answered i b ∈ m.trace → m.goals.get? i ≠ none
  settled : ∀ i e, m.goals.get? i = some e → e.pending = false → .answered i true ∈ m.trace →
    ∃ r, .captured i r ∈ m.trace
  resolved : m.faulted = false → ∀ o i, .sendCalled o i ∈ m.trace → ∃ b, .answered i b ∈ m.trace
  unknown : ∀ i, .sendUnknown i ∈ m.trace ∨ .cancelUnknown i ∈ m.trace → m.faulted = true
  captured : ∀ i r, .captured i r ∈ m.trace → ∃ e, m.goals.get? i = some e ∧ e.result = some r
  cancelled : ∀ i, .cancelCalled i ∈ m.trace →
    ∃ e, m.goals.get? i = some e ∧ e.cancel.isSome = true

theorem safe_empty : Safe .empty := by
  constructor <;> simp [Memory.empty]

section Lookup

variable {m : Memory} {i j : String} {f : Entry → Entry}

/-- What a change of one entry leaves in the table. -/
theorem get?_update : (m.update i f).goals.get? j =
    if j = i then (m.goals.get? j).map f else m.goals.get? j := by
  unfold Memory.update
  cases h : m.goals.get? i with
  | none =>
    split_ifs with heq
    · rw [heq, h]
      rfl
    · rfl
  | some e =>
    simp only [SortedMap.get?_insert]
    split_ifs with heq
    · rw [heq, h]
      rfl
    · rfl

@[simp] theorem trace_update : (m.update i f).trace = m.trace := by
  unfold Memory.update
  split <;> rfl

@[simp] theorem faulted_update : (m.update i f).faulted = m.faulted := by
  unfold Memory.update
  split <;> rfl

@[simp] theorem operations_update : (m.update i f).operations = m.operations := by
  unfold Memory.update
  split <;> rfl

@[simp] theorem sequence_update : (m.update i f).sequence = m.sequence := by
  unfold Memory.update
  split <;> rfl

end Lookup

theorem mem_log {m : Memory} {e e' : Event} : e ∈ (m.log e').trace ↔ e ∈ m.trace ∨ e = e' := by
  rw [Memory.log, List.mem_append, List.mem_singleton]

/-! ## Moves keep the bridge safe -/

section Safety

attribute [local grind =] get?_update mem_log SortedMap.get?_insert trace_update faulted_update
  operations_update sequence_update
attribute [local grind] Memory.log Memory.record Memory.assign
attribute [local grind cases] Safe

variable {m : Memory} {i : String} {e : Entry}

/-- A goal that is admitted may be sent: nothing is left open. -/
theorem Safe.once_sendCalled (hm : Safe m) (h : m.Admits i e) (size : ℕ) :
    Once ((m.record i e).assign e.operation i size).trace (.sendCalled e.operation i) := by
  refine ⟨?_, ?_, ?_, ?_⟩
  · intro o' i' hcalled
    have hbefore : .sendCalled o' i' ∈ m.trace := by grind
    obtain ⟨hassigned, hknown⟩ := hm.called o' i' hbefore
    constructor
    · rintro rfl
      rw [h.unassigned] at hassigned
      cases hassigned
    · rintro rfl
      exact hknown h.unknown
  · intro o' i' hcalled
    have hbefore : .sendCalled o' i' ∈ m.trace := by grind
    obtain ⟨b, hb⟩ := hm.resolved h.faulted o' i' hbefore
    exact ⟨b, by grind⟩
  · intro i' hanswered
    have hbefore : .answered i' true ∈ m.trace := by grind
    obtain ⟨d, hd⟩ := Option.ne_none_iff_exists'.mp (hm.answered i' true hbefore)
    -- the goal was accepted and is not pending: its result has been taken
    obtain ⟨r, hr⟩ := hm.settled i' d hd (h.idle i' d hd) hbefore
    exact ⟨r, by grind⟩
  · intro i'
    have hnone := hm.unknown i'
    have hfaulted := h.faulted
    grind

/-- A goal that is admitted may be recorded. -/
theorem Safe.record (hm : Safe m) (h : m.Admits i e) : Safe (m.record i e) := by
  obtain ⟨-, -, hnew, -, hfresh⟩ := h
  have hpending := hfresh.pending
  constructor
  case once => exact History.every_concat.mpr ⟨hm.once, trivial⟩
  all_goals grind

/-- So may its operation. -/
theorem Safe.assign (hm : Safe m) (h : m.Admits i e) (size : ℕ) :
    Safe ((m.record i e).assign e.operation i size) := by
  have hrecord := hm.record h
  refine { hrecord with called := ?_ }
  intro o' i' hbefore
  obtain ⟨hassigned, hknown⟩ := hrecord.called o' i' hbefore
  refine ⟨?_, hknown⟩
  have hne : o' ≠ e.operation := by
    rintro rfl
    rw [Memory.record, Memory.log, h.unassigned] at hassigned
    cases hassigned
  rw [Memory.assign, SortedMap.get?_insert, if_neg hne]
  exact hassigned

/-- The service was called; as long as no answer has been taken, the bridge is faulted. -/
theorem Safe.unanswered (hm : Safe m) (h : m.Admits i e) (size : ℕ) :
    Safe ({ ((m.record i e).assign e.operation i size).log (.sendCalled e.operation i) with
      faulted := true }.log (.sendUnknown i)) := by
  have honceCalled := hm.once_sendCalled h size
  obtain ⟨hassign.once, hsequence, hentered, hcalled, hanswered, hsettled, hresolved, hunknown,
    hcaptured, hcancelled⟩ := hm.assign h size
  constructor
  case once =>
    exact History.every_concat.mpr ⟨History.every_concat.mpr ⟨hassign.once, honceCalled⟩, trivial⟩
  all_goals grind

/-- The service was called and has answered. -/
theorem Safe.answer (hm : Safe m) (h : m.Admits i e) (size : ℕ) (b : Bool) :
    Safe (((((m.record i e).assign e.operation i size).log (.sendCalled e.operation i)).update i
      ({ · with pending := b })).log (.answered i b)) := by
  have honceCalled := hm.once_sendCalled h size
  have hunanswered : ∀ b', .answered i b' ∉ m.trace := fun b' hb' => hm.answered i b' hb' h.unknown
  obtain ⟨hassign.once, hsequence, hentered, hcalled, hanswered, hsettled, hresolved, hunknown,
    hcaptured, hcancelled⟩ := hm.assign h size
  constructor
  case once =>
    refine History.every_concat.mpr ⟨?_, trivial⟩
    rw [trace_update]
    exact History.every_concat.mpr ⟨hassign.once, honceCalled⟩
  all_goals grind

/-- A change that later handling does not depend on. -/
theorem Safe.note (hm : Safe m) {f : Entry → Entry}
    (h : ∀ e, (f e).operation = e.operation ∧ (f e).pending = e.pending ∧
      (f e).result = e.result ∧ (e.cancel.isSome = true → (f e).cancel.isSome = true)) :
    Safe (m.update i f) := by
  cases hgoal : m.goals.get? i with
  | none =>
    rw [Memory.update, hgoal]
    exact hm
  | some d =>
    have hd := h d
    clear h
    constructor
    case once =>
      rw [trace_update]
      exact hm.once
    all_goals grind

/-- A result is taken once. -/
theorem Safe.capture (hm : Safe m) (value : Json) (h : m.goals.get? i = some e)
    (hnone : e.result = none) :
    Safe ((m.update i ({ · with result := some value, pending := false })).log
      (.captured i value)) := by
  have honceCaptured : Once m.trace (.captured i value) := by
    refine ⟨?_, e.operation, hm.entered i e h⟩
    intro r hr
    obtain ⟨d, hd, hresult⟩ := hm.captured i r hr
    rw [h, Option.some.injEq] at hd
    rw [← hd, hnone] at hresult
    cases hresult
  constructor
  case once =>
    rw [Memory.log, trace_update]
    exact History.every_concat.mpr ⟨hm.once, honceCaptured⟩
  all_goals grind

/-- A goal is cancelled once. -/
theorem Safe.cancel (hm : Safe m) (value : Json) (h : m.goals.get? i = some e)
    (hnone : e.cancel = none) :
    Safe ((m.update i ({ · with cancel := some value })).log (.cancelCalled i)) := by
  have honceCancelled : Once m.trace (.cancelCalled i) := by
    refine ⟨?_, e.operation, hm.entered i e h⟩
    intro hbefore
    obtain ⟨d, hd, hcancel⟩ := hm.cancelled i hbefore
    rw [h, Option.some.injEq] at hd
    rw [← hd, hnone] at hcancel
    cases hcancel
  constructor
  case once =>
    rw [Memory.log, trace_update]
    exact History.every_concat.mpr ⟨hm.once, honceCancelled⟩
  all_goals grind

/-- A bridge that is faulted sends nothing any more. -/
theorem Safe.fault (hm : Safe m) {event : Event}
    (h : event = .sendUnknown i ∨ event = .cancelUnknown i) :
    Safe ({ m with faulted := true }.log event) := by
  have hevent : Once m.trace event := by
    rcases h with rfl | rfl <;> trivial
  constructor
  case once => exact History.every_concat.mpr ⟨hm.once, hevent⟩
  all_goals grind

/-- Sequence numbers rise. -/
theorem Safe.accept (hm : Safe m) {n : ℕ} (h : m.sequence < n) :
    Safe ({ m with sequence := n }.log (.accepted n)) := by
  have hevent : Once m.trace (.accepted n) := fun n' hn' => lt_of_le_of_lt (hm.sequence n' hn') h
  constructor
  case once => exact History.every_concat.mpr ⟨hm.once, hevent⟩
  all_goals grind

theorem Safe.reply (hm : Safe m) (message : Json) : Safe (m.log (.replied message)) := by
  constructor
  case once => exact History.every_concat.mpr ⟨hm.once, trivial⟩
  all_goals grind

end Safety

/-- Every move keeps the bridge safe. -/
theorem Move.safe {m m' : Memory} (h : Move m m') (hm : Safe m) : Safe m' := by
  cases h with
  | replied message => exact hm.reply message
  | accepted h => exact hm.accept h
  | recorded h => exact hm.record h
  | assigned size h => exact hm.assign h size
  | answered size b h => exact hm.answer h size b
  | unsent size h => exact (hm.assign h size).fault (Or.inl rfl)
  | unanswered size h => exact hm.unanswered h size
  | sendUnknown i => exact hm.fault (Or.inl rfl)
  | noted i f h => exact hm.note h
  | captured value h hnone => exact hm.capture value h hnone
  | cancelCalled value h hnone => exact hm.cancel value h hnone
  | cancelUnknown i => exact hm.fault (Or.inr rfl)

/-! ## Handlers move -/

/-- Any number of moves. -/
abbrev Moves : Memory → Memory → Prop := ReflTransGen Move

/-- From the memory `m`, a handler ends by moves from `m₀`, whether it returns or throws. -/
abbrev Walks {α : Type} (m₀ : Memory) (program : Handler α) (m : Memory) : Prop :=
  Always Process.memory program (fun _ t => Moves m₀ t) (fun _ t => Moves m₀ t) m

section Primitives

variable {α β : Type} {m m₀ : Memory} {ok : α → Memory → Prop} {err : Thrown → Memory → Prop}

theorem always_get {f : Process → Handler α}
    (hf : ∀ s, s.memory = m → Always Process.memory (f s) ok err m) :
    Always Process.memory (get >>= f) ok err m := by
  intro s hs
  rw [wp_bind, wp_get]
  exact hf s hs s hs

theorem reads_check (r : Except Thrown α) :
    Reads Process.memory (check r) (fun a => r = .ok a) m := by
  cases r with
  | ok a => exact Reads.pure rfl
  | error e => exact Reads.throw

theorem reads_hazard : Reads Process.memory hazard (fun _ => True) m := by
  rintro s rfl
  unfold hazard
  simp only [wp_bind, wp_get, wp_set]
  cases s.world.hazard s.hazards with
  | none => exact ⟨rfl, trivial⟩
  | some e => exact rfl

theorem reads_now : Reads Process.memory now (fun _ => True) m := by
  rintro s rfl
  unfold now
  simp only [wp_bind, wp_get, wp_set]
  cases s.world.clock s.reads with
  | some t => exact ⟨rfl, trivial⟩
  | none => exact rfl

theorem reads_known : Reads Process.memory known (fun a => a = m) m :=
  always_get fun _ hs => Reads.pure hs

/-- A deadline that has passed is a throw. -/
theorem reads_deadline (until_ : ℕ) : Reads Process.memory (deadline until_) (fun _ => True) m :=
  Reads.seq reads_now fun _ _ => (reads_check _).mono fun _ _ => trivial

theorem always_change (f : Memory → Memory) {ok : Unit → Memory → Prop} (h : ok () (f m)) :
    Always Process.memory (change f) ok err m := by
  rintro s rfl
  exact h

/-- What follows a change. -/
theorem after_change (f : Memory → Memory) {next : Unit → Handler α}
    (h : Always Process.memory (next ()) ok err (f m)) :
    Always Process.memory (change f >>= next) ok err m :=
  Always.bind (always_change f h)

/-- A service is called at most once, and an answer comes only if it was. -/
theorem always_call (answer : World → Call α) (called : Memory → Memory) (until_ : ℕ) :
    Always Process.memory (call answer called until_) (fun _ t => t = called m)
      (fun _ t => t = m ∨ t = called m) m := by
  refine (reads_deadline until_).bind (fun _ => Or.inl rfl) fun _ _ => ?_
  refine always_get fun s _ => ?_
  cases answer s.world with
  | unavailable => exact Always.throw (Or.inl rfl)
  | failed what =>
    exact (reads_deadline until_).bind (fun _ => Or.inl rfl) fun _ _ =>
      after_change called (Always.throw (Or.inr rfl))
  | unanswered =>
    exact (reads_deadline until_).bind (fun _ => Or.inl rfl) fun _ _ =>
      after_change called (Always.throw (Or.inr rfl))
  | answered response =>
    exact (reads_deadline until_).bind (fun _ => Or.inl rfl) fun _ _ =>
      after_change called (Always.pure rfl)

theorem reads_call (answer : World → Call α) (until_ : ℕ) :
    Reads Process.memory (call answer id until_) (fun _ => True) m :=
  (always_call answer id until_).mono (fun _ _ ht => ⟨ht, trivial⟩) fun _ _ ht => ht.elim id id

theorem reads_inspect (k : Identity) (until_ : ℕ) (active : Bool) :
    Reads Process.memory (inspect k until_ active) (fun _ => True) m := by
  refine Reads.seq reads_now fun _ _ => ?_
  refine Reads.seq (reads_call _ _) fun _ _ => ?_
  refine Reads.seq (reads_check _) fun _ _ => ?_
  refine Reads.seq (reads_check _) fun _ _ => ?_
  refine Reads.seq (reads_check _) fun _ _ => ?_
  refine Reads.seq reads_now fun _ _ => ?_
  exact always_get fun _ _ => Reads.pure trivial

/-- What follows a reading or a check. -/
theorem Walks.reads {p : β → Prop} {program : Handler β} {next : β → Handler α}
    (h : Reads Process.memory program p m) (hm : Moves m₀ m)
    (hnext : ∀ b, p b → Walks m₀ (next b) m) : Walks m₀ (program >>= next) m :=
  h.bind (fun _ => hm) hnext

/-- What follows a check that passes. -/
theorem Walks.check {r : Except Thrown β} {next : β → Handler α} (hm : Moves m₀ m)
    (hnext : ∀ b, r = .ok b → Walks m₀ (next b) m) : Walks m₀ (Bridge.check r >>= next) m :=
  Walks.reads (reads_check r) hm hnext

/-- What follows a change by a move. -/
theorem Walks.move (f : Memory → Memory) {next : Unit → Handler α} (hm : Moves m₀ m)
    (h : Move m (f m)) (hnext : Moves m₀ (f m) → Walks m₀ (next ()) (f m)) :
    Walks m₀ (change f >>= next) m :=
  after_change f (hnext (hm.tail h))

theorem walks_throw {e : Thrown} (hm : Moves m₀ m) : Walks m₀ (throw e : Handler α) m :=
  Always.throw hm

theorem walks_reply (k : Identity) (seq : Json) (state : String) (value fault : Json)
    (hm : Moves m₀ m) : Walks m₀ (reply k seq state value fault) m := by
  refine Walks.reads reads_now hm fun t _ => ?_
  refine Walks.check hm fun _ _ => ?_
  rintro s rfl
  rw [wp_bind, wp_get, wp_bind, wp_set]
  have hmoved : ∀ message, Moves m₀ (s.memory.log (.replied message)) := fun message =>
    hm.tail (Move.replied s.memory message)
  exact (reads_check _).runs (fun _ _ => hmoved _) (fun _ => hmoved _) _ rfl

end Primitives

section Send

variable {m m₀ : Memory} {i : String} {e : Entry} {k : Identity} {seq : Json} {until_ entered : ℕ}

theorem walks_sendAnswered {response : SendResponse}
    (h : Moves m₀ ((m.update i ({ · with pending := response.accepted })).log
      (.answered i response.accepted))) : Walks m₀ (sendAnswered k seq entered i response) m := by
  refine after_change _ ?_
  refine Walks.reads reads_now h fun captured _ => ?_
  refine Walks.reads reads_hazard h fun _ _ => ?_
  refine Walks.move _ h (Move.noted _ i _ fun _ => ⟨rfl, rfl, rfl, id⟩) fun hnoted => ?_
  exact walks_reply k seq _ _ _ hnoted

/-- Once the goal is recorded: until an answer is taken, only the call can have been made. -/
theorem sendGoal_moves (h : m.Admits i e) (size : ℕ) :
    Always Process.memory (sendGoal k seq until_ entered e.operation i) (fun _ t => Moves m t)
      (fun _ t => (t = (m.record i e).assign e.operation i size ∨
        t = ((m.record i e).assign e.operation i size).log (.sendCalled e.operation i)) ∨
        Moves m t)
      ((m.record i e).assign e.operation i size) := by
  refine Always.seq ((always_call _ _ _).mono (fun _ _ ht => ht) fun _ _ ht => Or.inl ht) ?_
  rintro response _ rfl
  have hanswered := ReflTransGen.single (Move.answered size response.accepted h)
  exact (walks_sendAnswered hanswered).mono (fun _ _ ht => ht) fun _ _ ht => Or.inr ht

theorem walks_sendFailed (thrown : Thrown)
    (h : Moves m₀ ({ m with faulted := true }.log (.sendUnknown i))) :
    Walks m₀ (sendFailed k seq i thrown) m := by
  refine after_change _ ?_
  refine Walks.reads reads_hazard h fun _ _ => ?_
  refine Walks.move _ h (Move.noted _ i _ fun _ => ⟨rfl, rfl, rfl, id⟩) fun hnoted => ?_
  refine Walks.reads reads_known hnoted fun memory _ => ?_
  cases memory.goals.get? i with
  | none => exact walks_throw hnoted
  | some entry => exact walks_reply k seq _ _ _ hnoted

theorem walks_enter (h : m.Admits i e) : Walks m (enter k seq until_ entered i e) m := by
  have hrecorded := ReflTransGen.single (Move.recorded h)
  have hassigned := ReflTransGen.single (Move.assigned (e.body.size k.numberLength) h)
  refine after_change _ ?_
  refine Walks.reads reads_hazard hrecorded fun _ _ => ?_
  refine after_change _ ?_
  refine Walks.reads reads_hazard hassigned fun _ _ => ?_
  refine Walks.check hassigned fun _ _ => ?_
  refine Always.tryCatch (sendGoal_moves h (e.body.size k.numberLength)) ?_
  rintro thrown t ((rfl | rfl) | ht)
  · exact walks_sendFailed thrown (.single (Move.unsent _ h))
  · exact walks_sendFailed thrown (.single (Move.unanswered _ h))
  · exact walks_sendFailed thrown (ht.tail (Move.sendUnknown _ _))

/-- A new goal is sent by moves. -/
theorem walks_sendNew {operation : String} {payload : Json} (hnew : m.goals.get? i = none) :
    Walks m (sendNew k seq until_ operation i payload) m := by
  refine Walks.reads reads_known .refl fun memory hmemory => ?_
  subst hmemory
  refine Walks.check .refl fun _ hadmitted => ?_
  refine Walks.check .refl fun _ hidle => ?_
  refine Walks.reads (reads_inspect k until_ true) .refl fun _ _ => ?_
  refine Walks.reads (reads_deadline until_) .refl fun _ _ => ?_
  refine Walks.reads reads_now .refl fun entered _ => ?_
  refine Walks.reads reads_hazard .refl fun _ _ => ?_
  obtain ⟨hfaulted, -, -, hunassigned⟩ := require_eq_ok.mp hadmitted
  have hidle := require_eq_ok.mp hidle
  apply walks_enter
  exact ⟨hfaulted, fun j d hd => hidle (j, d) (SortedMap.mem_entries.mpr hd), hnew, hunassigned,
    ⟨rfl, rfl, rfl⟩⟩

/-- The send command moves. -/
theorem walks_send {body : Json} (hm : Moves m₀ m) : Walks m₀ (send k seq body until_) m := by
  refine Walks.check hm fun _ _ => ?_
  refine Walks.check hm fun operation _ => ?_
  refine Walks.check hm fun invocation _ => ?_
  refine Walks.check hm fun payload _ => ?_
  refine Walks.check hm fun _ _ => ?_
  refine Walks.reads reads_known hm fun memory hmemory => ?_
  subst hmemory
  cases hknown : memory.goals.get? invocation with
  | none =>
    exact (walks_sendNew hknown).mono (fun _ _ ht => hm.trans ht) fun _ _ ht => hm.trans ht
  | some existing =>
    exact Walks.check hm fun _ _ => walks_reply k seq _ _ _ hm

end Send

section Result

variable {m m₀ : Memory} {i : String} {k : Identity} {seq : Json} {until_ : ℕ}

/-- A result that is taken is a move, if none was taken before. -/
theorem walks_capture {known : Bool} {value : Json} {next : Unit → Handler Unit}
    (hm : Moves m₀ m)
    (hknown : known = true → ∃ e, m.goals.get? i = some e ∧ e.result = none)
    (hnext : ∀ t, Moves m₀ t → Walks m₀ (next ()) t) :
    Walks m₀ (capture i known value >>= next) m := by
  refine Always.bind ?_
  unfold capture
  refine Always.ite (fun h => ?_) fun _ => ?_
  · obtain ⟨e, he, hnone⟩ := hknown h
    exact always_change _ (hnext _ (hm.tail (Move.captured value he hnone)))
  · exact Always.pure (hnext _ hm)

theorem walks_resultOf {known : Bool} (hm : Moves m₀ m)
    (hknown : known = true → ∃ e, m.goals.get? i = some e ∧ e.result = none) :
    Walks m₀ (resultOf k seq until_ i known) m := by
  refine Walks.check hm fun _ _ => ?_
  refine Walks.reads reads_now hm fun _ _ => ?_
  refine Walks.reads (reads_call _ _) hm fun response _ => ?_
  refine Walks.check hm fun _ _ => ?_
  refine Walks.reads reads_now hm fun _ _ => ?_
  refine Walks.reads reads_hazard hm fun _ _ => ?_
  refine Always.ite (fun _ => ?_) fun _ => walks_reply k seq _ _ _ hm
  exact walks_capture hm hknown fun t ht => walks_reply k seq _ _ _ ht

/-- The result command moves. -/
theorem walks_result {body : Json} (hm : Moves m₀ m) : Walks m₀ (result k seq body until_) m := by
  refine Walks.check hm fun _ _ => ?_
  refine Walks.check hm fun invocation _ => ?_
  refine Walks.reads reads_known hm fun memory hmemory => ?_
  subst hmemory
  cases hgoal : memory.goals.get? invocation with
  | none => exact walks_resultOf hm nofun
  | some entry =>
    cases hresult : entry.result with
    | some value => simpa only [hresult] using walks_reply k seq _ value _ hm
    | none => simpa only [hresult] using walks_resultOf hm fun _ => ⟨entry, hgoal, hresult⟩

end Result

section Cancel

variable {m m₀ : Memory} {i : String} {e : Entry} {k : Identity} {seq : Json} {until_ entered : ℕ}

theorem walks_cancelAnswered {response : CancelResponse} (hm : Moves m₀ m) :
    Walks m₀ (cancelAnswered k seq entered i response) m := by
  refine Walks.check hm fun _ _ => ?_
  refine Walks.check hm fun _ _ => ?_
  refine Walks.reads reads_now hm fun _ _ => ?_
  refine Walks.reads reads_hazard hm fun _ _ => ?_
  refine Walks.move _ hm (Move.noted _ i _ fun _ => ⟨rfl, rfl, rfl, fun _ => rfl⟩) fun hnoted => ?_
  exact walks_reply k seq _ _ _ hnoted

theorem walks_cancelFailed (thrown : Thrown) (hm : Moves m₀ m) :
    Walks m₀ (cancelFailed k seq i thrown) m := by
  refine Walks.move _ hm (Move.cancelUnknown m i) fun hfaulted => ?_
  refine Walks.reads reads_hazard hfaulted fun _ _ => ?_
  refine Walks.move _ hfaulted (Move.noted _ i _ fun entry => ⟨rfl, rfl, rfl, ?_⟩) fun hnoted => ?_
  · intro hsome
    rw [Option.isSome_map]
    exact hsome
  · refine Walks.reads reads_known hnoted fun memory _ => ?_
    cases (memory.goals.get? i).bind (·.cancel) with
    | none => exact walks_throw hnoted
    | some cancel => exact walks_reply k seq _ _ _ hnoted

theorem walks_cancelGoal (hm : Moves m₀ m) (hcalled : Moves m₀ (m.log (.cancelCalled i))) :
    Walks m₀ (cancelGoal k seq until_ entered i) m := by
  refine Always.seq ((always_call _ _ _).mono (fun _ _ ht => ht) ?_) ?_
  · rintro _ t (rfl | rfl)
    · exact hm
    · exact hcalled
  · rintro response _ rfl
    exact walks_cancelAnswered hcalled

theorem walks_cancelNew (hm : Moves m₀ m) (h : m.goals.get? i = some e) (hnone : e.cancel = none) :
    Walks m₀ (cancelNew k seq until_ i) m := by
  refine Walks.reads reads_now hm fun entered _ => ?_
  refine Walks.reads reads_hazard hm fun _ _ => ?_
  refine Walks.move _ hm (Move.noted _ i _ fun _ => ⟨rfl, rfl, rfl, fun _ => rfl⟩) fun hnoted => ?_
  refine Walks.reads reads_hazard hnoted fun _ _ => ?_
  refine Walks.check hnoted fun _ _ => ?_
  have hcalled := hm.tail (Move.cancelCalled (.object [("state", .string "CANCEL_ENTERED"),
    ("entered_at_ns", .string (toString entered)), ("terminal_stop_proven", .bool false)]) h hnone)
  exact Always.tryCatch (walks_cancelGoal hnoted hcalled) fun thrown t ht =>
    walks_cancelFailed thrown ht

/-- The cancel command moves. -/
theorem walks_cancel {body : Json} (hm : Moves m₀ m) : Walks m₀ (cancel k seq body until_) m := by
  refine Walks.check hm fun _ _ => ?_
  refine Walks.check hm fun invocation _ => ?_
  refine Walks.reads reads_known hm fun memory hmemory => ?_
  subst hmemory
  cases hgoal : memory.goals.get? invocation with
  | none => exact walks_throw hm
  | some entry =>
    cases hcancel : entry.cancel with
    | some value => simpa only [hcancel] using walks_reply k seq _ value _ hm
    | none => simpa only [hcancel] using walks_cancelNew hm hgoal hcancel

end Cancel

/-! ## Lines and runs -/

section Lines

variable {m m₀ : Memory} {k : Identity}

theorem walks_command {p : Json} {until_ : ℕ} (hm : Moves m₀ m) :
    Walks m₀ (command k p until_) m := by
  refine Walks.reads reads_now hm fun _ _ => ?_
  refine Walks.check hm fun _ _ => ?_
  refine Walks.check hm fun body _ => ?_
  refine Walks.check hm fun seq _ => ?_
  refine Walks.check hm fun cmd _ => ?_
  refine Always.ite (fun _ => ?_) fun _ => ?_
  · refine Walks.check hm fun _ _ => ?_
    exact Walks.reads (reads_inspect k until_ false) hm fun _ _ => walks_reply k seq _ _ _ hm
  refine Always.ite (fun _ => walks_send hm) fun _ => ?_
  refine Always.ite (fun _ => walks_result hm) fun _ => ?_
  exact Always.ite (fun _ => walks_cancel hm) fun _ => walks_throw hm

/-- Every request that is handled moves. -/
theorem walks_handle (p : Json) : Walks m (handle k p) m := by
  refine Walks.check .refl fun _ _ => ?_
  refine Walks.check .refl fun seq _ => ?_
  refine Walks.reads reads_known .refl fun memory hmemory => ?_
  subst hmemory
  refine Walks.check .refl fun _ hlater => ?_
  refine Walks.move _ .refl (Move.accepted (require_eq_ok.mp hlater)) fun haccepted => ?_
  exact Walks.check haccepted fun until_ _ => walks_command haccepted

/-- A line is a sequence of moves. -/
theorem line_moves (document : Except Thrown Json) : Walks m (line k document) m := by
  have hhandle : Walks m (check document >>= handle k) m :=
    Walks.check .refl fun p _ => walks_handle p
  refine Always.tryCatch hhandle fun e t ht => ?_
  cases e <;> exact walks_reply k _ _ _ _ ht

/-- Every line of input moves. -/
theorem step_moves (machine : Machine) (input : Line) :
    Moves machine.memory (machine.step k input).memory := by
  unfold Machine.step
  split
  · exact .refl
  · split
    · next heq => exact (line_moves (k := k) input.document).returns heq
    · next heq => exact (line_moves (k := k) input.document).stops heq

variable {m' : Memory}

theorem moves_safe (h : Moves m m') (hm : Safe m) : Safe m' := by
  induction h with
  | refl => exact hm
  | tail _ hmove ih => exact hmove.safe ih

/-- Whatever lines come, the bridge stays safe. -/
theorem after_safe (lines : List Line) : Safe (after k lines).memory :=
  Runs.invariant (P := fun machine => Safe machine.memory)
    (fun machine input h => moves_safe (step_moves machine input) h) safe_empty lines

/-- A result that was taken stays. -/
def Keeps (m m' : Memory) : Prop :=
  ∀ i e r, m.goals.get? i = some e → e.result = some r →
    ∃ e', m'.goals.get? i = some e' ∧ e'.result = some r

theorem keeps_refl (m : Memory) : Keeps m m := fun _ e _ he hr => ⟨e, he, hr⟩

/-- Results are kept over runs. -/
theorem Keeps.trans {m' m'' : Memory} (h : Keeps m m') (h' : Keeps m' m'') : Keeps m m'' := by
  intro i e r he hr
  obtain ⟨e', he', hr'⟩ := h i e r he hr
  exact h' i e' r he' hr'

theorem keeps_record {i : String} {e : Entry} (h : m.goals.get? i = none) :
    Keeps m (m.record i e) := by
  intro j d r hd hr
  have hne : j ≠ i := by
    rintro rfl
    rw [h] at hd
    cases hd
  refine ⟨d, ?_, hr⟩
  rw [Memory.record, Memory.log, SortedMap.get?_insert, if_neg hne]
  exact hd

/-- A change that keeps the results keeps them in the table. -/
theorem keeps_update {i : String} {f : Entry → Entry}
    (h : ∀ e r, m.goals.get? i = some e → e.result = some r → (f e).result = some r) :
    Keeps m (m.update i f) := by
  intro j d r hd hr
  rw [get?_update]
  split_ifs with heq
  · subst heq
    exact ⟨f d, by rw [hd]; rfl, h d r hd hr⟩
  · exact ⟨d, hd, hr⟩

/-- No move changes a result. -/
theorem Move.keeps (h : Move m m') : Keeps m m' := by
  cases h with
  | replied message => exact keeps_refl m
  | accepted h => exact keeps_refl m
  | recorded h => exact keeps_record h.unknown
  | assigned size h => exact keeps_record h.unknown
  | @answered i e size b h =>
    have hrecord : Keeps m (((m.record i e).assign e.operation i size).log
      (.sendCalled e.operation i)) := keeps_record h.unknown
    exact hrecord.trans (keeps_update fun _ _ _ hr => hr)
  | unsent size h => exact keeps_record h.unknown
  | unanswered size h => exact keeps_record h.unknown
  | sendUnknown i => exact keeps_refl m
  | noted i f h =>
    refine keeps_update fun e r _ hr => ?_
    rw [(h e).2.2.1, hr]
  | captured value h hnone =>
    refine keeps_update fun e r he hr => ?_
    rw [h, Option.some.injEq] at he
    rw [← he, hnone] at hr
    cases hr
  | cancelCalled value h hnone => exact keeps_update fun _ _ _ hr => hr
  | cancelUnknown i => exact keeps_refl m

theorem moves_keep (h : Moves m m') : Keeps m m' := by
  induction h with
  | refl => exact keeps_refl m
  | tail _ hmove ih => exact ih.trans hmove.keeps

end Lines

/-- Whatever lines a bridge is given and whatever the outside does: every event of its trace
respects the events before it, and a result that was taken never changes. -/
theorem goals_sent_once (k : Identity) (lines : List Line) :
    History.Every Once (after k lines).memory.trace ∧
    ∀ more, Keeps (after k lines).memory (after k (lines ++ more)).memory := by
  refine ⟨(after_safe lines).once, ?_⟩
  intro more
  rw [after, after, Runs.after_append]
  exact Runs.related (P := fun _ => True)
    (R := fun a b : Machine => Keeps a.memory b.memory) (fun a => keeps_refl a.memory)
    (fun _ _ _ h h' => h.trans h') (fun _ _ _ => trivial)
    (fun machine input _ => moves_keep (step_moves machine input)) trivial more

/-! ## A goal that is cancelled without having been sent -/

/-- A bridge to an arm with one joint. -/
def oneJoint : Identity where
  setup := {
    support := "SIM-JTC-6DOF"
    controller := "arm_controller"
    model := "sim-arm-6"
    joints := ["joint1"]
    interfaces := ["position"]
    timeout := 150
    capacity := 32
    action := "/arm_controller/follow_joint_trajectory"
    manager := "/controller_manager"
    domain := 0 }
  instanceId := "11111111-1111-4111-8111-111111111111"
  clockId := "linux-boottime/22222222-2222-4222-8222-222222222222"
  numberLength := fun _ => 8

/-- An invocation. -/
def invocation1 : String := "33333333-3333-4333-8333-333333333333"

/-- A request to the bridge. -/
def request (sequence command : String) (body : Json) : Json :=
  .object [("schema", .string "rx.ros-jtc-request.v1"),
    ("bridge_instance", .string "11111111-1111-4111-8111-111111111111"),
    ("sequence", .string sequence), ("expires_at_ns", .string "1000"),
    ("command", .string command), ("body", body)]

/-- The tolerance of its joint. -/
def tolerance1 : Json :=
  .object [("name", .string "joint1"), ("position", .number 1), ("velocity", .number 1),
    ("acceleration", .number 1)]

/-- A goal of one joint and one point. -/
def goal1 : Json :=
  .object [("joints", .array [.string "joint1"]),
    ("points", .array [.object [("positions", .array [.number 0]), ("velocities", .array []),
      ("accelerations", .array []), ("time_ns", .string "1")]]),
    ("path_tolerance", .array [tolerance1]), ("goal_tolerance", .array [tolerance1]),
    ("goal_time_ns", .string "1")]

/-- The arm is active, but the service that takes goals is not there. -/
def noSendService : World where
  clock := fun _ => some 1
  output := fun _ => true
  hazard := fun _ => none
  list := .answered [⟨"arm_controller", "joint_trajectory_controller/JointTrajectoryController",
    "active", ["joint1/position"], false⟩]
  send := .unavailable
  result := .unavailable
  cancel := .answered ⟨0, []⟩
  sendReady := false
  resultReady := true
  cancelReady := true

/-- The goal is sent while the service is gone, and then cancelled. -/
def sendAndCancel : List Line := [
  ⟨.ok (request "1" "send" (.object [
    ("operation", .string "44444444-4444-4444-8444-444444444444"),
    ("invocation", .string invocation1), ("goal", goal1)])), noSendService⟩,
  ⟨.ok (request "2" "cancel" (.object [("invocation", .string invocation1)])), noSendService⟩]

/-- Whether an event is a call of the send service. -/
def Event.isSend : Event → Bool
  | .sendCalled _ _ => true
  | _ => false

/-- The cancel service is called for a goal that was recorded but never sent. -/
theorem cancelled_without_send :
    .cancelCalled invocation1 ∈ (after oneJoint sendAndCancel).memory.trace ∧
    ∀ o i, .sendCalled o i ∉ (after oneJoint sendAndCancel).memory.trace := by
  have hcancel : .cancelCalled invocation1 ∈ (after oneJoint sendAndCancel).memory.trace := by
    decide +kernel
  have hnone : (after oneJoint sendAndCancel).memory.trace.all (!·.isSend) = true := by
    decide +kernel
  refine ⟨hcancel, fun o i hsend => ?_⟩
  have := List.all_eq_true.mp hnone _ hsend
  cases this

end RxSolutions.RosJtc.Bridge
