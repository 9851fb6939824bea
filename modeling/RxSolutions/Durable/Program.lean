import Mathlib.Data.List.Forall2

/-!
# Programs that may fail or be cut short

A program over a state `σ` either returns a value or stops with an error, and in
both cases keeps the state it reached: nothing is rolled back unless the program
says so. A process that dies in the middle of a call is one more way to stop, so
the postcondition on errors speaks about every point at which a call can end.

`Program.wp` is the weakest precondition of one execution. `Program.Always` is its
demonic form: the state is seen through a `view`, and the part the view hides (the
answers an environment will give, for example) is quantified over. The rules below
compose such judgments along `do` notation.
-/

namespace Durable

/-- A program over the state `σ` that may stop with an error `ε`. -/
abbrev Program (σ ε α : Type) : Type := ExceptT ε (StateM σ) α

variable {σ η ε α β : Type}

/-- Continue if `p` holds, stop with `e` otherwise. -/
def ensure (p : Prop) [Decidable p] (e : ε) : Program σ ε Unit :=
  if p then pure () else throw e

/-- The value of an optional result, or the error `e`. -/
def orThrow (o : Option α) (e : ε) : Program σ ε α :=
  match o with
  | some a => pure a
  | none => throw e

namespace Program

/-- From `s`, the program returns into `ok` or stops in `err`. -/
def wp (m : Program σ ε α) (ok : α → σ → Prop) (err : ε → σ → Prop) (s : σ) : Prop :=
  match m s with
  | (.ok a, t) => ok a t
  | (.error e, t) => err e t

section Weakest

variable {ok : α → σ → Prop} {err : ε → σ → Prop} {s : σ}

@[simp] theorem wp_pure (a : α) : wp (pure a : Program σ ε α) ok err s ↔ ok a s := Iff.rfl

@[simp] theorem wp_throw (e : ε) : wp (throw e : Program σ ε α) ok err s ↔ err e s := Iff.rfl

/-- The rule of sequence. -/
@[simp] theorem wp_bind (m : Program σ ε β) (f : β → Program σ ε α) :
    wp (m >>= f) ok err s ↔ wp m (fun b t => wp (f b) ok err t) err s := by
  simp only [wp, bind, ExceptT.bind, ExceptT.mk, StateT.bind, ExceptT.bindCont]
  rcases m s with ⟨r, t⟩
  cases r <;> exact Iff.rfl

/-- One execution, step by step. -/
theorem bind_of_returns {m : Program σ ε β} {f : β → Program σ ε α} {b : β} {t : σ}
    (h : m s = (.ok b, t)) : (m >>= f) s = f b t := by
  simp only [bind, ExceptT.bind, ExceptT.mk, StateT.bind, ExceptT.bindCont]
  rw [h]

theorem wp_get {ok : σ → σ → Prop} : wp (get : Program σ ε σ) ok err s ↔ ok s s := Iff.rfl

theorem wp_set {ok : PUnit → σ → Prop} (t : σ) :
    wp (set t : Program σ ε PUnit) ok err s ↔ ok ⟨⟩ t := Iff.rfl

/-- The rule of a check. -/
theorem wp_ensure {ok : Unit → σ → Prop} {p : Prop} [Decidable p] {e : ε} :
    wp (ensure p e) ok err s ↔ (p → ok () s) ∧ (¬ p → err e s) := by
  unfold ensure
  by_cases hp : p <;> simp [hp]

theorem wp_orThrow {o : Option α} {e : ε} :
    wp (orThrow o e) ok err s ↔ (∀ a, o = some a → ok a s) ∧ (o = none → err e s) := by
  cases o <;> simp [orThrow]

@[simp] theorem wp_tryCatch (m : Program σ ε α) (f : ε → Program σ ε α) :
    wp (tryCatch m f) ok err s ↔ wp m ok (fun e t => wp (f e) ok err t) s := by
  simp only [wp, tryCatch, tryCatchThe, MonadExceptOf.tryCatch, ExceptT.tryCatch, ExceptT.mk, bind,
    StateT.bind]
  rcases m s with ⟨r, t⟩
  cases r <;> exact Iff.rfl

theorem wp_mono {ok' : α → σ → Prop} {err' : ε → σ → Prop} {m : Program σ ε α}
    (h : wp m ok err s) (hok : ∀ a t, ok a t → ok' a t) (herr : ∀ e t, err e t → err' e t) :
    wp m ok' err' s := by
  rcases hm : m s with ⟨r, t⟩
  simp only [wp, hm] at h ⊢
  cases r with
  | ok a => exact hok a t h
  | error e => exact herr e t h

end Weakest

/-! ## What holds if a program returns -/

/-- If the program returns, its value and the new state satisfy `ok`. -/
def Commits (m : Program σ ε α) (ok : α → σ → Prop) (s : σ) : Prop :=
  wp m ok (fun _ _ => True) s

section Commits

variable {γ : Type} {ok ok' : α → σ → Prop} {s : σ} {m : Program σ ε α}

@[simp] theorem commits_pure (a : α) : Commits (pure a : Program σ ε α) ok s ↔ ok a s := Iff.rfl

@[simp] theorem commits_throw (e : ε) : Commits (throw e : Program σ ε α) ok s :=
  (wp_throw e).mpr trivial

@[simp] theorem commits_bind (m : Program σ ε β) (f : β → Program σ ε α) :
    Commits (m >>= f) ok s ↔ Commits m (fun b t => Commits (f b) ok t) s :=
  wp_bind m f

@[simp] theorem commits_get {ok : σ → σ → Prop} :
    Commits (MonadState.get : Program σ ε σ) ok s ↔ ok s s := Iff.rfl

@[simp] theorem commits_set {ok : PUnit → σ → Prop} (t : σ) :
    Commits (MonadStateOf.set t : Program σ ε PUnit) ok s ↔ ok ⟨⟩ t := Iff.rfl

@[simp] theorem commits_ensure {ok : Unit → σ → Prop} {p : Prop} [Decidable p] {e : ε} :
    Commits (ensure p e) ok s ↔ (p → ok () s) := by
  simp [Commits, wp_ensure]

@[simp] theorem commits_orThrow {o : Option α} {e : ε} :
    Commits (orThrow o e) ok s ↔ ∀ a, o = some a → ok a s := by
  simp [Commits, wp_orThrow]

theorem Commits.mono (hm : Commits m ok s) (h : ∀ a t, ok a t → ok' a t) : Commits m ok' s :=
  wp_mono hm h fun _ _ h => h

variable {l : List γ}

/-- A loop that collects results returns into whatever its body keeps. -/
theorem commits_mapM {inv : σ → Prop} {f : γ → Program σ ε α}
    (hf : ∀ c ∈ l, ∀ s, inv s → Commits (f c) (fun _ => inv) s) (hs : inv s) :
    Commits (l.mapM f) (fun _ => inv) s := by
  induction l generalizing s with
  | nil => exact hs
  | cons c l ih =>
    rw [List.mapM_cons, commits_bind]
    refine (hf c List.mem_cons_self s hs).mono fun _ s' hs' => ?_
    rw [commits_bind]
    exact ih (fun d hd => hf d (List.mem_cons_of_mem c hd)) hs'

/-- A loop whose steps each write an entry in a log writes the entries in order. -/
theorem commits_mapM_log {δ : Type} {log : σ → List δ → σ → Prop} {out : α → List δ}
    {p : γ → α → Prop} {f : γ → Program σ ε α} (hnil : ∀ s, log s [] s)
    (happend : ∀ s s' s'' a b, log s a s' → log s' b s'' → log s (a ++ b) s'')
    (hf : ∀ c ∈ l, ∀ s, Commits (f c) (fun a s' => log s (out a) s' ∧ p c a) s) (s : σ) :
    Commits (l.mapM f) (fun as s' => log s (as.flatMap out) s' ∧ List.Forall₂ p l as) s := by
  induction l generalizing s with
  | nil => exact ⟨hnil s, List.Forall₂.nil⟩
  | cons c l ih =>
    rw [List.mapM_cons, commits_bind]
    refine (hf c List.mem_cons_self s).mono fun a s' ha => ?_
    rw [commits_bind]
    refine (ih (fun d hd => hf d (List.mem_cons_of_mem c hd)) s').mono fun as s'' has => ?_
    rw [commits_pure, List.flatMap_cons]
    exact ⟨happend s s' s'' _ _ ha.1 has.1, List.Forall₂.cons ha.2 has.2⟩

/-- A loop returns into whatever its body keeps. -/
theorem commits_forM {inv : σ → Prop} {f : γ → Program σ ε PUnit}
    (hf : ∀ c ∈ l, ∀ s, inv s → Commits (f c) (fun _ => inv) s) (hs : inv s) :
    Commits (forM l f) (fun _ => inv) s := by
  induction l generalizing s with
  | nil => exact hs
  | cons c l ih =>
    rw [List.forM_cons, commits_bind]
    refine (hf c List.mem_cons_self s hs).mono fun _ s' hs' => ?_
    exact ih (fun d hd => hf d (List.mem_cons_of_mem c hd)) hs'

/-- A loop of checks returns only if every check passes. -/
theorem commits_forM_check {p : γ → Prop} {f : γ → Program σ ε PUnit}
    (hf : ∀ c ∈ l, Commits (f c) (fun _ t => t = s ∧ p c) s) :
    Commits (forM l f) (fun _ t => t = s ∧ ∀ c ∈ l, p c) s := by
  induction l with
  | nil => exact ⟨rfl, by simp⟩
  | cons c l ih =>
    rw [List.forM_cons, commits_bind]
    refine (hf c List.mem_cons_self).mono ?_
    rintro _ _ ⟨rfl, hc⟩
    refine (ih fun d hd => hf d (List.mem_cons_of_mem c hd)).mono ?_
    rintro _ _ ⟨rfl, hl⟩
    exact ⟨rfl, List.forall_mem_cons.mpr ⟨hc, hl⟩⟩

end Commits

/-! ## Programs that return -/

/-- The program returns, and its value and the new state satisfy `ok`. -/
def Completes (m : Program σ ε α) (ok : α → σ → Prop) (s : σ) : Prop :=
  wp m ok (fun _ _ => False) s

section Completes

variable {γ : Type} {ok ok' : α → σ → Prop} {s : σ} {m : Program σ ε α}

@[simp] theorem completes_pure (a : α) : Completes (pure a : Program σ ε α) ok s ↔ ok a s := Iff.rfl

@[simp] theorem completes_bind (m : Program σ ε β) (f : β → Program σ ε α) :
    Completes (m >>= f) ok s ↔ Completes m (fun b t => Completes (f b) ok t) s :=
  wp_bind m f

@[simp] theorem completes_get {ok : σ → σ → Prop} :
    Completes (MonadState.get : Program σ ε σ) ok s ↔ ok s s := Iff.rfl

@[simp] theorem completes_set {ok : PUnit → σ → Prop} (t : σ) :
    Completes (MonadStateOf.set t : Program σ ε PUnit) ok s ↔ ok ⟨⟩ t := Iff.rfl

@[simp] theorem completes_ensure {ok : Unit → σ → Prop} {p : Prop} [Decidable p] {e : ε} :
    Completes (ensure p e) ok s ↔ p ∧ ok () s := by
  by_cases hp : p <;> simp [Completes, wp_ensure, hp]

@[simp] theorem completes_orThrow {a : α} {e : ε} :
    Completes (orThrow (some a) e) ok s ↔ ok a s := Iff.rfl

theorem Completes.mono (hm : Completes m ok s) (h : ∀ a t, ok a t → ok' a t) :
    Completes m ok' s :=
  wp_mono hm h fun _ _ h => h

theorem Completes.and_commits (h : Completes m ok s) (h' : Commits m ok' s) :
    Completes m (fun a t => ok a t ∧ ok' a t) s := by
  rcases hm : m s with ⟨r, t⟩
  simp only [Completes, Commits, wp, hm] at h h' ⊢
  cases r with
  | ok a => exact ⟨h, h'⟩
  | error e => exact h

/-- One run of a program that returns. -/
theorem Completes.run (h : Completes m ok s) : ∃ a t, m s = (.ok a, t) ∧ ok a t := by
  rcases hm : m s with ⟨r, t⟩
  simp only [Completes, wp, hm] at h
  cases r with
  | ok a => exact ⟨a, t, rfl, h⟩
  | error e => exact h.elim

/-- A loop whose steps each return a known value, as long as there is room for the entries they
write in a log, returns these values in order. -/
theorem completes_mapM_log {δ : Type} {log : σ → List δ → σ → Prop} {room : σ → List δ → Prop}
    {out : α → List δ} {f : γ → Program σ ε α} {l : List γ} {as : List α}
    (hleft : ∀ s a b, room s (a ++ b) → room s a)
    (hright : ∀ s s' a b, room s (a ++ b) → log s a s' → room s' b)
    (hf : List.Forall₂ (fun c a => ∀ s, room s (out a) →
      Completes (f c) (fun a' s' => a' = a ∧ log s (out a) s') s) l as)
    (s : σ) (hroom : room s (as.flatMap out)) :
    Completes (l.mapM f) (fun as' _ => as' = as) s := by
  induction hf generalizing s with
  | nil => rfl
  | cons hfirst _ ih =>
    rw [List.flatMap_cons] at hroom
    rw [List.mapM_cons, completes_bind]
    refine (hfirst s (hleft _ _ _ hroom)).mono ?_
    rintro _ s' ⟨rfl, hlog⟩
    rw [completes_bind]
    refine (ih s' (hright _ _ _ _ hroom hlog)).mono ?_
    rintro _ _ rfl
    rfl

end Completes

/-! ## Every run, whatever the hidden part of the state -/

/-- From every state that looks like `h` through `view`, the program returns into
`ok` or stops in `err`, both read through `view`. -/
def Always (view : σ → η) (m : Program σ ε α) (ok : α → η → Prop) (err : ε → η → Prop)
    (h : η) : Prop :=
  ∀ s, view s = h → wp m (fun a t => ok a (view t)) (fun e t => err e (view t)) s

namespace Always

variable {view : σ → η} {ok ok' : α → η → Prop} {err err' : ε → η → Prop} {h : η}

theorem pure {a : α} (hok : ok a h) : Always view (Pure.pure a) ok err h := by
  rintro s rfl
  exact hok

variable {e : ε}

theorem throw (herr : err e h) :
    Always view (MonadExcept.throw e : Program σ ε α) ok err h := by
  rintro s rfl
  exact herr

theorem bind {m : Program σ ε β} {f : β → Program σ ε α}
    (hm : Always view m (fun b t => Always view (f b) ok err t) err h) :
    Always view (m >>= f) ok err h := by
  intro s hs
  rw [wp_bind]
  exact wp_mono (hm s hs) (fun b t hb => hb t rfl) fun _ _ he => he

theorem mono {m : Program σ ε α} (hm : Always view m ok err h)
    (hok : ∀ a t, ok a t → ok' a t) (herr : ∀ e t, err e t → err' e t) :
    Always view m ok' err' h :=
  fun s hs => wp_mono (hm s hs) (fun a t => hok a (view t)) fun e t => herr e (view t)

/-- A handler starts where the program has stopped. -/
theorem tryCatch {mid : ε → η → Prop} {m : Program σ ε α} {f : ε → Program σ ε α}
    (hm : Always view m ok mid h) (hf : ∀ e t, mid e t → Always view (f e) ok err t) :
    Always view (MonadExcept.tryCatch m f) ok err h := by
  intro s hs
  rw [wp_tryCatch]
  exact wp_mono (hm s hs) (fun _ _ ha => ha) fun e t he => hf e (view t) he t rfl

/-- Sequencing after a program whose specification is known. -/
theorem seq {mid : β → η → Prop} {m : Program σ ε β} {f : β → Program σ ε α}
    (hm : Always view m mid err h) (hf : ∀ b t, mid b t → Always view (f b) ok err t) :
    Always view (m >>= f) ok err h :=
  bind (hm.mono hf fun _ _ he => he)

theorem ensure {ok : Unit → η → Prop} {p : Prop} [Decidable p] (hp : p → ok () h)
    (hn : ¬ p → err e h) : Always view (Durable.ensure p e) ok err h := by
  rintro s rfl
  exact wp_ensure.mpr ⟨hp, hn⟩

theorem orThrow {o : Option α} (hs : ∀ a, o = some a → ok a h) (hn : o = none → err e h) :
    Always view (Durable.orThrow o e) ok err h := by
  rintro s rfl
  exact wp_orThrow.mpr ⟨hs, hn⟩

theorem ite {p : Prop} [Decidable p] {m n : Program σ ε α} (hm : p → Always view m ok err h)
    (hn : ¬ p → Always view n ok err h) : Always view (if p then m else n) ok err h := by
  by_cases hp : p
  · rw [if_pos hp]
    exact hm hp
  · rw [if_neg hp]
    exact hn hp

/-- Reading through a run: a returned value satisfies the specification. -/
theorem returns {m : Program σ ε α} {s t : σ} {a : α} (hm : Always view m ok err (view s))
    (hrun : m s = (.ok a, t)) : ok a (view t) := by
  simpa only [wp, hrun] using hm s rfl

/-- What holds where a program stops. -/
theorem stops {m : Program σ ε α} {s t : σ} (hm : Always view m ok err (view s))
    (hrun : m s = (.error e, t)) : err e (view t) := by
  simpa only [wp, hrun] using hm s rfl

end Always

/-- Every run leaves what is seen alone, and a returned value satisfies `p`. -/
abbrev Reads (view : σ → η) (m : Program σ ε α) (p : α → Prop) (h : η) : Prop :=
  Always view m (fun a t => t = h ∧ p a) (fun _ t => t = h) h

namespace Reads

variable {view : σ → η} {ok : α → η → Prop} {err : ε → η → Prop} {h : η} {p q : α → Prop}
  {m : Program σ ε α}

/-- What follows a program that only reads starts where it started. -/
theorem bind {p : β → Prop} {m : Program σ ε β} {f : β → Program σ ε α} (hm : Reads view m p h)
    (herr : ∀ e, err e h) (hf : ∀ b, p b → Always view (f b) ok err h) :
    Always view (m >>= f) ok err h := by
  refine Always.bind (Always.mono hm ?_ ?_)
  · rintro b t ⟨rfl, hb⟩
    exact hf b hb
  · rintro e t rfl
    exact herr e

theorem seq {q : β → Prop} {m : Program σ ε β} {f : β → Program σ ε α} (hm : Reads view m q h)
    (hf : ∀ b, q b → Reads view (f b) p h) : Reads view (m >>= f) p h :=
  bind hm (fun _ => rfl) hf

theorem mono (hm : Reads view m p h) (hpq : ∀ a, p a → q a) : Reads view m q h :=
  Always.mono hm (fun a _ ha => ⟨ha.1, hpq a ha.2⟩) fun _ _ he => he

theorem runs (hm : Reads view m p h) (hok : ∀ a, p a → ok a h) (herr : ∀ e, err e h) :
    Always view m ok err h := by
  refine Always.mono hm ?_ ?_
  · rintro a t ⟨rfl, ha⟩
    exact hok a ha
  · rintro e t rfl
    exact herr e

theorem pure {a : α} (ha : p a) : Reads view (Pure.pure a : Program σ ε α) p h :=
  Always.pure ⟨rfl, ha⟩

theorem throw {e : ε} : Reads view (MonadExcept.throw e : Program σ ε α) p h :=
  Always.throw rfl

theorem ensure {p : Prop} [Decidable p] {e : ε} :
    Reads view (Durable.ensure p e) (fun _ => p) h :=
  Always.ensure (fun hp => ⟨rfl, hp⟩) fun _ => rfl

theorem orThrow {o : Option α} {e : ε} :
    Reads view (Durable.orThrow o e) (fun a => o = some a) h :=
  Always.orThrow (fun _ ha => ⟨rfl, ha⟩) fun _ => rfl

/-- A loop of checks returns only if every check passes. -/
theorem forM {γ : Type} {f : γ → Program σ ε PUnit} {l : List γ} {p : γ → Prop}
    (hf : ∀ c ∈ l, Reads view (f c) (fun _ => p c) h) :
    Reads view (ForM.forM l f) (fun _ => ∀ c ∈ l, p c) h := by
  induction l with
  | nil => exact pure (by simp)
  | cons c l ih =>
    rw [List.forM_cons]
    refine seq (hf c List.mem_cons_self) fun _ hc => ?_
    exact mono (ih fun d hd => hf d (List.mem_cons_of_mem c hd)) fun _ hl =>
      List.forall_mem_cons.mpr ⟨hc, hl⟩

end Reads

/-- From every state that looks like `h`, the program returns `a` and leaves what is seen
at `h'`. -/
def Yields (view : σ → η) (m : Program σ ε α) (h : η) (a : α) (h' : η) : Prop :=
  Always view m (fun b t => b = a ∧ t = h') (fun _ _ => False) h

namespace Yields

variable {view : σ → η} {h h' h'' : η} {a : α} {b : β}

theorem pure : Yields view (Pure.pure a : Program σ ε α) h a h := Always.pure ⟨rfl, rfl⟩

theorem bind {m : Program σ ε α} {f : α → Program σ ε β} (hm : Yields view m h a h')
    (hf : Yields view (f a) h' b h'') : Yields view (m >>= f) h b h'' := by
  apply Always.seq hm
  rintro _ _ ⟨rfl, rfl⟩
  exact hf

/-- One run of a program whose result is known. -/
theorem run {m : Program σ ε α} {s : σ} (hm : Yields view m (view s) a h') :
    ∃ t, m s = (.ok a, t) ∧ view t = h' := by
  obtain ⟨b, t, hrun, hb, ht⟩ := Completes.run (hm s rfl)
  exact ⟨t, by rw [hrun, hb], ht⟩

end Yields

end Program

end Durable
