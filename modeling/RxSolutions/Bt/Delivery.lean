import RxSolutions.Bt.Context
import RxSolutions.Durable.Runs

/-!
# Deliveries of the execution context

Publishing, ticking, pausing and taking requests interleave freely. A request is queued
once, delivered at most once, and only while the context is not halted; the request to
pause is in front from the moment the context halts until it is delivered.
-/

namespace RxSolutions.Bt

open Domain Durable Executor

/-- The calls on a context. A tick is a `beginTick` followed by what its nodes do; nodes ask
for every kind of request but the pause. -/
inductive ContextCall
  | publish (frame : Frame) (now : Reading)
  | beginTick
  | suppressNewForTick
  | enqueue (node : Name) (kind : { kind : RequestKind // kind ≠ .pauseExecutor }) (now : Reading)
  | pause (node : Name)
  | takeRequests (limit : ℕ) (clock : ℕ → Reading)

/-- A context and what it delivered so far. -/
structure Service where
  context : Context
  delivered : List Request

namespace Service

/-- A context that has seen no frame. -/
def new (identity : Identity) (root : Name) (definitions : SortedMap Name Definition) : Service :=
  { context := .initial identity root definitions, delivered := [] }

/-- One call. A call that throws leaves the context as the method does. -/
def step (s : Service) : ContextCall → Service
  | .publish frame now => { s with context := (s.context.publish frame now).2 }
  | .beginTick => { s with context := s.context.beginTick }
  | .suppressNewForTick => { s with context := s.context.suppressNewForTick }
  | .enqueue node kind now =>
    match s.context.enqueue node kind now with
    | .ok (_, context) => { s with context }
    | .error _ => s
  | .pause node =>
    match s.context.pause node with
    | .ok context => { s with context }
    | .error _ => s
  | .takeRequests limit clock =>
    match s.context.takeRequests limit clock with
    | .ok (result, context) => { context, delivered := s.delivered ++ result }
    | .error _ => s

/-- The context after a list of calls. -/
def run (s : Service) (calls : List ContextCall) : Service := Runs.after step s calls

end Service

/-! ## What each method does -/

namespace Context

variable {c c' : Context} {node : Name} {kind : RequestKind} {now : Reading}

/-- The request a node makes. -/
def nodeRequest (c : Context) (node : Name) (kind : RequestKind) (d : Definition) : Request :=
  ⟨c.identity, node, kind, d.argument, d.timeoutNs⟩

/-- A request is queued only under a new key, by a context that is not halted. -/
theorem enqueue_cases {answer : Bool} (h : c.enqueue node kind now = .ok (answer, c')) :
    c' = c ∨ ∃ d, c.halted = false ∧ (node, kind) ∉ c.requested ∧ c.queue.length < 32 ∧
      c' = { c with
        queue := c.queue ++ [c.nodeRequest node kind d]
        requested := insert (node, kind) c.requested } := by
  unfold enqueue at h
  cases hd : c.definition node with
  | error e => rw [hd] at h; cases h
  | ok d =>
    rw [hd] at h
    simp only [bind, Except.bind, pure, Except.pure] at h
    split at h
    · cases h; exact Or.inl rfl
    split at h
    · cases h; exact Or.inl rfl
    split at h
    · cases h; exact Or.inl rfl
    rename_i hlive
    split at h
    · cases h; exact Or.inl rfl
    rename_i hnew
    split at h
    · cases h; exact Or.inl rfl
    rename_i hroom
    cases h
    rw [not_or] at hlive
    exact Or.inr ⟨d, by simpa using hlive.1, hnew, not_le.mp hroom, rfl⟩

theorem pause_cases (h : c.pause node = .ok c') : c' = c.halt := by
  unfold pause at h
  cases hd : c.definition node with
  | error e => rw [hd] at h; cases h
  | ok d => rw [hd] at h; cases h; rfl

/-- The loop hands out some of the queue and keeps the rest. -/
theorem takeLoop_perm (c : Context) (limit : ℕ) (clock : ℕ → Reading) (n : ℕ)
    (queue result : List Request) :
    ((c.takeLoop limit clock n queue result).1 ++ (c.takeLoop limit clock n queue result).2).Perm
      (result ++ queue) := by
  induction n, queue, result using takeLoop.induct c limit clock with
  | case1 queue result => simp [takeLoop]
  | case2 n result => simp [takeLoop]
  | case3 n r queue result hfull => simp [takeLoop, hfull]
  | case4 n r queue result hroom hready ih => simpa [takeLoop, hroom, hready] using ih
  | case5 n r queue result hroom hready ih =>
    simp only [takeLoop, hroom, hready, if_false]
    apply ih.trans
    exact List.Perm.append_left _ (List.perm_append_singleton r queue)

variable {limit : ℕ} {clock : ℕ → Reading}

/-- What the loop hands out may be handed out. -/
theorem takeLoop_deliverable {n : ℕ} {queue result : List Request} {r : Request}
    (h : r ∈ (c.takeLoop limit clock n queue result).1) :
    r ∈ result ∨ ∃ now, c.Deliverable r now := by
  induction n, queue, result using takeLoop.induct c limit clock with
  | case1 queue result => exact Or.inl (by simpa [takeLoop] using h)
  | case2 n result => exact Or.inl (by simpa [takeLoop] using h)
  | case3 n r queue result hfull => exact Or.inl (by simpa [takeLoop, hfull] using h)
  | case4 n r' queue result hroom hready ih =>
    simp only [takeLoop, hroom, hready, if_true, if_false] at h
    obtain hold | hnew := ih h
    · obtain hold | hnew := List.mem_append.mp hold
      · exact Or.inl hold
      · rw [List.mem_singleton.mp hnew]
        exact Or.inr ⟨_, hready⟩
    · exact Or.inr hnew
  | case5 n r' queue result hroom hready ih =>
    simp only [takeLoop, hroom, hready, if_false] at h
    exact ih h

/-- The loop never takes back what it handed out. -/
theorem takeLoop_keeps {n : ℕ} {queue result : List Request} {r : Request} (h : r ∈ result) :
    r ∈ (c.takeLoop limit clock n queue result).1 := by
  induction n, queue, result using takeLoop.induct c limit clock with
  | case1 queue result => simpa [takeLoop] using h
  | case2 n result => simpa [takeLoop] using h
  | case3 n r' queue result hfull => simpa [takeLoop, hfull] using h
  | case4 n r' queue result hroom hready ih =>
    simp only [takeLoop, hroom, hready, if_true, if_false]
    exact ih (List.mem_append_left _ h)
  | case5 n r' queue result hroom hready ih =>
    simp only [takeLoop, hroom, hready, if_false]
    exact ih h

/-- A take with an accepted limit splits the queue; nothing normal leaves a halted context,
and a pause in front is always delivered. -/
theorem takeRequests_cases {result : List Request}
    (h : c.takeRequests limit clock = .ok (result, c')) :
    ∃ queue, c' = { c with queue } ∧ (result ++ queue).Perm c.queue ∧
      (c.halted = true → ∀ r ∈ result, ¬ r.Normal) ∧
      ∀ r rest, c.queue = r :: rest → ¬ r.Normal → r ∈ result := by
  unfold takeRequests refuse at h
  split at h
  · cases h
  rename_i hlimit
  cases h
  refine ⟨_, rfl, ?_, ?_, ?_⟩
  · simpa using takeLoop_perm c limit clock c.queue.length c.queue []
  · intro hhalted r hr
    obtain hr | ⟨now, hpause | ⟨hlive, -⟩⟩ := takeLoop_deliverable hr
    · cases hr
    · exact not_not.mpr hpause
    · rw [hhalted] at hlive; cases hlive
  · intro r rest hqueue hpause
    have hready : ∀ now, c.Deliverable r now := fun now => Or.inl (not_not.mp hpause)
    have hpositive : ¬ limit ≤ ([] : List Request).length := by
      simp only [List.length_nil]
      omega
    rw [hqueue, List.length_cons]
    simp only [takeLoop, if_neg hpositive, if_pos (hready _)]
    exact takeLoop_keeps (List.mem_append_right _ (List.mem_singleton.mpr rfl))

theorem takeRequests_ok (hpos : 1 ≤ limit) (hle : limit ≤ 32) (clock : ℕ → Reading) :
    ∃ result c', c.takeRequests limit clock = .ok (result, c') := by
  have hlimit : ¬ (limit = 0 ∨ 32 < limit) := by omega
  simp only [takeRequests, refuse, if_neg hlimit]
  exact ⟨_, _, rfl⟩

theorem publish_ok {frame : Frame} (h : (c.publish frame now).1 = .ok ()) :
    (c.publish frame now).2 = c.record frame := by
  unfold publish at h ⊢
  split
  · rfl
  · rename_i hvalidate
    rw [hvalidate] at h
    cases h

theorem publish_error {frame : Frame} (h : (c.publish frame now).1 ≠ .ok ()) :
    (c.publish frame now).2 = c.reject := by
  unfold publish at h ⊢
  split
  · rename_i hvalidate
    rw [hvalidate] at h
    exact absurd rfl h
  · rfl

@[simp] theorem halt_halted (c : Context) : c.halt.halted = true := by
  unfold halt
  split <;> rfl

@[simp] theorem halt_pauseRequest (c : Context) : c.halt.pauseRequest = c.pauseRequest := by
  unfold halt
  split <;> rfl

end Context

namespace Service

variable {s s' : Service} {call : ContextCall}

/-- Everything a call can do to the queue, the requested keys, the halt flag and the
deliveries. -/
inductive Effect (s : Service) (call : ContextCall) (s' : Service) : Prop
  | quiet (hqueue : s'.context.queue = s.context.queue)
      (hrequested : s'.context.requested = s.context.requested)
      (hhalted : s'.context.halted = s.context.halted) (hdelivered : s'.delivered = s.delivered)
  | resolved (frame : Frame) (now : Reading) (hcall : call = .publish frame now)
      (hok : (s.context.publish frame now).1 = .ok ()) (hcomplete : frame.complete = true)
      (hqueue : s'.context.queue = s.context.queue.filter (¬ frame.Resolves ·))
      (hrequested : s'.context.requested = s.context.requested)
      (hhalted : s'.context.halted = s.context.halted) (hdelivered : s'.delivered = s.delivered)
  | queued (r : Request) (hnormal : r.Normal) (hlive : s.context.halted = false)
      (hnew : r.key ∉ s.context.requested) (hroom : s.context.queue.length < 32)
      (hqueue : s'.context.queue = s.context.queue ++ [r])
      (hrequested : s'.context.requested = insert r.key s.context.requested)
      (hhalted : s'.context.halted = false) (hdelivered : s'.delivered = s.delivered)
  | halts (hcontext : s'.context.queue = s.context.halt.queue)
      (hrequested : s'.context.requested = s.context.halt.requested)
      (hhalted : s'.context.halted = true) (hdelivered : s'.delivered = s.delivered)
  | taken (result : List Request)
      (hperm : (result ++ s'.context.queue).Perm s.context.queue)
      (hsilent : s.context.halted = true → ∀ r ∈ result, ¬ r.Normal)
      (hfront : ∀ r rest, s.context.queue = r :: rest → ¬ r.Normal → r ∈ result)
      (hrequested : s'.context.requested = s.context.requested)
      (hhalted : s'.context.halted = s.context.halted)
      (hdelivered : s'.delivered = s.delivered ++ result)

/-- The calls after which the context is halted: a rejected frame and a pause. -/
def Halts (s : Service) : ContextCall → Prop
  | .publish frame now => (s.context.publish frame now).1 ≠ .ok ()
  | .pause node => ∃ context, s.context.pause node = .ok context
  | _ => False

theorem effect_of_halts (hcall : s.Halts call) :
    s.Effect call (s.step call) ∧ (s.step call).context.halted = true ∧
      (s.step call).context.pauseRequest = s.context.pauseRequest := by
  cases call with
  | publish frame now =>
    have hreject := Context.publish_error hcall
    have hhalted : (s.step (.publish frame now)).context.halted = true := by
      simp only [step, hreject, Context.reject, Context.halt_halted]
    refine ⟨.halts ?_ ?_ hhalted rfl, hhalted, ?_⟩
    · simp only [step, hreject, Context.reject, Context.halt, Context.pauseRequest]
      split <;> rfl
    · simp only [step, hreject, Context.reject, Context.halt]
      split <;> rfl
    · simp only [step, hreject, Context.reject, Context.halt_pauseRequest]
      rfl
  | pause node =>
    obtain ⟨context, hpause⟩ := hcall
    obtain rfl := Context.pause_cases hpause
    simp only [step, hpause]
    exact ⟨.halts rfl rfl (Context.halt_halted _) rfl, Context.halt_halted _,
      Context.halt_pauseRequest _⟩
  | beginTick | suppressNewForTick | enqueue _ _ _ | takeRequests _ _ => cases hcall

theorem effect_step (s : Service) (call : ContextCall) :
    s.Effect call (s.step call) ∧
      (s.step call).context.pauseRequest = s.context.pauseRequest := by
  by_cases hhalts : s.Halts call
  · obtain ⟨heffect, -, hsame⟩ := effect_of_halts hhalts
    exact ⟨heffect, hsame⟩
  cases call with
  | publish frame now =>
    have hok : (s.context.publish frame now).1 = .ok () := not_not.mp hhalts
    have hrecord := Context.publish_ok hok
    simp only [step, hrecord]
    refine ⟨?_, rfl⟩
    by_cases hcomplete : frame.complete = true
    · exact .resolved frame now rfl hok hcomplete (by simp [Context.record, hcomplete]) rfl rfl rfl
    · exact .quiet (by simp [Context.record, hcomplete]) rfl rfl rfl
  | beginTick => exact ⟨.quiet rfl rfl rfl rfl, rfl⟩
  | suppressNewForTick => exact ⟨.quiet rfl rfl rfl rfl, rfl⟩
  | enqueue node kind now =>
    simp only [step]
    split
    · rename_i answer context henqueue
      obtain rfl | ⟨d, hlive, hnew, hroom, rfl⟩ := Context.enqueue_cases henqueue
      · exact ⟨.quiet rfl rfl rfl rfl, rfl⟩
      · exact ⟨.queued
          (s.context.nodeRequest node kind d) kind.2 hlive hnew hroom rfl rfl hlive rfl,
          rfl⟩
    · exact ⟨.quiet rfl rfl rfl rfl, rfl⟩
  | pause node =>
    simp only [step]
    split
    · rename_i context hpause
      exact absurd ⟨context, hpause⟩ hhalts
    · exact ⟨.quiet rfl rfl rfl rfl, rfl⟩
  | takeRequests limit clock =>
    simp only [step]
    split
    · rename_i result context htake
      obtain ⟨queue, rfl, hperm, hsilent, hfront⟩ := Context.takeRequests_cases htake
      exact ⟨.taken result hperm hsilent hfront rfl rfl rfl, rfl⟩
    · exact ⟨.quiet rfl rfl rfl rfl, rfl⟩

/-! ## The invariant -/

/-- Queued and delivered requests have distinct keys, all of them recorded as requested; the
pause is requested exactly by a halted context, and stays in front until it is delivered. -/
structure Valid (s : Service) : Prop where
  keys : ((s.context.queue ++ s.delivered).map Request.key).Nodup
  requested : ∀ r ∈ s.context.queue ++ s.delivered, r.key ∈ s.context.requested
  bounded : (s.context.queue.filter (·.Normal)).length ≤ 32
  pauses : ∀ r ∈ s.context.queue ++ s.delivered, ¬ r.Normal → r = s.context.pauseRequest
  live : s.context.halted = false → s.context.pauseRequest.key ∉ s.context.requested
  front : s.context.halted = true → s.context.pauseRequest ∈ s.delivered ∨
    ∃ rest, s.context.queue = s.context.pauseRequest :: rest

theorem valid_new (identity : Identity) (root : Name) (definitions : SortedMap Name Definition) :
    (new identity root definitions).Valid where
  keys := List.nodup_nil
  requested _ hr := by cases hr
  bounded := Nat.zero_le _
  pauses _ hr := by cases hr
  live _ := by simp [new, Context.initial]
  front h := by cases h

theorem pauseRequest_not_normal (c : Context) : ¬ c.pauseRequest.Normal := not_not.mpr rfl

theorem not_resolves_pause (frame : Frame) (c : Context) : ¬ frame.Resolves c.pauseRequest := by
  rintro ⟨value, -, h⟩
  cases h

/-- Queue and deliveries only lose requests. -/
theorem Valid.of_sublist (hs : s.Valid)
    (hsub : List.Sublist (s'.context.queue ++ s'.delivered) (s.context.queue ++ s.delivered))
    (hqueue : List.Sublist s'.context.queue s.context.queue)
    (hrequested : s'.context.requested = s.context.requested)
    (hsame : s'.context.pauseRequest = s.context.pauseRequest)
    (hhalted : s'.context.halted = s.context.halted)
    (hfront : s'.context.halted = true → s'.context.pauseRequest ∈ s'.delivered ∨
      ∃ rest, s'.context.queue = s'.context.pauseRequest :: rest) : s'.Valid where
  keys := hs.keys.sublist (hsub.map _)
  requested r hr := by rw [hrequested]; exact hs.requested r (hsub.subset hr)
  bounded := (hqueue.filter _).length_le.trans hs.bounded
  pauses r hr hpause := by rw [hsame]; exact hs.pauses r (hsub.subset hr) hpause
  live hlive := by rw [hrequested, hsame]; exact hs.live (hhalted ▸ hlive)
  front := hfront

theorem Valid.queued (hs : s.Valid) {r : Request} (hnormal : r.Normal)
    (hlive : s.context.halted = false) (hnew : r.key ∉ s.context.requested)
    (hroom : s.context.queue.length < 32) (hqueue : s'.context.queue = s.context.queue ++ [r])
    (hrequested : s'.context.requested = insert r.key s.context.requested)
    (hhalted : s'.context.halted = false) (hdelivered : s'.delivered = s.delivered)
    (hsame : s'.context.pauseRequest = s.context.pauseRequest) : s'.Valid := by
  have hperm : (s'.context.queue ++ s'.delivered).Perm (r :: (s.context.queue ++ s.delivered)) := by
    rw [hqueue, hdelivered, List.append_assoc]
    exact List.perm_middle
  constructor
  · refine (hperm.map Request.key).nodup_iff.mpr (List.nodup_cons.mpr ⟨?_, hs.keys⟩)
    intro hmem
    obtain ⟨r', hr', hkey⟩ := List.mem_map.mp hmem
    exact hnew (hkey ▸ hs.requested r' hr')
  · intro r' hr'
    rw [hrequested, Finset.mem_insert]
    obtain rfl | hr' := List.mem_cons.mp (hperm.mem_iff.mp hr')
    · exact Or.inl rfl
    · exact Or.inr (hs.requested r' hr')
  · have hle := List.length_filter_le (·.Normal) s'.context.queue
    rw [hqueue, List.length_append, List.length_singleton] at hle
    rw [hqueue]
    omega
  · intro r' hr' hpause
    obtain rfl | hr' := List.mem_cons.mp (hperm.mem_iff.mp hr')
    · exact absurd hnormal hpause
    · rw [hsame]; exact hs.pauses r' hr' hpause
  · intro _ hmem
    rw [hrequested, hsame, Finset.mem_insert] at hmem
    obtain hkey | hmem := hmem
    · exact hnormal (congrArg Prod.snd hkey).symm
    · exact hs.live hlive hmem
  · intro h
    rw [hhalted] at h
    cases h

theorem Valid.halts (hs : s.Valid) (hqueue : s'.context.queue = s.context.halt.queue)
    (hrequested : s'.context.requested = s.context.halt.requested)
    (hhalted : s'.context.halted = true) (hdelivered : s'.delivered = s.delivered)
    (hsame : s'.context.pauseRequest = s.context.pauseRequest) : s'.Valid := by
  unfold Context.halt at hqueue hrequested
  by_cases hmem : (s.context.root, RequestKind.pauseExecutor) ∈ s.context.requested
  · -- the pause was requested before, so the context was halted before
    rw [if_pos hmem] at hqueue hrequested
    have hwas : s.context.halted = true := by
      by_contra hnot
      exact hs.live (Bool.eq_false_iff.mpr hnot) hmem
    refine hs.of_sublist ?_ ?_ hrequested hsame (hhalted.trans hwas.symm) fun _ => ?_
    · rw [hqueue, hdelivered]
    · rw [hqueue]
    · rw [hqueue, hdelivered, hsame]; exact hs.front hwas
  · rw [if_neg hmem] at hqueue hrequested
    have happend : s'.context.queue ++ s'.delivered =
        s.context.pauseRequest :: (s.context.queue ++ s.delivered) := by
      rw [hqueue, hdelivered]
      rfl
    constructor
    · rw [happend]
      refine List.nodup_cons.mpr ⟨fun hin => ?_, hs.keys⟩
      obtain ⟨r, hr, hkey⟩ := List.mem_map.mp hin
      have hkey : r.key = (s.context.root, .pauseExecutor) := hkey
      exact hmem (hkey ▸ hs.requested r hr)
    · intro r hr
      rw [happend] at hr
      rw [hrequested]
      obtain rfl | hr := List.mem_cons.mp hr
      · exact Finset.mem_insert_self _ _
      · exact Finset.mem_insert_of_mem (hs.requested r hr)
    · rw [hqueue, List.filter_cons_of_neg (by simpa using pauseRequest_not_normal s.context)]
      exact hs.bounded
    · intro r hr hpause
      rw [happend] at hr
      rw [hsame]
      obtain rfl | hr := List.mem_cons.mp hr
      · rfl
      · exact hs.pauses r hr hpause
    · intro h
      rw [hhalted] at h
      cases h
    · intro _
      rw [hqueue, hsame]
      exact Or.inr ⟨_, rfl⟩

theorem Valid.taken (hs : s.Valid) {result : List Request}
    (hperm : (result ++ s'.context.queue).Perm s.context.queue)
    (hfront : ∀ r rest, s.context.queue = r :: rest → ¬ r.Normal → r ∈ result)
    (hrequested : s'.context.requested = s.context.requested)
    (hhalted : s'.context.halted = s.context.halted)
    (hdelivered : s'.delivered = s.delivered ++ result)
    (hsame : s'.context.pauseRequest = s.context.pauseRequest) : s'.Valid := by
  have hall : (s'.context.queue ++ s'.delivered).Perm (s.context.queue ++ s.delivered) := by
    rw [hdelivered]
    have hswap : (s'.context.queue ++ (s.delivered ++ result)).Perm
        ((result ++ s'.context.queue) ++ s.delivered) := by
      rw [← List.append_assoc]
      apply List.perm_append_comm.trans
      rw [List.append_assoc]
    exact hswap.trans (hperm.append_right _)
  constructor
  · exact (hall.map Request.key).nodup_iff.mpr hs.keys
  · intro r hr
    rw [hrequested]
    exact hs.requested r (hall.mem_iff.mp hr)
  · have hle := (hperm.filter (·.Normal)).length_eq
    have hbound := hs.bounded
    rw [List.filter_append, List.length_append] at hle
    omega
  · intro r hr hpause
    rw [hsame]
    exact hs.pauses r (hall.mem_iff.mp hr) hpause
  · intro hlive
    rw [hrequested, hsame]
    exact hs.live (hhalted ▸ hlive)
  · intro hh
    rw [hdelivered, hsame]
    left
    obtain hdone | ⟨rest, hqueue⟩ := hs.front (hhalted ▸ hh)
    · exact List.mem_append_left _ hdone
    · exact List.mem_append_right _ (hfront _ rest hqueue (pauseRequest_not_normal _))

theorem Valid.step (hs : s.Valid) (call : ContextCall) : (s.step call).Valid := by
  obtain ⟨heffect, hsame⟩ := effect_step s call
  cases heffect with
  | quiet hqueue hrequested hhalted hdelivered =>
    refine hs.of_sublist ?_ ?_ hrequested hsame hhalted fun hh => ?_
    · rw [hqueue, hdelivered]
    · rw [hqueue]
    · rw [hqueue, hdelivered, hsame]; exact hs.front (hhalted ▸ hh)
  | resolved frame now _ _ _ hqueue hrequested hhalted hdelivered =>
    refine hs.of_sublist ?_ ?_ hrequested hsame hhalted fun hh => ?_
    · rw [hqueue, hdelivered]
      exact List.filter_sublist.append (List.Sublist.refl _)
    · rw [hqueue]
      exact List.filter_sublist
    · rw [hqueue, hdelivered, hsame]
      -- a frame never resolves the pause, so it stays in front
      obtain hdone | ⟨rest, hrest⟩ := hs.front (hhalted ▸ hh)
      · exact Or.inl hdone
      · rw [hrest, List.filter_cons_of_pos (by simpa using not_resolves_pause frame s.context)]
        exact Or.inr ⟨_, rfl⟩
  | queued r hnormal hlive hnew hroom hqueue hrequested hhalted hdelivered =>
    exact hs.queued hnormal hlive hnew hroom hqueue hrequested hhalted hdelivered hsame
  | halts hqueue hrequested hhalted hdelivered =>
    exact hs.halts hqueue hrequested hhalted hdelivered hsame
  | taken result hperm _ hfront hrequested hhalted hdelivered =>
    exact hs.taken hperm hfront hrequested hhalted hdelivered hsame

theorem Valid.run (hs : s.Valid) (calls : List ContextCall) : (s.run calls).Valid :=
  Runs.invariant (P := Valid) (fun _ call h => h.step call) hs calls

/-! ## The contract -/

/-- A halted context stays halted, and queues and delivers nothing normal any more. -/
structure Silent (s s' : Service) : Prop where
  halted : s'.context.halted = true
  queued : ∀ r ∈ s'.context.queue, r.Normal → r ∈ s.context.queue
  delivered : ∃ more, s'.delivered = s.delivered ++ more ∧ ∀ r ∈ more, ¬ r.Normal

theorem silent_refl (h : s.context.halted = true) : s.Silent s :=
  ⟨h, fun _ hr _ => hr, [], by simp, by simp⟩

theorem Silent.trans {s'' : Service} (h : s.Silent s') (h' : s'.Silent s'') : s.Silent s'' := by
  refine ⟨h'.halted, fun r hr hnormal => h.queued r (h'.queued r hr hnormal) hnormal, ?_⟩
  obtain ⟨more, heq, hmore⟩ := h.delivered
  obtain ⟨more', heq', hmore'⟩ := h'.delivered
  refine ⟨more ++ more', by rw [heq', heq, List.append_assoc], fun r hr => ?_⟩
  obtain hr | hr := List.mem_append.mp hr
  · exact hmore r hr
  · exact hmore' r hr

theorem silent_step (h : s.context.halted = true) (call : ContextCall) :
    s.Silent (s.step call) := by
  obtain ⟨heffect, -⟩ := effect_step s call
  cases heffect with
  | quiet hqueue _ hhalted hdelivered =>
    refine ⟨hhalted.trans h, fun r hr _ => hqueue ▸ hr, [], by simp [hdelivered], by simp⟩
  | resolved frame now _ _ _ hqueue _ hhalted hdelivered =>
    refine ⟨hhalted.trans h, fun r hr _ => ?_, [], by simp [hdelivered], by simp⟩
    rw [hqueue] at hr
    exact List.mem_of_mem_filter hr
  | queued r _ hlive =>
    rw [h] at hlive
    cases hlive
  | halts hqueue _ hhalted hdelivered =>
    refine ⟨hhalted, fun r hr hnormal => ?_, [], by simp [hdelivered], by simp⟩
    rw [hqueue, Context.halt] at hr
    split at hr
    · exact hr
    · obtain rfl | hr := List.mem_cons.mp hr
      · exact absurd hnormal (pauseRequest_not_normal _)
      · exact hr
  | taken result hperm hsilent _ _ hhalted hdelivered =>
    refine ⟨hhalted.trans h, fun r hr _ => ?_, result, hdelivered, hsilent h⟩
    exact hperm.subset (List.mem_append_right _ hr)

theorem silent_run (h : s.context.halted = true) (calls : List ContextCall) :
    s.Silent (s.run calls) := by
  induction calls using List.reverseRecOn with
  | nil => exact silent_refl h
  | append_singleton calls call ih =>
    rw [run, Runs.after_concat]
    exact ih.trans (silent_step ih.halted call)

/-- A take whose limit is accepted. -/
def Takes : ContextCall → Prop
  | .takeRequests limit _ => 1 ≤ limit ∧ limit ≤ 32
  | _ => False

/-- Without a take nothing is delivered. -/
theorem delivered_step (hcall : ¬ Takes call) : (s.step call).delivered = s.delivered := by
  cases call with
  | takeRequests limit clock =>
    have hlimit : limit = 0 ∨ 32 < limit := by
      simp only [Takes] at hcall
      omega
    simp only [step, Context.takeRequests, refuse, if_pos hlimit]
    rfl
  | enqueue node kind now | pause node => simp only [step]; split <;> rfl
  | publish _ _ | beginTick | suppressNewForTick => rfl

theorem delivered_run {calls : List ContextCall} (hcalls : ∀ call ∈ calls, ¬ Takes call) :
    (s.run calls).delivered = s.delivered := by
  induction calls using List.reverseRecOn with
  | nil => rfl
  | append_singleton calls call ih =>
    rw [run, Runs.after_concat, delivered_step (hcalls call (by simp))]
    exact ih fun call hmem => hcalls call (by simp [hmem])

theorem pauseRequest_run (s : Service) (calls : List ContextCall) :
    (s.run calls).context.pauseRequest = s.context.pauseRequest := by
  induction calls using List.reverseRecOn with
  | nil => rfl
  | append_singleton calls call ih =>
    rw [run, Runs.after_concat, (effect_step _ call).2]
    exact ih

/-- The first take after the context halted delivers the pause. -/
theorem Valid.first_take (hs : s.Valid) (hlive : s.context.halted = false)
    {halting take : ContextCall} (hhalting : s.Halts halting) {calls : List ContextCall}
    (hcalls : ∀ call ∈ calls, ¬ Takes call) (htake : Takes take) :
    s.context.pauseRequest ∈ (s.run (halting :: calls ++ [take])).delivered := by
  obtain ⟨-, hhalted, -⟩ := effect_of_halts hhalting
  have hbefore : (s.run (halting :: calls)).Valid := hs.run _
  have hsame := pauseRequest_run s (halting :: calls)
  have hnone : s.context.pauseRequest ∉ s.delivered := fun hmem =>
    hs.live hlive (hs.requested _ (List.mem_append_right _ hmem))
  have hdelivered : (s.run (halting :: calls)).delivered = s.delivered := by
    refine (delivered_run hcalls).trans (delivered_step ?_)
    cases halting <;> simp_all [Halts, Takes]
  have hstill : (s.run (halting :: calls)).context.halted = true :=
    (silent_run hhalted calls).halted
  obtain ⟨rest, hqueue⟩ : ∃ rest, (s.run (halting :: calls)).context.queue =
      s.context.pauseRequest :: rest := by
    obtain hmem | hfront := hbefore.front hstill
    · rw [hsame, hdelivered] at hmem
      exact absurd hmem hnone
    · rw [hsame] at hfront
      exact hfront
  rw [Service.run, Runs.after_concat]
  cases take with
  | takeRequests limit clock =>
    obtain ⟨result, context, heq⟩ :=
      Context.takeRequests_ok (c := (s.run (halting :: calls)).context) htake.1 htake.2 clock
    obtain ⟨queue, -, -, -, hfront⟩ := Context.takeRequests_cases heq
    have hgiven := hfront _ rest hqueue (pauseRequest_not_normal _)
    simp only [Service.run] at heq
    simp only [Service.step, heq]
    exact List.mem_append_right _ hgiven
  | publish _ _ | beginTick | suppressNewForTick | enqueue _ _ _ | pause _ => cases htake

/-- The contract of deliveries at one moment of a run. -/
structure Served (s : Service) : Prop where
  once : (s.delivered.map Request.key).Nodup
  normals : (s.context.queue.filter (·.Normal)).length ≤ 32
  onePause : (s.context.queue.filter (¬ ·.Normal)).length ≤ 1
  leaves : ∀ call, ∀ r ∈ s.context.queue, r.Normal → r ∉ (s.step call).context.queue →
    r ∈ (s.step call).delivered ∨
    ∃ frame now, call = .publish frame now ∧ (s.context.publish frame now).1 = .ok () ∧
      frame.complete = true ∧ frame.Resolves r
  halts : ∀ call, s.Halts call → (s.step call).context.halted = true
  silent : s.context.halted = true → ∀ calls, s.Silent (s.run calls)
  pausedOnce : (s.delivered.filter (¬ ·.Normal)).length ≤ 1
  firstTake : s.context.halted = false → ∀ halting calls take, s.Halts halting →
    (∀ call ∈ calls, ¬ Takes call) → Takes take →
    s.context.pauseRequest ∈ (s.run (halting :: calls ++ [take])).delivered
  rejected : ∀ frame now, (s.context.publish frame now).1 ≠ .ok () →
    (s.context.publish frame now).2.operations = s.context.operations ∧
    (s.context.publish frame now).2.outcomes = s.context.outcomes ∧
    (s.context.publish frame now).2.decisions = s.context.decisions ∧
    (s.context.publish frame now).2.waits = s.context.waits

/-- Requests with distinct keys that are all the same request are one at most. -/
theorem length_pauses_le {requests : List Request} {pause : Request}
    (hkeys : (requests.map Request.key).Nodup)
    (hpauses : ∀ r ∈ requests, ¬ r.Normal → r = pause) :
    (requests.filter (¬ ·.Normal)).length ≤ 1 := by
  have hnodup : (requests.filter (¬ ·.Normal)).Nodup := (List.Nodup.of_map _ hkeys).filter _
  rw [← List.toFinset_card_of_nodup hnodup]
  apply Finset.card_le_one.mpr
  intro a ha b hb
  simp only [List.mem_toFinset, List.mem_filter, decide_eq_true_eq] at ha hb
  rw [hpauses a ha.1 ha.2, hpauses b hb.1 hb.2]

/-- A request leaves the queue by delivery, or because an accepted complete frame resolves
it. -/
theorem leaves_step {r : Request} (hr : r ∈ s.context.queue)
    (hgone : r ∉ (s.step call).context.queue) :
    r ∈ (s.step call).delivered ∨
    ∃ frame now, call = .publish frame now ∧ (s.context.publish frame now).1 = .ok () ∧
      frame.complete = true ∧ frame.Resolves r := by
  obtain ⟨heffect, -⟩ := effect_step s call
  cases heffect with
  | quiet hqueue => exact absurd (hqueue ▸ hr) hgone
  | resolved frame now hcall hok hcomplete hqueue =>
    rw [hqueue, List.mem_filter] at hgone
    exact Or.inr ⟨frame, now, hcall, hok, hcomplete, by simpa [hr] using hgone⟩
  | queued r' _ _ _ _ hqueue =>
    rw [hqueue] at hgone
    exact absurd (List.mem_append_left _ hr) hgone
  | halts hqueue =>
    rw [hqueue, Context.halt] at hgone
    split at hgone
    · exact absurd hr hgone
    · exact absurd (List.mem_cons_of_mem _ hr) hgone
  | taken result hperm _ _ _ _ hdelivered =>
    obtain hgiven | hkept := List.mem_append.mp (hperm.mem_iff.mpr hr)
    · rw [hdelivered]
      exact Or.inl (List.mem_append_right _ hgiven)
    · exact absurd hkept hgone

theorem Valid.served (hs : s.Valid) : s.Served where
  once := hs.keys.sublist ((List.sublist_append_right _ _).map _)
  normals := hs.bounded
  onePause := by
    apply length_pauses_le (hs.keys.sublist ((List.sublist_append_left _ _).map _))
    exact fun r hr => hs.pauses r (List.mem_append_left _ hr)
  leaves call r hr _ hgone := leaves_step hr hgone
  halts call hcall := (effect_of_halts hcall).2.1
  silent hhalted calls := silent_run hhalted calls
  pausedOnce := by
    apply length_pauses_le (hs.keys.sublist ((List.sublist_append_right _ _).map _))
    exact fun r hr => hs.pauses r (List.mem_append_right _ hr)
  firstTake hlive halting calls take hhalting hcalls htake :=
    hs.first_take hlive hhalting hcalls htake
  rejected frame now hbad := by
    rw [Context.publish_error hbad]
    simp only [Context.reject, Context.halt]
    split <;> simp

end Service

/-- However publishing, ticking, pausing and taking interleave: every (node, kind) pair is
delivered once at most; the queue holds at most 32 normal requests and one pause; a normal
request leaves it only by delivery or because an accepted complete frame shows it resolved;
after a rejected frame or a pause nothing normal is queued or delivered, and the first take
delivers the one pause; a rejected frame leaves the recorded history as it was. -/
theorem context_delivers_once (identity : Identity) (root : Name)
    (definitions : SortedMap Name Definition) (calls : List ContextCall) :
    ((Service.new identity root definitions).run calls).Served :=
  ((Service.valid_new identity root definitions).run calls).served

end RxSolutions.Bt
