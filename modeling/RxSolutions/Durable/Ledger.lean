import Mathlib.Data.List.Nodup
import Mathlib.Data.Set.Insert

/-!
# A ledger of operations that are sent at most once

An operation is prepared, then sent under a permit that is spent by it, and settled
when its outcome is known. Sending is recorded before the outside world is entered, so
a sender may die in between: `Step.send` records without entering and `Step.enter`
does both. An operation may be barred as long as it was not sent, whether or not it is
known already.

The ledger says nothing about how it is stored: a store refines it if each of its
commits is a step, or leaves the ledger alone.
-/

namespace Durable

/-- What has become of an operation. -/
inductive Life
  | absent | prepared | sent | settled | voided
  deriving DecidableEq, Repr

/-- Operations `ι`, the permits `π` spent on them, and the entries made so far. -/
@[ext]
structure Ledger (ι π : Type*) where
  life : ι → Life
  barred : Set ι
  spent : Set π
  entered : List (ι × π)

namespace Ledger

variable {ι π : Type*} [DecidableEq ι] {l l' : Ledger ι π} {i : ι} {p : π}

/-- The ledger with another life of one operation. -/
def set (l : Ledger ι π) (i : ι) (s : Life) : Ledger ι π :=
  { l with life := Function.update l.life i s }

/-- One record in the ledger. -/
inductive Step : Ledger ι π → Ledger ι π → Prop
  | prepare {l : Ledger ι π} {i : ι} (absent : l.life i = .absent) (free : i ∉ l.barred) :
      Step l (l.set i .prepared)
  | send {l : Ledger ι π} {i : ι} {p : π} (prepared : l.life i = .prepared)
      (unspent : p ∉ l.spent) : Step l { l.set i .sent with spent := insert p l.spent }
  | enter {l : Ledger ι π} {i : ι} {p : π} (prepared : l.life i = .prepared)
      (unspent : p ∉ l.spent) :
      Step l { l.set i .sent with
        spent := insert p l.spent
        entered := l.entered ++ [(i, p)] }
  | settle {l : Ledger ι π} {i : ι} (sent : l.life i = .sent) : Step l (l.set i .settled)
  | bar {l : Ledger ι π} {i : ι} (absent : l.life i = .absent) :
      Step l { l with barred := insert i l.barred }
  | void {l : Ledger ι π} {i : ι} (prepared : l.life i = .prepared) :
      Step l { l.set i .voided with barred := insert i l.barred }

/-- No operation and no permit was entered twice; what was entered is past preparation and
its permit is spent; what is barred was never sent. -/
structure Sound (l : Ledger ι π) : Prop where
  operations : (l.entered.map Prod.fst).Nodup
  permits : (l.entered.map Prod.snd).Nodup
  live : ∀ e ∈ l.entered, l.life e.1 = .sent ∨ l.life e.1 = .settled
  spent : ∀ e ∈ l.entered, e.2 ∈ l.spent
  barred : ∀ i ∈ l.barred, l.life i = .absent ∨ l.life i = .voided

omit [DecidableEq ι] in
theorem Sound.not_mem_entered (h : l.Sound) (hi : i ∈ l.barred) : i ∉ l.entered.map Prod.fst := by
  intro hmem
  obtain ⟨e, he, rfl⟩ := List.mem_map.mp hmem
  rcases h.barred _ hi with hlife | hlife <;> rcases h.live e he with hsent | hsettled <;>
    simp_all

omit [DecidableEq ι] in
/-- An operation that is prepared was not entered. -/
theorem Sound.ne_of_prepared (h : l.Sound) (hi : l.life i = .prepared) {e : ι × π}
    (he : e ∈ l.entered) : e.1 ≠ i := by
  rintro rfl
  rcases h.live e he with hlife | hlife <;> rw [hi] at hlife <;> cases hlife

theorem life_set_self (s : Life) : (l.set i s).life i = s := Function.update_self ..

theorem life_set_of_ne {j : ι} (hj : j ≠ i) (s : Life) : (l.set i s).life j = l.life j :=
  Function.update_of_ne hj ..

theorem set_eq_self {s : Life} (h : l.life i = s) : l.set i s = l := by
  rw [set, ← h, Function.update_eq_self]

/-- A change of the life of an operation that is neither entered nor barred keeps the
invariant. -/
theorem Sound.set (h : l.Sound) {s : Life} (hentered : ∀ e ∈ l.entered, e.1 ≠ i)
    (hfree : i ∉ l.barred) : (l.set i s).Sound where
  operations := h.operations
  permits := h.permits
  live e he := by
    rw [life_set_of_ne (hentered e he)]
    exact h.live e he
  spent := h.spent
  barred j hj := by
    rw [life_set_of_ne (by rintro rfl; exact hfree hj)]
    exact h.barred j hj

omit [DecidableEq ι] in
theorem Sound.not_barred_of_prepared (h : l.Sound) (hi : l.life i = .prepared) : i ∉ l.barred := by
  intro hmem
  rcases h.barred i hmem with hlife | hlife <;> rw [hi] at hlife <;> cases hlife

/-- Every step keeps the invariant. -/
theorem Sound.step (h : l.Sound) (hstep : Step l l') : l'.Sound := by
  cases hstep with
  | @prepare i absent free =>
    refine h.set (fun e he => ?_) free
    rintro rfl
    rcases h.live e he with hlife | hlife <;> rw [absent] at hlife <;> cases hlife
  | send prepared unspent =>
    have hset := h.set (s := .sent) (fun e => h.ne_of_prepared prepared)
      (h.not_barred_of_prepared prepared)
    exact { hset with spent := fun e he => .inr (h.spent e he) }
  | @enter i p prepared unspent =>
    have hne : ∀ e ∈ l.entered, e.1 ≠ i := fun e => h.ne_of_prepared prepared
    have hset := h.set (s := .sent) hne (h.not_barred_of_prepared prepared)
    refine { hset with operations := ?_, permits := ?_, live := ?_, spent := ?_ }
    · rw [List.map_append, List.map_singleton, List.nodup_append]
      refine ⟨h.operations, List.nodup_singleton _, ?_⟩
      intro a ha b hb
      obtain ⟨e, he, rfl⟩ := List.mem_map.mp ha
      exact List.mem_singleton.mp hb ▸ hne e he
    · rw [List.map_append, List.map_singleton, List.nodup_append]
      refine ⟨h.permits, List.nodup_singleton _, ?_⟩
      rintro a ha b hb rfl
      obtain ⟨e, he, rfl⟩ := List.mem_map.mp ha
      have hspent := h.spent e he
      rw [List.mem_singleton.mp hb] at hspent
      exact unspent hspent
    · intro e he
      rcases List.mem_append.mp he with he | he
      · exact hset.live e he
      · obtain rfl := List.mem_singleton.mp he
        exact .inl (life_set_self _)
    · intro e he
      rcases List.mem_append.mp he with he | he
      · exact .inr (h.spent e he)
      · obtain rfl := List.mem_singleton.mp he
        exact .inl rfl
  | @settle i sent =>
    refine { h with live := fun e he => ?_, barred := fun j hj => ?_ }
    · by_cases hi : e.1 = i
      · exact .inr (hi ▸ life_set_self _)
      · rw [life_set_of_ne hi]
        exact h.live e he
    · have hne : j ≠ i := by
        rintro rfl
        rcases h.barred j hj with hlife | hlife <;> rw [sent] at hlife <;> cases hlife
      rw [life_set_of_ne hne]
      exact h.barred j hj
  | bar absent =>
    refine { h with barred := ?_ }
    rintro j (rfl | hj)
    · exact .inl absent
    · exact h.barred j hj
  | @void i prepared =>
    have hset := h.set (s := .voided) (fun e => h.ne_of_prepared prepared)
      (h.not_barred_of_prepared prepared)
    refine { hset with barred := ?_ }
    rintro j (rfl | hj)
    · exact .inr (life_set_self _)
    · exact hset.barred j hj

end Ledger

end Durable
