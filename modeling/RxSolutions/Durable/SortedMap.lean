import Mathlib.Data.List.Induction
import Mathlib.Data.List.Lookmap
import Mathlib.Data.List.Perm.Subperm
import Mathlib.Data.List.Sort

/-!
# Ordered maps

A map as the list of its entries in the order of their keys, which is the order a loop
over it sees. Each key has one entry, so a search and a loop agree.
-/

namespace Durable

universe u v

/-- Entries with strictly increasing keys. -/
structure SortedMap (κ : Type u) (α : Type v) [LinearOrder κ] where
  entries : List (κ × α)
  sorted : entries.Pairwise fun a b => a.1 < b.1
  deriving DecidableEq

namespace SortedMap

variable {κ : Type u} {α : Type v} {β : Type*} [LinearOrder κ] {m m' : SortedMap κ α} {k k' : κ}
  {v : α}

instance [DecidableEq α] : DecidableEq (SortedMap κ α) := fun m m' =>
  decidable_of_iff (m.entries = m'.entries) (by cases m; cases m'; simp)

/-- The map without entries. -/
def empty : SortedMap κ α := ⟨[], List.Pairwise.nil⟩

instance : Inhabited (SortedMap κ α) := ⟨empty⟩

/-- The value of a key. -/
def get? (m : SortedMap κ α) (k : κ) : Option α := m.entries.lookup k

@[simp] theorem get?_empty (k : κ) : (empty : SortedMap κ α).get? k = none := rfl

theorem lookup_cons (k k' : κ) (v : α) (l : List (κ × α)) :
    ((k', v) :: l).lookup k = if k = k' then some v else l.lookup k := by
  rw [List.lookup_cons]
  by_cases h : k = k'
  · simp [h]
  · simp [h, beq_eq_false_iff_ne.mpr h]

/-- The list with one entry put in its place. -/
def insertEntry (k : κ) (v : α) : List (κ × α) → List (κ × α)
  | [] => [(k, v)]
  | (k', v') :: l =>
    if k < k' then (k, v) :: (k', v') :: l
    else if k = k' then (k, v) :: l
    else (k', v') :: insertEntry k v l

variable {l : List (κ × α)}

theorem mem_insertEntry {e : κ × α} (h : e ∈ insertEntry k v l) :
    e = (k, v) ∨ e ∈ l := by
  induction l with
  | nil => exact Or.inl (List.mem_singleton.mp h)
  | cons e' l ih =>
    obtain ⟨k', v'⟩ := e'
    unfold insertEntry at h
    split at h
    · exact List.mem_cons.mp h
    split at h
    · exact (List.mem_cons.mp h).imp_right (List.mem_cons_of_mem _)
    · obtain heq | h := List.mem_cons.mp h
      · exact Or.inr (heq ▸ List.mem_cons_self)
      · exact (ih h).imp_right (List.mem_cons_of_mem _)

theorem sorted_insertEntry (h : l.Pairwise fun a b => a.1 < b.1) :
    (insertEntry k v l).Pairwise fun a b => a.1 < b.1 := by
  induction l with
  | nil => exact List.pairwise_singleton _ _
  | cons e l ih =>
    obtain ⟨k', v'⟩ := e
    obtain ⟨hfirst, hrest⟩ := List.pairwise_cons.mp h
    unfold insertEntry
    split
    · rename_i hlt
      apply List.Pairwise.cons _ h
      intro e he
      obtain rfl | he := List.mem_cons.mp he
      · exact hlt
      · exact hlt.trans (hfirst e he)
    split
    · rename_i heq
      exact List.Pairwise.cons (heq ▸ hfirst) hrest
    · rename_i hnlt hne
      apply List.Pairwise.cons _ (ih hrest)
      intro e he
      obtain rfl | he := mem_insertEntry he
      · exact lt_of_le_of_ne (not_lt.mp hnlt) (Ne.symm hne)
      · exact hfirst e he

theorem lookup_insertEntry (l : List (κ × α)) :
    (insertEntry k v l).lookup k' = if k' = k then some v else l.lookup k' := by
  induction l with
  | nil => exact lookup_cons k' k v []
  | cons e l ih =>
    obtain ⟨k'', v''⟩ := e
    unfold insertEntry
    split
    · exact lookup_cons k' k v _
    split
    · rename_i heq
      subst heq
      simp only [lookup_cons]
      split <;> rfl
    · rename_i hne
      simp only [lookup_cons, ih]
      -- the two keys differ, so at most one of the tests succeeds
      split
      · rename_i h
        rw [if_neg (h ▸ Ne.symm hne)]
      · rfl

/-- The map with one entry written. -/
def insert (m : SortedMap κ α) (k : κ) (v : α) : SortedMap κ α :=
  ⟨insertEntry k v m.entries, sorted_insertEntry m.sorted⟩

/-- What is found after an insertion. -/
theorem get?_insert (m : SortedMap κ α) (k k' : κ) (v : α) :
    (m.insert k v).get? k' = if k' = k then some v else m.get? k' :=
  lookup_insertEntry m.entries

/-- The entries are what is found. -/
theorem mem_entries : (k, v) ∈ m.entries ↔ m.get? k = some v := by
  obtain ⟨entries, hsorted⟩ := m
  simp only [get?]
  induction entries with
  | nil => simp
  | cons e l ih =>
    obtain ⟨k', v'⟩ := e
    obtain ⟨hfirst, hrest⟩ := List.pairwise_cons.mp hsorted
    have ih := ih hrest
    rw [List.mem_cons, lookup_cons]
    by_cases hk : k = k'
    · subst hk
      have hnot : (k, v) ∉ l := fun hmem => lt_irrefl k (hfirst (k, v) hmem)
      simp [hnot, eq_comm]
    · simp [hk, ih]

/-- Two maps with the same searches are the same map. -/
theorem ext_get? (h : ∀ k, m.get? k = m'.get? k) : m = m' := by
  obtain ⟨l, hl⟩ := m
  obtain ⟨l', hl'⟩ := m'
  have hmem : ∀ e, e ∈ l ↔ e ∈ l' := by
    rintro ⟨k, v⟩
    have hm := mem_entries (m := ⟨l, hl⟩) (k := k) (v := v)
    have hm' := mem_entries (m := ⟨l', hl'⟩) (k := k) (v := v)
    exact hm.trans (by rw [h k, hm'])
  have hnodup : ∀ {l : List (κ × α)}, l.Pairwise (fun a b => a.1 < b.1) → l.Nodup :=
    fun hs => hs.imp fun hlt heq => absurd (heq ▸ hlt) (lt_irrefl _)
  have hperm : l.Perm l' := (List.perm_ext_iff_of_nodup (hnodup hl) (hnodup hl')).mpr hmem
  congr
  refine hperm.eq_of_pairwise ?_ hl hl'
  intro a b _ _ hab hba
  exact absurd (hab.trans hba) (lt_irrefl _)

/-- The entries of a list that have a value, written one after the other. -/
def overlay (m : SortedMap κ α) (entries : List (κ × β)) (value : β → Option α) :
    SortedMap κ α :=
  entries.foldl (fun m e => match value e.2 with
    | some v => m.insert e.1 v
    | none => m) m

theorem get?_overlay_of_not_mem (m : SortedMap κ α) {entries : List (κ × β)}
    {value : β → Option α} (h : ∀ e ∈ entries, e.1 ≠ k) :
    (m.overlay entries value).get? k = m.get? k := by
  induction entries generalizing m with
  | nil => rfl
  | cons e entries ih =>
    have hk : e.1 ≠ k := h e List.mem_cons_self
    have hrest : ∀ e ∈ entries, e.1 ≠ k := fun e he => h e (List.mem_cons_of_mem _ he)
    unfold overlay
    rw [List.foldl_cons]
    refine (ih _ hrest).trans ?_
    split
    · rw [get?_insert, if_neg (Ne.symm hk)]
    · rfl

/-- A loop that writes what another map's entries give. -/
theorem get?_overlay (m : SortedMap κ α) (other : SortedMap κ β) (value : β → Option α) (k : κ) :
    (m.overlay other.entries value).get? k = ((other.get? k).bind value).or (m.get? k) := by
  obtain ⟨entries, hsorted⟩ := other
  simp only [get?]
  induction entries generalizing m with
  | nil => simp [overlay]
  | cons e entries ih =>
    obtain ⟨k', b⟩ := e
    obtain ⟨hfirst, hrest⟩ := List.pairwise_cons.mp hsorted
    have hlater : ∀ e ∈ entries, e.1 ≠ k' := fun e he => (hfirst e he).ne'
    rw [lookup_cons]
    by_cases hk : k = k'
    · subst hk
      simp only [if_true, overlay, List.foldl_cons, Option.bind_some]
      refine (get?_overlay_of_not_mem _ hlater).trans ?_
      cases value b with
      | none => rfl
      | some v => simpa using get?_insert m k k v
    · rw [if_neg hk]
      refine (ih _ hrest).trans ?_
      congr 1
      cases hv : value b with
      | none => simp only [hv]
      | some v =>
        simp only [hv]
        exact (get?_insert m k' k v).trans (if_neg hk)

theorem mem_of_overlay {entries : List (κ × α)}
    (h : ((empty : SortedMap κ α).overlay entries some).get? k = some v) : (k, v) ∈ entries := by
  induction entries using List.reverseRecOn with
  | nil => cases h
  | append_singleton entries e ih =>
    rw [overlay, List.foldl_append] at h
    simp only [List.foldl_cons, List.foldl_nil] at h
    rw [get?_insert] at h
    split at h
    · rename_i hk
      cases h
      rw [hk]
      exact List.mem_append_right _ (List.mem_singleton.mpr rfl)
    · exact List.mem_append_left _ (ih h)

/-- A list whose keys are distinct is found entry by entry. -/
theorem get?_overlay_of_nodup {entries : List (κ × α)} (h : (entries.map (·.1)).Nodup) :
    ((empty : SortedMap κ α).overlay entries some).get? k = some v ↔ (k, v) ∈ entries := by
  refine ⟨mem_of_overlay, fun hmem => ?_⟩
  induction entries using List.reverseRecOn with
  | nil => cases hmem
  | append_singleton entries e ih =>
    rw [List.map_append, List.nodup_append] at h
    obtain ⟨hfirst, -, hapart⟩ := h
    rw [overlay, List.foldl_append]
    simp only [List.foldl_cons, List.foldl_nil]
    rw [get?_insert]
    obtain hmem | hmem := List.mem_append.mp hmem
    · have hne : k ≠ e.1 := hapart k (List.mem_map_of_mem hmem) e.1 (by simp)
      rw [if_neg hne]
      exact ih hfirst hmem
    · obtain rfl := List.mem_singleton.mp hmem
      rw [if_pos rfl]

/-! ## Replacing values and dropping keys -/

/-- The map with every value replaced, in the order of the keys, unless one cannot be. -/
def traverse {ε : Type*} {β : Type*} (m : SortedMap κ α) (f : κ → α → Except ε β) :
    Except ε (SortedMap κ β) :=
  m.entries.foldlM (fun acc e =>
    match f e.1 e.2 with
    | .ok v => .ok (acc.insert e.1 v)
    | .error e => .error e) empty

variable {ε : Type*}

theorem get?_foldlM {β : Type*} {f : κ → α → Except ε β} {entries : List (κ × α)}
    {acc m' : SortedMap κ β} (hsorted : entries.Pairwise fun a b => a.1 < b.1)
    (h : entries.foldlM (fun (acc : SortedMap κ β) e =>
      match f e.1 e.2 with
      | .ok v => Except.ok (acc.insert e.1 v)
      | .error e => .error e) acc = .ok m')
    (k : κ) :
    (entries.lookup k = none → m'.get? k = acc.get? k) ∧
      ∀ v, entries.lookup k = some v → ∃ v', f k v = .ok v' ∧ m'.get? k = some v' := by
  induction entries generalizing acc with
  | nil =>
    cases h
    simp
  | cons e entries ih =>
    obtain ⟨k', v⟩ := e
    obtain ⟨hfirst, hrest⟩ := List.pairwise_cons.mp hsorted
    rw [List.foldlM_cons] at h
    cases hf : f k' v with
    | error e => simp only [hf] at h; cases h
    | ok v' =>
      simp only [hf] at h
      obtain ⟨hnone, hsome⟩ := ih hrest h
      rw [lookup_cons]
      by_cases hk : k = k'
      · subst hk
        have habsent : entries.lookup k = none := by
          by_contra hne
          obtain ⟨w, hw⟩ := Option.ne_none_iff_exists'.mp hne
          have hmem := mem_entries (m := ⟨entries, hrest⟩).mpr hw
          exact lt_irrefl k (hfirst (k, w) hmem)
        refine ⟨by simp, fun w hw => ⟨v', ?_, ?_⟩⟩
        · simp only [if_true, Option.some.injEq] at hw
          rw [← hw, hf]
        · rw [hnone habsent, get?_insert, if_pos rfl]
      · rw [if_neg hk]
        refine ⟨fun hn => ?_, hsome⟩
        rw [hnone hn, get?_insert, if_neg hk]

theorem get?_traverse {β : Type*} {f : κ → α → Except ε β} {m' : SortedMap κ β}
    (h : m.traverse f = .ok m') (k : κ) :
    (m.get? k = none → m'.get? k = none) ∧
      ∀ v, m.get? k = some v → ∃ v', f k v = .ok v' ∧ m'.get? k = some v' :=
  get?_foldlM m.sorted h k

/-- Every value can be replaced when each one can. -/
theorem exists_traverse {β : Type*} {f : κ → α → Except ε β}
    (h : ∀ k v, m.get? k = some v → ∃ v', f k v = .ok v') : ∃ m', m.traverse f = .ok m' := by
  have hentries : ∀ e ∈ m.entries, ∃ v', f e.1 e.2 = .ok v' :=
    fun e he => h e.1 e.2 (mem_entries.mp he)
  unfold traverse
  generalize (empty : SortedMap κ β) = acc
  generalize m.entries = entries at hentries
  induction entries generalizing acc with
  | nil => exact ⟨acc, rfl⟩
  | cons e entries ih =>
    obtain ⟨v', hv'⟩ := hentries e List.mem_cons_self
    obtain ⟨m', hm'⟩ := ih (acc.insert e.1 v') fun e he => hentries e (List.mem_cons_of_mem _ he)
    refine ⟨m', ?_⟩
    rw [List.foldlM_cons, hv']
    exact hm'

/-- The map on the keys that satisfy a condition. -/
def restrict (m : SortedMap κ α) (p : κ → Bool) : SortedMap κ α :=
  ⟨m.entries.filter fun e => p e.1, m.sorted.filter _⟩

theorem get?_restrict (m : SortedMap κ α) (p : κ → Bool) (k : κ) :
    (m.restrict p).get? k = if p k then m.get? k else none := by
  apply Option.ext
  intro v
  rw [← mem_entries]
  simp only [restrict, List.mem_filter, mem_entries]
  split <;> simp_all

/-- The map with every value replaced. -/
def map (m : SortedMap κ α) (f : α → β) : SortedMap κ β :=
  ⟨m.entries.map fun e => (e.1, f e.2), List.pairwise_map.mpr m.sorted⟩

theorem get?_map (m : SortedMap κ α) (f : α → β) (k : κ) : (m.map f).get? k = (m.get? k).map f := by
  obtain ⟨entries, hsorted⟩ := m
  simp only [get?, map]
  clear hsorted
  induction entries with
  | nil => rfl
  | cons e entries ih =>
    obtain ⟨k', v⟩ := e
    rw [List.map_cons, lookup_cons, lookup_cons, ih]
    split <;> rfl

/-! ## Keys -/

theorem nodup_keys (m : SortedMap κ α) : (m.entries.map (·.1)).Nodup :=
  List.pairwise_map.mpr (m.sorted.imp fun hlt => hlt.ne)

theorem mem_keys : k ∈ m.entries.map (·.1) ↔ m.get? k ≠ none := by
  rw [List.mem_map, Option.ne_none_iff_exists']
  constructor
  · rintro ⟨⟨k', v⟩, hmem, rfl⟩
    exact ⟨v, mem_entries.mp hmem⟩
  · rintro ⟨v, hv⟩
    exact ⟨(k, v), mem_entries.mpr hv, rfl⟩

/-- A map has the entries that it was made from, if their keys are distinct. -/
theorem perm_overlay {entries : List (κ × α)} (h : (entries.map (·.1)).Nodup) :
    ((empty : SortedMap κ α).overlay entries some).entries.Perm entries := by
  rw [List.perm_ext_iff_of_nodup (.of_map _ (nodup_keys _)) (.of_map _ h)]
  exact fun e => mem_entries.trans (get?_overlay_of_nodup h)

/-- A list is as long as the map it makes when its keys are distinct. -/
theorem length_overlay_eq_iff (entries : List (κ × α)) :
    ((empty : SortedMap κ α).overlay entries some).entries.length = entries.length ↔
      (entries.map (·.1)).Nodup := by
  constructor
  · intro hlength
    -- the map's keys are distinct and all come from the list, so they are all of them
    have hsubset : ((empty : SortedMap κ α).overlay entries some).entries.map (·.1) ⊆
        entries.map (·.1) := by
      apply List.map_subset
      intro e he
      exact mem_of_overlay (mem_entries.mp he)
    have hperm :=
      (List.subperm_of_subset (nodup_keys _) hsubset).perm_of_length_le (by simp [hlength])
    exact hperm.nodup_iff.mp (nodup_keys _)
  · exact fun hkeys => (perm_overlay hkeys).length_eq

end SortedMap

/-! ## Sorting by key -/

section Sorting

variable {κ : Type u} {α : Type v} [LinearOrder κ]

/-- A list is sorted by key in one way only, if no key occurs twice. -/
theorem insertionSort_eq_of_perm (key : α → κ) {l l' : List α} (h : l.Perm l')
    (hkeys : (l.map key).Nodup) :
    l.insertionSort (fun a b => key a ≤ key b) = l'.insertionSort (fun a b => key a ≤ key b) := by
  have hsorted : ∀ l : List α, (l.insertionSort fun a b => key a ≤ key b).Pairwise
      fun a b => key a ≤ key b := fun l =>
    haveI : Std.Total fun a b : α => key a ≤ key b := ⟨fun a b => le_total _ _⟩
    haveI : IsTrans α fun a b => key a ≤ key b := ⟨fun _ _ _ => le_trans⟩
    List.pairwise_insertionSort _ l
  have hperm := (List.perm_insertionSort (fun a b => key a ≤ key b) l).trans
    (h.trans (List.perm_insertionSort (fun a b => key a ≤ key b) l').symm)
  refine hperm.eq_of_pairwise ?_ (hsorted l) (hsorted l')
  intro a b ha hb hab hba
  have ha' := (List.mem_insertionSort _).mp ha
  have hb' := h.mem_iff.mpr ((List.mem_insertionSort _).mp hb)
  exact List.inj_on_of_nodup_map hkeys ha' hb' (le_antisymm hab hba)

end Sorting

/-! ## Sets -/

/-- An ordered set, as the map of its elements. -/
abbrev SortedSet (κ : Type u) [LinearOrder κ] := SortedMap κ Unit

namespace SortedSet

variable {κ : Type u} [LinearOrder κ] {s : SortedSet κ} {a b : κ}

/-- The elements in ascending order. -/
def elements (s : SortedSet κ) : List κ := s.entries.map (·.1)

/-- Add an element. -/
def add (s : SortedSet κ) (a : κ) : SortedSet κ := s.insert a ()

/-- Add every element of a list. -/
def addAll (s : SortedSet κ) (l : List κ) : SortedSet κ := l.foldl add s

theorem mem_elements : a ∈ s.elements ↔ s.get? a = some () := by
  rw [elements, List.mem_map]
  constructor
  · rintro ⟨⟨k, v⟩, hmem, rfl⟩
    exact SortedMap.mem_entries.mp hmem
  · exact fun h => ⟨(a, ()), SortedMap.mem_entries.mpr h, rfl⟩

@[simp] theorem elements_empty : elements (SortedMap.empty : SortedSet κ) = [] := rfl

theorem nodup_elements (s : SortedSet κ) : s.elements.Nodup := s.nodup_keys

@[simp] theorem mem_add : b ∈ (s.add a).elements ↔ b = a ∨ b ∈ s.elements := by
  rw [mem_elements, mem_elements, add, SortedMap.get?_insert]
  split <;> simp_all

@[simp] theorem mem_addAll {l : List κ} : b ∈ (s.addAll l).elements ↔ b ∈ l ∨ b ∈ s.elements := by
  induction l generalizing s with
  | nil => simp [addAll]
  | cons a l ih =>
    have hstep : s.addAll (a :: l) = (s.add a).addAll l := rfl
    rw [hstep, ih, mem_add, List.mem_cons]
    tauto

end SortedSet

end Durable
