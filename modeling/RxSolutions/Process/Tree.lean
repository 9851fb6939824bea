import RxSolutions.Durable.Checks
import RxSolutions.Process.Model

/-!
# Resources and identities of a resolved tree

What the compiler, the validator and the planner each compute by a walk of their own: the
resources a tree uses, the bindings it refers to and the identities of its nodes.
-/

namespace RxSolutions.Process.CompiledNode

open Domain Durable

/-- The binding of an operation. -/
def binding? (n : CompiledNode) : Option Name :=
  match n.label with
  | .operation binding => some binding
  | _ => none

theorem binding?_eq_some {n : CompiledNode} {b : Name} :
    n.binding? = some b ↔ n.label = .operation b := by
  unfold binding?
  split <;> simp_all

/-- The resources a node itself uses. -/
def ownResources (bindings : SortedMap Name ActionBinding) (n : CompiledNode) : Finset Name :=
  match n.binding?.bind bindings.get? with
  | some action => action.intent.resourceSet.toFinset
  | none => ∅

/-- The resources a tree uses. -/
def resourceSet (bindings : SortedMap Name ActionBinding) (t : CompiledNode) : Finset Name :=
  (t.nodes.map (ownResources bindings)).foldr (· ∪ ·) ∅

variable {bindings : SortedMap Name ActionBinding}

theorem mem_foldr_union {sets : List (Finset Name)} {r : Name} :
    r ∈ sets.foldr (· ∪ ·) ∅ ↔ ∃ s ∈ sets, r ∈ s := by
  induction sets with
  | nil => simp
  | cons s sets ih => simp [ih]

variable {t : CompiledNode}

theorem mem_resourceSet {r : Name} :
    r ∈ t.resourceSet bindings ↔ ∃ n ∈ t.nodes, r ∈ n.ownResources bindings := by
  rw [resourceSet, mem_foldr_union]
  simp

/-- The resources of several trees. -/
def resourcesOf (bindings : SortedMap Name ActionBinding) (ts : List CompiledNode) : Finset Name :=
  (ts.map (resourceSet bindings)).foldr (· ∪ ·) ∅

theorem resourceSet_eq (t : CompiledNode) :
    t.resourceSet bindings = t.ownResources bindings ∪ resourcesOf bindings t.children := by
  ext r
  simp only [mem_resourceSet, Finset.mem_union, resourcesOf, mem_foldr_union, nodes_eq t,
    List.mem_cons, List.mem_flatMap, List.mem_map]
  constructor
  · rintro ⟨n, rfl | ⟨c, hc, hn⟩, hr⟩
    · exact Or.inl hr
    · exact Or.inr ⟨_, ⟨c, hc, rfl⟩, mem_resourceSet.mpr ⟨n, hn, hr⟩⟩
  · rintro (hr | ⟨_, ⟨c, hc, rfl⟩, hr⟩)
    · exact ⟨t, Or.inl rfl, hr⟩
    · obtain ⟨n, hn, hr⟩ := mem_resourceSet.mp hr
      exact ⟨n, Or.inr ⟨c, hc, hn⟩, hr⟩

/-- Below a parallel node the children use disjoint resources. -/
def Exclusive (bindings : SortedMap Name ActionBinding) (n : CompiledNode) : Prop :=
  n.label = .parallelAll →
    n.children.Pairwise fun a b => Disjoint (a.resourceSet bindings) (b.resourceSet bindings)

/-- Nodes that can be added to those seen: new, distinct and not too many. -/
structure Fits (ids : Finset Name) (ns : List CompiledNode) : Prop where
  distinct : (ns.map id).Nodup
  fresh : ∀ n ∈ ns, n.id ∉ ids
  room : ids.card + ns.length ≤ 4096

/-- The identities of some nodes. -/
def idsOf (ns : List CompiledNode) : Finset Name := (ns.map id).toFinset

/-- The bindings that some nodes use. -/
def usedBy (ns : List CompiledNode) : Finset Name := (ns.filterMap binding?).toFinset

variable {ids : Finset Name}

/-- New and distinct nodes add as many identities as there are nodes. -/
theorem card_union_idsOf {ns : List CompiledNode} (hdistinct : (ns.map id).Nodup)
    (hfresh : ∀ n ∈ ns, n.id ∉ ids) : (ids ∪ idsOf ns).card = ids.card + ns.length := by
  rw [Finset.card_union_of_disjoint]
  · rw [idsOf, List.toFinset_card_of_nodup hdistinct, List.length_map]
  · rw [Finset.disjoint_right]
    intro i hi
    obtain ⟨n, hn, rfl⟩ := List.mem_map.mp (List.mem_toFinset.mp hi)
    exact hfresh n hn

theorem fits_append {a b : List CompiledNode} :
    Fits ids (a ++ b) ↔ Fits ids a ∧ Fits (ids ∪ idsOf a) b := by
  have hmem : ∀ n : CompiledNode, n.id ∈ idsOf a ↔ ∃ m ∈ a, m.id = n.id := by
    intro n
    simp [idsOf]
  constructor
  · intro h
    have hdistinct := h.distinct
    rw [List.map_append, List.nodup_append] at hdistinct
    obtain ⟨ha, hb, hab⟩ := hdistinct
    have hfresh : ∀ n ∈ a, n.id ∉ ids := fun n hn => h.fresh n (List.mem_append_left _ hn)
    have hroom := h.room
    rw [List.length_append] at hroom
    refine ⟨⟨ha, hfresh, by omega⟩, ⟨hb, fun n hn hin => ?_, ?_⟩⟩
    · obtain hin | hin := Finset.mem_union.mp hin
      · exact h.fresh n (List.mem_append_right _ hn) hin
      · obtain ⟨m, hm, heq⟩ := (hmem n).mp hin
        exact hab _ (List.mem_map_of_mem hm) _ (List.mem_map_of_mem hn) heq
    · rw [card_union_idsOf ha hfresh]
      omega
  · rintro ⟨ha, hb⟩
    have hroom := hb.room
    rw [card_union_idsOf ha.distinct ha.fresh] at hroom
    constructor
    · rw [List.map_append, List.nodup_append]
      refine ⟨ha.distinct, hb.distinct, fun i hi j hj heq => ?_⟩
      obtain ⟨n, hn, rfl⟩ := List.mem_map.mp hj
      apply hb.fresh n hn
      exact Finset.mem_union_right _ (List.mem_toFinset.mpr (heq ▸ hi))
    · intro n hn
      obtain hn | hn := List.mem_append.mp hn
      · exact ha.fresh n hn
      · exact fun hin => hb.fresh n hn (Finset.mem_union_left _ hin)
    · rw [List.length_append]
      omega

theorem ownResources_eq_empty {bindings : SortedMap Name ActionBinding} (h : t.binding? = none) :
    t.ownResources bindings = ∅ := by
  simp [ownResources, h]

theorem usedBy_eq_empty (h : t.binding? = none) : usedBy [t] = ∅ := by
  simp [usedBy, h]

theorem fits_singleton : Fits ids [t] ↔ t.id ∉ ids ∧ ids.card < 4096 :=
  ⟨fun h => ⟨h.fresh t List.mem_cons_self, h.room⟩,
    fun h => ⟨List.nodup_singleton _, by simpa using h.1, h.2⟩⟩

/-- The nodes that fit do not exceed the bound. -/
theorem Fits.card_le {ns : List CompiledNode} (h : Fits ids ns) :
    (ids ∪ idsOf ns).card ≤ 4096 := by
  have happend : Fits ids (ns ++ []) := by rwa [List.append_nil]
  have hroom := (fits_append.mp happend).2.room
  simpa using hroom

/-! ## Forests -/

/-- Trees with room below the levels given and next to the nodes seen, whose nodes all have a
property. -/
@[mk_iff]
structure Forest (P : CompiledNode → Prop) (levels : ℕ) (ids : Finset Name)
    (ts : List CompiledNode) : Prop where
  within : ∀ t ∈ ts, t.Within levels
  fits : Fits ids (ts.flatMap nodes)
  each : ∀ n ∈ ts.flatMap nodes, P n

section Forest

variable {P Q : CompiledNode → Prop} {levels depth : ℕ} {ts : List CompiledNode}

theorem idsOf_append (a b : List CompiledNode) : idsOf (a ++ b) = idsOf a ∪ idsOf b := by
  simp [idsOf]

theorem union_idsOf_singleton (ids : Finset Name) (t : CompiledNode) :
    ids ∪ idsOf [t] = insert t.id ids := by
  ext i
  simp [idsOf, or_comm]

/-- The identities after a tree, from those after its root. -/
theorem union_idsOf_nodes (ids : Finset Name) (t : CompiledNode) :
    ids ∪ idsOf t.nodes = insert t.id ids ∪ idsOf (t.children.flatMap nodes) := by
  rw [nodes_eq, ← List.singleton_append, idsOf_append, ← Finset.union_assoc, union_idsOf_singleton]

theorem forest_nil (hroom : ids.card ≤ 4096) : Forest P levels ids [] :=
  ⟨by simp, ⟨by simp, by simp, by simpa using hroom⟩, by simp⟩

theorem forest_singleton : Forest P levels ids [t] ↔
    t.Within levels ∧ Fits ids t.nodes ∧ ∀ n ∈ t.nodes, P n := by
  simp [forest_iff]

theorem Forest.imp (h : Forest P levels ids ts) (himp : ∀ n, P n → Q n) : Forest Q levels ids ts :=
  ⟨h.within, h.fits, fun n hn => himp n (h.each n hn)⟩

/-- Several trees are added one after the other. -/
theorem forest_cons : Forest P levels ids (t :: ts) ↔
    Forest P levels ids [t] ∧ Forest P levels (ids ∪ idsOf t.nodes) ts := by
  rw [forest_singleton, forest_iff, forest_iff, List.flatMap_cons, fits_append,
    List.forall_mem_append, List.forall_mem_cons]
  tauto

/-- A tree is added root first, and its children one level further down. -/
theorem forest_root : Forest P (65 - depth) ids [t] ↔ depth ≤ 64 ∧ (Fits ids [t] ∧ P t) ∧
    Forest P (65 - (depth + 1)) (insert t.id ids) t.children := by
  by_cases h : depth ≤ 64
  · obtain ⟨k, hk⟩ : ∃ k, 65 - depth = k + 1 := ⟨64 - depth, by omega⟩
    have hk' : 65 - (depth + 1) = k := by omega
    have hwithin : t.Within (k + 1) ↔ ∀ c ∈ t.children, c.Within k := Iff.rfl
    rw [hk, hk', forest_singleton, forest_iff, nodes_eq, ← List.singleton_append, fits_append,
      union_idsOf_singleton, List.forall_mem_append, List.forall_mem_singleton, hwithin]
    tauto
  · have hzero : 65 - depth = 0 := by omega
    rw [hzero]
    exact iff_of_false (fun hf => hf.within t (List.mem_singleton_self t)) fun hf => h hf.1

/-- The nodes of a tree that was added do not exceed the bound. -/
theorem Forest.card_le (h : Forest P levels ids [t]) : (ids ∪ idsOf t.nodes).card ≤ 4096 :=
  (forest_singleton.mp h).2.1.card_le

theorem Fits.card_insert_le (h : Fits ids [t]) : (insert t.id ids).card ≤ 4096 :=
  union_idsOf_singleton ids t ▸ h.card_le

end Forest

/-- With fewer nodes seen there is as much room. -/
theorem Forest.mono {ids' : Finset Name} {P : CompiledNode → Prop} {levels : ℕ}
    {ts : List CompiledNode} (h : Forest P levels ids' ts) (hsub : ids ⊆ ids') :
    Forest P levels ids ts := by
  refine ⟨h.within, ⟨h.fits.distinct, fun n hn hin => h.fits.fresh n hn (hsub hin), ?_⟩, h.each⟩
  have hcard := Finset.card_le_card hsub
  have hroom := h.fits.room
  omega

/-! ## Maps of the nodes -/

/-- The map has a value for each of the nodes, under its identity, and nothing else. -/
def Holds {β : Type} (value : CompiledNode → β) (ns : List CompiledNode) (m : SortedMap Name β) :
    Prop :=
  ∀ id v, m.get? id = some v ↔ ∃ n ∈ ns, n.id = id ∧ value n = v

section Holds

variable {β : Type} {value : CompiledNode → β} {ns ns' : List CompiledNode} {m : SortedMap Name β}

theorem holds_empty : Holds value [] .empty := by
  simp [Holds]

theorem Holds.congr (h : Holds value ns m) (hmem : ∀ n, n ∈ ns ↔ n ∈ ns') : Holds value ns' m := by
  intro id v
  simp only [h id v, hmem]

theorem Holds.get?_eq_none (h : Holds value ns m) {id : Name} :
    m.get? id = none ↔ id ∉ idsOf ns := by
  rw [Option.eq_none_iff_forall_ne_some, idsOf, List.mem_toFinset, List.mem_map]
  constructor
  · rintro hnone ⟨n, hn, rfl⟩
    exact hnone _ ((h _ _).mpr ⟨n, hn, rfl, rfl⟩)
  · intro hnone v hv
    obtain ⟨n, hn, hid, -⟩ := (h id v).mp hv
    exact hnone ⟨n, hn, hid⟩

/-- The keys of the map are the identities of the nodes. -/
theorem Holds.keys (h : Holds value ns m) : (m.entries.map (·.1)).toFinset = idsOf ns := by
  ext id
  rw [List.mem_toFinset, SortedMap.mem_keys, ne_eq, h.get?_eq_none, not_not]

theorem Holds.length (h : Holds value ns m) : m.entries.length = (idsOf ns).card := by
  rw [← h.keys, List.toFinset_card_of_nodup m.nodup_keys, List.length_map]

theorem Holds.insert (h : Holds value ns m) (hfresh : t.id ∉ idsOf ns) :
    Holds value (ns ++ [t]) (m.insert t.id (value t)) := by
  intro id v
  rw [SortedMap.get?_insert]
  simp only [List.mem_append, List.mem_singleton, or_and_right, exists_or, exists_eq_left]
  split
  · rename_i hid
    subst hid
    rw [← h, h.get?_eq_none.mpr hfresh]
    simp
  · rename_i hne
    rw [h]
    simp [Ne.symm hne]

theorem Holds.unique {m' : SortedMap Name β} (h : Holds value ns m) (h' : Holds value ns m') :
    m = m' := by
  apply SortedMap.ext_get?
  intro id
  ext v
  rw [h, h']

/-! ### Walks that fill a map -/

variable {ε : Type} {ts : List CompiledNode} {P : CompiledNode → Prop} {levels : ℕ}
  {walk : SortedMap Name β → CompiledNode → Except ε (SortedMap Name β)}
  (hwalk : ∀ t ∈ ts, ∀ ns m m', Holds value ns m → walk m t = .ok m' →
    Holds value (ns ++ t.nodes) m')

include hwalk

theorem Holds.foldlM {m' : SortedMap Name β} (hm : Holds value ns m)
    (h : ts.foldlM walk m = .ok m') : Holds value (ns ++ ts.flatMap nodes) m' := by
  induction ts generalizing ns m with
  | nil =>
    cases h
    simpa using hm
  | cons t ts ih =>
    rw [List.foldlM_cons, Checks.bind_eq_ok] at h
    obtain ⟨mid, hmid, h⟩ := h
    rw [List.flatMap_cons, ← List.append_assoc]
    exact ih (fun u hu => hwalk u (List.mem_cons_of_mem _ hu))
      (hwalk t List.mem_cons_self ns m mid hm hmid) h

/-- A walk over trees that have room gets to its end. -/
theorem Holds.foldlM_ok (hm : Holds value ns m)
    (hts : ∀ t ∈ ts, ∀ ns m, Holds value ns m → Forest P levels (idsOf ns) [t] →
      ∃ m', walk m t = .ok m')
    (h : Forest P levels (idsOf ns) ts) : ∃ m', ts.foldlM walk m = .ok m' := by
  induction ts generalizing ns m with
  | nil => exact ⟨m, rfl⟩
  | cons t ts ih =>
    obtain ⟨hfirst, hrest⟩ := forest_cons.mp h
    obtain ⟨mid, hmid⟩ := hts t List.mem_cons_self ns m hm hfirst
    rw [← idsOf_append] at hrest
    obtain ⟨m', hm'⟩ := ih (fun u hu => hwalk u (List.mem_cons_of_mem _ hu))
      (hwalk t List.mem_cons_self ns m mid hm hmid)
      (fun u hu => hts u (List.mem_cons_of_mem _ hu)) hrest
    exact ⟨m', by rw [List.foldlM_cons, hmid]; exact hm'⟩

end Holds

/-! ## Resources that are kept apart -/

/-- The trees use none of these resources, and none of each other's. -/
def Apart (bindings : SortedMap Name ActionBinding) (acc : Finset Name)
    (ts : List CompiledNode) : Prop :=
  (∀ t ∈ ts, Disjoint acc (t.resourceSet bindings)) ∧
    ts.Pairwise fun a b => Disjoint (a.resourceSet bindings) (b.resourceSet bindings)

theorem apart_cons {acc : Finset Name} {ts : List CompiledNode} :
    Apart bindings acc (t :: ts) ↔
      Disjoint acc (t.resourceSet bindings) ∧ Apart bindings (acc ∪ t.resourceSet bindings) ts := by
  simp only [Apart, List.forall_mem_cons, List.pairwise_cons, Finset.disjoint_union_left,
    forall₂_and]
  tauto

theorem apart_empty {ts : List CompiledNode} : Apart bindings ∅ ts ↔
    ts.Pairwise fun a b => Disjoint (a.resourceSet bindings) (b.resourceSet bindings) := by
  simp [Apart]

end RxSolutions.Process.CompiledNode
