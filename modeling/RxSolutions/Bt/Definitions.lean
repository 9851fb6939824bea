import RxSolutions.Bt.Engine
import RxSolutions.Process.Validation

/-!
# The definitions of a well-formed process

The engine collects the definitions of a resolved process on its own. For a well-formed
process this succeeds and finds each node once.
-/

namespace RxSolutions.Bt

open Domain Durable Process
open CompiledNode (Forest Holds fits_singleton forest_root holds_empty idsOf idsOf_append nodes_eq)

/-- A wait has a time limit. -/
def Timed (n : CompiledNode) : Prop :=
  ∀ condition timeoutNs, n.label = .wait condition timeoutNs → timeoutNs ≠ 0

variable {result result' : SortedMap Name Definition} {t : CompiledNode}
  {ns : List CompiledNode} {depth : ℕ}

theorem emplace_eq_ok : emplace t result = .ok result' ↔
    result.get? t.id = none ∧ result' = result.insert t.id (definitionOf t) := by
  unfold emplace
  cases result.get? t.id <;> simp [eq_comm]

/-- A node is collected after its children. -/
theorem collect_eq_ok : collect t result depth = .ok result' ↔ Room result depth ∧ Timed t ∧
    ∃ mid, collectAll t.children result (depth + 1) = .ok mid ∧ emplace t mid = .ok result' := by
  by_cases hroom : Room result depth
  case neg => cases t <;> simp [collect, hroom]
  cases t with
  | sequence _ _ children | parallelAll _ _ children =>
    cases hall : collectAll children result (depth + 1) <;>
      simp [collect, hroom, Timed, CompiledNode.label, CompiledNode.children, hall]
  | operation | intervention =>
    simp [collect, hroom, Timed, CompiledNode.label, CompiledNode.children, collectAll]
  | wait id source condition timeoutNs =>
    by_cases hzero : timeoutNs = 0 <;>
      simp [collect, hroom, Timed, CompiledNode.label, CompiledNode.children, collectAll, hzero]
  | branch id source condition whenTrue whenFalse =>
    simp only [collect, hroom, Timed, CompiledNode.label, CompiledNode.children, collectAll]
    cases collect whenTrue result (depth + 1) with
    | error e => simp
    | ok mid =>
      dsimp only
      cases collect whenFalse mid (depth + 1) <;> simp

theorem collectAll_eq (ts : List CompiledNode) (result : SortedMap Name Definition) (depth : ℕ) :
    collectAll ts result depth = ts.foldlM (fun result t => collect t result depth) result := by
  induction ts generalizing result with
  | nil => rfl
  | cons t ts ih =>
    rw [collectAll, List.foldlM_cons]
    cases collect t result depth with
    | error e => rfl
    | ok mid => exact ih mid

/-- The collected definitions are those of the nodes. -/
theorem holds_collect (hns : Holds definitionOf ns result)
    (h : collect t result depth = .ok result') : Holds definitionOf (ns ++ t.nodes) result' := by
  induction t generalizing ns result result' depth with
  | h t ih =>
  obtain ⟨-, -, mid, hmid, hlast⟩ := collect_eq_ok.mp h
  obtain ⟨hnone, rfl⟩ := emplace_eq_ok.mp hlast
  rw [collectAll_eq] at hmid
  have hbelow := hns.foldlM (fun c hc _ _ _ => ih c hc) hmid
  refine (hbelow.insert (hbelow.get?_eq_none.mp hnone)).congr fun n => ?_
  simp only [nodes_eq t, List.mem_append, List.mem_cons, List.not_mem_nil, or_false]
  tauto

/-- A tree with room for its nodes is collected. -/
theorem collect_ok (hns : Holds definitionOf ns result)
    (h : Forest Timed (65 - depth) (idsOf ns) [t]) :
    ∃ result', collect t result depth = .ok result' := by
  induction t generalizing ns result depth with
  | h t ih =>
  obtain ⟨hdepth, ⟨hfits, htimed⟩, hbelow⟩ := forest_root.mp h
  obtain ⟨hfresh, hroom⟩ := fits_singleton.mp hfits
  rw [← hns.length] at hroom
  obtain ⟨mid, hmid⟩ := hns.foldlM_ok (fun _ _ _ _ _ => holds_collect) (fun c hc _ _ => ih c hc)
    (hbelow.mono (Finset.subset_insert _ _))
  -- the node has its identity for itself
  have hnone : mid.get? t.id = none := by
    rw [(hns.foldlM (fun _ _ _ _ _ => holds_collect) hmid).get?_eq_none, idsOf_append,
      Finset.mem_union, not_or]
    refine ⟨hfresh, fun hin => ?_⟩
    obtain ⟨n, hn, hid⟩ := List.mem_map.mp (List.mem_toFinset.mp hin)
    exact hbelow.fits.fresh n hn (hid ▸ Finset.mem_insert_self _ _)
  exact ⟨_, collect_eq_ok.mpr ⟨⟨hdepth, hroom⟩, htimed, mid, (collectAll_eq ..).trans hmid,
    emplace_eq_ok.mpr ⟨hnone, rfl⟩⟩⟩

/-- The waits of a well-formed process have a time limit. -/
theorem timed_of_fine [Hashing] {p : ResolvedProcess} {n : CompiledNode} (h : Fine p n) :
    Timed n := by
  intro condition timeoutNs hlabel
  have hbody := h.body
  cases n with
  | wait =>
    cases hlabel
    exact hbody.1
  | _ => cases hlabel

theorem definitionsOf_eq_ok {p : ResolvedProcess} {root : Name} {defs : SortedMap Name Definition} :
    definitionsOf p = .ok (root, defs) ↔ root = p.root.id ∧ collect p.root .empty 0 = .ok defs := by
  unfold definitionsOf
  cases collect p.root .empty 0 <;> simp [eq_comm]

/-- The engine finds every node of a well-formed process, under its root. -/
theorem exists_definitionsOf [Hashing] {p : ResolvedProcess} (h : p.WellFormed) :
    ∃ defs, definitionsOf p = .ok (p.root.id, defs) ∧ Holds definitionOf p.root.nodes defs := by
  obtain ⟨defs, hdefs⟩ := @collect_ok _ _ _ 0 holds_empty (h.forest.imp fun _ => timed_of_fine)
  exact ⟨defs, definitionsOf_eq_ok.mpr ⟨rfl, hdefs⟩, holds_collect holds_empty hdefs⟩

end RxSolutions.Bt
