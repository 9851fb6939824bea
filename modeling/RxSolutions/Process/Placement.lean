import Mathlib.Algebra.Order.BigOperators.Group.List
import RxSolutions.Process.Reordering

/-!
# Every expanded node has a place of its own

An expanded node is located by its flow, its name there and the path of the calls and rounds
it was reached through. In a source that passed validation the nodes of a flow form a tree, so
the name that a place belongs to within one instance of a flow is determined by the location,
and no two nodes of an expansion are at the same location.
-/

namespace RxSolutions.Process

open Domain Durable CompiledNode Relation

/-! ## Paths -/

/-- Two texts that end in a slash and digits agree on what stands before and after it. -/
theorem append_slash_inj {a b : String} {i j : ℕ}
    (h : a ++ "/" ++ toString i = b ++ "/" ++ toString j) : a = b ∧ i = j := by
  have hdigits : ∀ n : ℕ, '/' ∉ (toString n).toList := by
    intro n hmem
    exact absurd (isDigit_toString hmem) (by decide)
  have hlists :
      a.toList ++ '/' :: (toString i).toList = b.toList ++ '/' :: (toString j).toList := by
    have hchars := congrArg String.toList h
    simpa using hchars
  -- the slash in front of the digits is the last one on both sides
  have hsplit : a.toList = b.toList ∧ (toString i).toList = (toString j).toList := by
    obtain ⟨c, hb, hrest⟩ | ⟨c, ha, hrest⟩ := List.append_eq_append_iff.mp hlists
    · cases c with
      | nil => exact ⟨by simpa using hb.symm, by simpa using hrest⟩
      | cons x c =>
        have hmem : '/' ∈ (toString i).toList := by
          rw [(List.cons.inj hrest).2]
          simp
        exact absurd hmem (hdigits i)
    · cases c with
      | nil => exact ⟨by simpa using ha, by simpa using hrest.symm⟩
      | cons x c =>
        have hmem : '/' ∈ (toString j).toList := by
          rw [(List.cons.inj hrest).2]
          simp
        exact absurd hmem (hdigits j)
  exact ⟨String.toList_inj.mp hsplit.1, toString_injective (String.toList_inj.mp hsplit.2)⟩

theorem repeatStep_inj {a b : Name} {i j : ℕ} (h : repeatStep a i = repeatStep b j) :
    a = b ∧ i = j := by
  obtain ⟨hname, hi⟩ := append_slash_inj h
  exact ⟨(String.append_right_inj _).mp hname, hi⟩

theorem callStep_inj {flow a b : Name} (h : callStep flow a = callStep flow b) : a = b :=
  (String.append_right_inj _).mp h

theorem repeatStep_ne_callStep (a flow b : Name) (i : ℕ) : repeatStep a i ≠ callStep flow b := by
  intro h
  have hchars := congrArg (fun s : String => s.toList.head?) h
  simp [repeatStep, callStep] at hchars

/-- A location at the node itself, or below it by a round or by a call. -/
inductive Owned (flow : Name) (path : List String) (name : Name) (place : SourceLocation) : Prop
  | here (hflow : place.flow = flow) (hnode : place.node = name)
      (hpath : place.instantiation = path)
  | repeated (i : ℕ) (rest : List String)
      (hpath : place.instantiation = path ++ repeatStep name i :: rest)
  | called (rest : List String)
      (hpath : place.instantiation = path ++ callStep flow name :: rest)

/-- A location belongs to one node of an instance of a flow. -/
theorem Owned.unique {flow : Name} {path : List String} {a b : Name} {place : SourceLocation}
    (ha : Owned flow path a place) (hb : Owned flow path b place) : a = b := by
  have hlonger : ∀ {x rest}, path ≠ path ++ x :: rest := by
    intro x rest h
    simp at h
  cases ha with
  | here _ hnode hpath =>
    cases hb with
    | here _ hnode' _ => exact hnode.symm.trans hnode'
    | repeated i rest hpath' => exact absurd (hpath.symm.trans hpath') hlonger
    | called rest hpath' => exact absurd (hpath.symm.trans hpath') hlonger
  | repeated i rest hpath =>
    cases hb with
    | here _ _ hpath' => exact absurd (hpath'.symm.trans hpath) hlonger
    | repeated j rest' hpath' =>
      have hstep := (List.cons.inj (List.append_cancel_left (hpath.symm.trans hpath'))).1
      exact (repeatStep_inj hstep).1
    | called rest' hpath' =>
      have hstep := (List.cons.inj (List.append_cancel_left (hpath.symm.trans hpath'))).1
      exact absurd hstep (repeatStep_ne_callStep _ _ _ _)
  | called rest hpath =>
    cases hb with
    | here _ _ hpath' => exact absurd (hpath'.symm.trans hpath) hlonger
    | repeated j rest' hpath' =>
      have hstep := (List.cons.inj (List.append_cancel_left (hpath'.symm.trans hpath))).1
      exact absurd hstep (repeatStep_ne_callStep _ _ _ _)
    | called rest' hpath' =>
      have hstep := (List.cons.inj (List.append_cancel_left (hpath.symm.trans hpath'))).1
      exact callStep_inj hstep

/-! ## The tree of a flow -/

/-- One node of the flow lists the other as a child. -/
def Flow.Parent (flow : Flow) (a b : Name) : Prop :=
  ∃ node, flow.find a = some node ∧ b ∈ node.body.children

namespace SourceValidation.FlowOk

variable {source : ProcessSource} {flow : Flow} {a b c d : Name}

theorem nodup_children (h : FlowOk source flow) :
    (flow.nodes.flatMap (·.body.children)).Nodup := by
  rw [List.nodup_iff_count_le_one]
  intro c
  by_cases hc : c ∈ flow.nodes.flatMap (·.body.children)
  · exact (h.unshared c hc).le
  · rw [List.count_eq_zero_of_not_mem hc]
    exact zero_le_one

/-- A node is listed as a child of one node only. -/
theorem parent_unique (h : FlowOk source flow) (ha : flow.Parent a c) (hb : flow.Parent b c) :
    a = b := by
  obtain ⟨m, hm, hcm⟩ := ha
  obtain ⟨n, hn, hcn⟩ := hb
  obtain ⟨hmem, hida⟩ := (Flow.find_eq_some h.ids).mp hm
  obtain ⟨hnem, hidb⟩ := (Flow.find_eq_some h.ids).mp hn
  have hapart := (List.nodup_flatMap.mp h.nodup_children).2
  by_cases hmn : m = n
  · rw [← hida, ← hidb, hmn]
  · have : Std.Symm (Function.onFun List.Disjoint fun n : Node => n.body.children) :=
      ⟨fun _ _ hdisjoint => hdisjoint.symm⟩
    exact absurd hcn (hapart.forall hmem hnem hmn hcm)

/-- What is below two siblings is below itself. -/
theorem cyclic_of_siblings (h : FlowOk source flow) (hb : flow.Parent a b) (hc : flow.Parent a c)
    (hne : b ≠ c) (hbd : ReflTransGen flow.Parent b d) (hcd : ReflTransGen flow.Parent c d) :
    TransGen flow.Parent a a := by
  -- going up from a node there is one way, so one sibling is above the other
  have hup : Relator.RightUnique (Function.swap flow.Parent) :=
    fun _ _ _ hx hy => h.parent_unique hx hy
  have hclosed : ∀ {x y}, flow.Parent a x → flow.Parent a y → x ≠ y →
      ReflTransGen (Function.swap flow.Parent) x y → TransGen flow.Parent a a := by
    intro x y hx hy hxy hpath
    obtain heq | ⟨e, hxe, hey⟩ := hpath.cases_head
    · exact absurd heq hxy
    · obtain rfl : a = e := h.parent_unique hx hxe
      exact TransGen.head' hy (reflTransGen_swap.mp hey)
  obtain hbc | hcb := ReflTransGen.total_of_right_unique hup (reflTransGen_swap.mpr hbd)
    (reflTransGen_swap.mpr hcd)
  · exact hclosed hb hc hne hbc
  · exact hclosed hc hb hne.symm hcb

end SourceValidation.FlowOk

/-! ## Expansions -/

section Lists

variable {α β : Type*} {R : α → β → Prop} {l : List α} {l' : List β}

theorem exists_right_of_forall₂ (h : List.Forall₂ R l l') {a : α} (ha : a ∈ l) :
    ∃ b ∈ l', R a b := by
  induction h with
  | nil => cases ha
  | cons hfirst _ ih =>
    obtain rfl | ha := List.mem_cons.mp ha
    · exact ⟨_, List.mem_cons_self, hfirst⟩
    · obtain ⟨b, hb, hR⟩ := ih ha
      exact ⟨b, List.mem_cons_of_mem _ hb, hR⟩

theorem exists_left_of_forall₂ (h : List.Forall₂ R l l') {b : β} (hb : b ∈ l') :
    ∃ a ∈ l, R a b :=
  exists_right_of_forall₂ h.flip hb

theorem pairwise_of_forall₂ {S : α → α → Prop} {T : β → β → Prop} (h : List.Forall₂ R l l')
    (hl : l.Pairwise S) (hST : ∀ a b a' b', R a a' → R b b' → S a b → T a' b') :
    l'.Pairwise T := by
  induction h with
  | nil => exact List.Pairwise.nil
  | cons hfirst hrest ih =>
    obtain ⟨hhead, htail⟩ := List.pairwise_cons.mp hl
    refine List.Pairwise.cons (fun b' hb' => ?_) (ih htail)
    obtain ⟨b, hb, hR⟩ := exists_left_of_forall₂ hrest hb'
    exact hST _ _ _ _ hfirst hR (hhead b hb)

end Lists

variable {flows : SortedMap Name Flow} {flow : Flow} {path : List String} {node : Node}
  {below : List Position} {pos : Position} {t : CompiledNode} {source : ProcessSource}

/-- The places below a node: its children in the same instance, its rounds, or a call. -/
theorem spawn_cases (h : spawn flows flow path node = some below) :
    below = node.body.children.map (fun child => ⟨flow, child, path⟩) ∨
    (∃ count child, node.body = .repeat count child ∧
      below = (List.range count).map fun i => ⟨flow, child, path ++ [repeatStep node.id i]⟩) ∨
    ∃ callee called, node.body = .call callee ∧ flows.get? callee = some called ∧
      below = [⟨called, called.root, path ++ [callStep flow.id node.id]⟩] := by
  unfold spawn at h
  cases hbody : node.body with
  | «repeat» count child =>
    rw [hbody] at h
    exact Or.inr (Or.inl ⟨count, child, rfl, (Option.some.inj h).symm⟩)
  | call callee =>
    rw [hbody] at h
    obtain ⟨called, hcalled, hbelow⟩ := Option.map_eq_some_iff.mp h
    exact Or.inr (Or.inr ⟨callee, called, rfl, hcalled, hbelow.symm⟩)
  | _ =>
    rw [hbody] at h
    exact Or.inl (Option.some.inj h).symm

/-- A location in an expansion continues the path of its place. -/
theorem Matches.extends (h : Matches flows pos t) :
    ∀ n ∈ t.nodes, ∃ rest, n.source.instantiation = pos.path ++ rest := by
  induction t generalizing pos with
  | h t ih =>
  obtain ⟨_, _, node, below, hfind, hsource, hlabel, hspawn, hchildren⟩ := h
  intro n hn
  rw [nodes_eq] at hn
  obtain rfl | hn := List.mem_cons.mp hn
  · exact ⟨[], by simp [hsource]⟩
  obtain ⟨c, hc, hn⟩ := List.mem_flatMap.mp hn
  obtain ⟨pos', hpos', hmatch⟩ := exists_left_of_forall₂ hchildren hc
  obtain ⟨rest, hrest⟩ := ih c hc hmatch n hn
  obtain rfl | ⟨count, child, -, rfl⟩ | ⟨callee, called, -, -, rfl⟩ := spawn_cases hspawn
  · obtain ⟨name, -, rfl⟩ := List.mem_map.mp hpos'
    exact ⟨rest, hrest⟩
  · obtain ⟨i, -, rfl⟩ := List.mem_map.mp hpos'
    exact ⟨repeatStep node.id i :: rest, by simp [hrest]⟩
  · obtain rfl := List.mem_singleton.mp hpos'
    exact ⟨callStep pos.flow.id node.id :: rest, by simp [hrest]⟩

theorem Flow.id_of_find {name : Name} (h : flow.find name = some node) : node.id = name := by
  simpa using List.find?_some h

/-- Every location in an expansion belongs to a node at or below the one that is expanded. -/
theorem Matches.owned (h : Matches flows pos t) : ∀ n ∈ t.nodes, ∃ name,
    ReflTransGen pos.flow.Parent pos.id name ∧ Owned pos.flow.id pos.path name n.source := by
  induction t generalizing pos with
  | h t ih =>
  obtain ⟨_, _, node, below, hfind, hsource, hlabel, hspawn, hchildren⟩ := h
  have hid := Flow.id_of_find hfind
  intro n hn
  rw [nodes_eq] at hn
  obtain rfl | hn := List.mem_cons.mp hn
  · exact ⟨pos.id, .refl, .here (by rw [hsource]) (by rw [hsource, hid]) (by rw [hsource])⟩
  obtain ⟨c, hc, hn⟩ := List.mem_flatMap.mp hn
  obtain ⟨pos', hpos', hmatch⟩ := exists_left_of_forall₂ hchildren hc
  obtain ⟨rest, hrest⟩ := hmatch.extends n hn
  obtain rfl | ⟨count, child, -, rfl⟩ | ⟨callee, called, -, -, rfl⟩ := spawn_cases hspawn
  · obtain ⟨name, hname, rfl⟩ := List.mem_map.mp hpos'
    obtain ⟨owner, hbelow, howned⟩ := ih c hc hmatch n hn
    exact ⟨owner, ReflTransGen.head ⟨node, hfind, hname⟩ hbelow, howned⟩
  · obtain ⟨i, -, rfl⟩ := List.mem_map.mp hpos'
    exact ⟨pos.id, .refl, .repeated i rest (by simp [hrest, hid])⟩
  · obtain rfl := List.mem_singleton.mp hpos'
    exact ⟨pos.id, .refl, .called rest (by simp [hrest, hid])⟩

/-- The node of a flow has an expansion of at most so many nodes. -/
def Placed (flows : SortedMap Name Flow) (flow : Flow) (size : ℕ) (name : Name) : Prop :=
  ∃ path t, Matches flows ⟨flow, name, path⟩ t ∧ t.size ≤ size

theorem CompiledNode.size_lt_of_child {c : CompiledNode} (hc : c ∈ t.children) :
    c.size < t.size := by
  have hle : c.size ≤ (t.children.map size).sum :=
    List.single_le_sum (fun _ _ => Nat.zero_le _) _ (List.mem_map_of_mem hc)
  rw [size_eq t]
  omega

theorem Placed.child (hok : SourceValidation.FlowOk source flow) {size : ℕ} {a b : Name}
    (ha : Placed flows flow (size + 1) a) (hab : flow.Parent a b) : Placed flows flow size b := by
  obtain ⟨path, t, ⟨_, _, node, below, hfind, -, -, hspawn, hchildren⟩, hsize⟩ := ha
  obtain ⟨node', hfind', hb⟩ := hab
  obtain rfl : node = node' := Option.some.inj (hfind.symm.trans hfind')
  obtain ⟨path', hbelow⟩ : ∃ path', (⟨flow, b, path'⟩ : Position) ∈ below := by
    obtain rfl | ⟨count, child, hbody, rfl⟩ | ⟨callee, called, hbody, -, rfl⟩ := spawn_cases hspawn
    · exact ⟨path, List.mem_map_of_mem hb⟩
    · -- a validated repetition has at least one round
      have hcount := hok.bodies node (List.mem_of_find?_eq_some hfind)
      rw [hbody] at hcount hb
      obtain rfl := List.mem_singleton.mp hb
      exact ⟨_, List.mem_map.mpr ⟨0, List.mem_range.mpr (Nat.pos_of_ne_zero hcount.1), rfl⟩⟩
    · rw [hbody] at hb
      cases hb
  obtain ⟨c, hc, hmatch⟩ := exists_right_of_forall₂ hchildren hbelow
  have hlt := CompiledNode.size_lt_of_child hc
  exact ⟨path', c, hmatch, by omega⟩

/-- A node that is expanded is not below itself. -/
theorem Matches.acyclic (hok : SourceValidation.FlowOk source pos.flow) (h : Matches flows pos t) :
    ¬ TransGen pos.flow.Parent pos.id pos.id := by
  intro hcycle
  have hdown : ∀ {size a b}, TransGen pos.flow.Parent a b → Placed flows pos.flow (size + 1) a →
      Placed flows pos.flow size b := by
    intro size a b hab
    induction hab generalizing size with
    | single hstep => exact fun ha => ha.child hok hstep
    | tail _ hstep ih =>
      intro ha
      obtain ⟨path, t, hmatch, hsize⟩ := ih ha
      exact Placed.child hok ⟨path, t, hmatch, by omega⟩ hstep
  -- going round once more leaves a smaller expansion of the same node
  have hnever : ∀ size, ¬ Placed flows pos.flow size pos.id := by
    intro size
    induction size with
    | zero =>
      rintro ⟨path, t, -, hsize⟩
      have hpos := t.size_pos
      omega
    | succ size ih => exact fun hplaced => ih (hdown hcycle hplaced)
  exact hnever t.size ⟨pos.path, t, h, le_rfl⟩

/-- No two nodes of an expansion are at the same location. -/
theorem Matches.distinct (hflows : ∀ name f, flows.get? name = some f →
      SourceValidation.FlowOk source f) (h : Matches flows pos t)
    (hok : SourceValidation.FlowOk source pos.flow) :
    (t.nodes.map CompiledNode.source).Nodup := by
  induction t generalizing pos with
  | h t ih =>
  have hacyclic := h.acyclic hok
  obtain ⟨_, _, node, below, hfind, hsource, hlabel, hspawn, hchildren⟩ := h
  have hid := Flow.id_of_find hfind
  have hroot : Owned pos.flow.id pos.path pos.id t.source :=
    .here (by rw [hsource]) (by rw [hsource, hid]) (by rw [hsource])
  rw [nodes_eq, List.map_cons, List.map_flatMap, List.nodup_cons, List.nodup_flatMap]
  -- the three parts are shown for each kind of places below the node
  obtain rfl | ⟨count, child, -, rfl⟩ | ⟨callee, called, -, hcalled, rfl⟩ := spawn_cases hspawn
  · refine ⟨?_, ?_, ?_⟩
    · intro hmem
      obtain ⟨c, hc, hmem⟩ := List.mem_flatMap.mp hmem
      obtain ⟨n, hn, heq⟩ := List.mem_map.mp hmem
      obtain ⟨_, hpos', hmatch⟩ := exists_left_of_forall₂ hchildren hc
      obtain ⟨name, hname, rfl⟩ := List.mem_map.mp hpos'
      obtain ⟨owner, hbelow, howned⟩ := hmatch.owned n hn
      rw [heq] at howned
      obtain rfl := howned.unique hroot
      exact hacyclic (TransGen.head' ⟨node, hfind, hname⟩ hbelow)
    · intro c hc
      obtain ⟨_, hpos', hmatch⟩ := exists_left_of_forall₂ hchildren hc
      obtain ⟨name, -, rfl⟩ := List.mem_map.mp hpos'
      exact ih c hc hmatch hok
    · have hnames : (node.body.children.map fun child =>
          (⟨pos.flow, child, pos.path⟩ : Position)).Pairwise fun p q =>
          ∃ a ∈ node.body.children, ∃ b ∈ node.body.children, a ≠ b ∧
            p = ⟨pos.flow, a, pos.path⟩ ∧ q = ⟨pos.flow, b, pos.path⟩ := by
        have hnodup := (List.nodup_flatMap.mp hok.nodup_children).1 node
          (List.mem_of_find?_eq_some hfind)
        rw [List.pairwise_map]
        refine hnodup.imp_of_mem fun ha hb hne => ?_
        exact ⟨_, ha, _, hb, hne, rfl, rfl⟩
      refine pairwise_of_forall₂ hchildren hnames ?_
      rintro _ _ c d hc hd ⟨a, ha, b, hb, hne, rfl, rfl⟩ place hplace hplace'
      obtain ⟨n, hn, rfl⟩ := List.mem_map.mp hplace
      obtain ⟨m, hm, heq⟩ := List.mem_map.mp hplace'
      obtain ⟨owner, hbelow, howned⟩ := hc.owned n hn
      obtain ⟨owner', hbelow', howned'⟩ := hd.owned m hm
      rw [heq] at howned'
      obtain rfl := howned.unique howned'
      exact hacyclic (hok.cyclic_of_siblings ⟨node, hfind, ha⟩ ⟨node, hfind, hb⟩ hne hbelow hbelow')
  · refine ⟨?_, ?_, ?_⟩
    · intro hmem
      obtain ⟨c, hc, hmem⟩ := List.mem_flatMap.mp hmem
      obtain ⟨n, hn, heq⟩ := List.mem_map.mp hmem
      obtain ⟨_, hpos', hmatch⟩ := exists_left_of_forall₂ hchildren hc
      obtain ⟨i, -, rfl⟩ := List.mem_map.mp hpos'
      obtain ⟨rest, hrest⟩ := hmatch.extends n hn
      rw [heq, hsource] at hrest
      simp at hrest
    · intro c hc
      obtain ⟨_, hpos', hmatch⟩ := exists_left_of_forall₂ hchildren hc
      obtain ⟨i, -, rfl⟩ := List.mem_map.mp hpos'
      exact ih c hc hmatch hok
    · have hrounds : ((List.range count).map fun i =>
          (⟨pos.flow, child, pos.path ++ [repeatStep node.id i]⟩ : Position)).Pairwise fun p q =>
          ∃ i j, i ≠ j ∧ p.path = pos.path ++ [repeatStep node.id i] ∧
            q.path = pos.path ++ [repeatStep node.id j] := by
        rw [List.pairwise_map]
        exact List.nodup_range.imp fun hne => ⟨_, _, hne, rfl, rfl⟩
      refine pairwise_of_forall₂ hchildren hrounds ?_
      rintro p q c d hc hd ⟨i, j, hne, hp, hq⟩ place hplace hplace'
      obtain ⟨n, hn, rfl⟩ := List.mem_map.mp hplace
      obtain ⟨m, hm, heq⟩ := List.mem_map.mp hplace'
      obtain ⟨rest, hrest⟩ := hc.extends n hn
      obtain ⟨rest', hrest'⟩ := hd.extends m hm
      rw [heq, hrest, hp, hq, List.append_assoc, List.append_assoc] at hrest'
      have hstep := (List.cons.inj (List.append_cancel_left hrest')).1
      exact hne (repeatStep_inj hstep).2
  · obtain ⟨c, d, hmatch, hnil, heq⟩ := List.forall₂_cons_left_iff.mp hchildren
    obtain rfl := List.forall₂_nil_left_iff.mp hnil
    rw [heq]
    refine ⟨?_, ?_, List.pairwise_singleton _ _⟩
    · intro hmem
      obtain ⟨n, hn, hsame⟩ := List.mem_map.mp (by simpa using hmem)
      obtain ⟨rest, hrest⟩ := hmatch.extends n hn
      rw [hsame, hsource] at hrest
      simp at hrest
    · intro c' hc'
      obtain rfl := List.mem_singleton.mp hc'
      exact ih c' (by simp [heq]) hmatch (hflows callee called hcalled)

end RxSolutions.Process
