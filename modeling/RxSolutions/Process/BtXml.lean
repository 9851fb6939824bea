import RxSolutions.Markup.Xml
import RxSolutions.Process.Frontier
import RxSolutions.Process.Validation

/-!
# The XML of a resolved process

A resolved process is written as an XML document for the behaviour tree engine. The generator
puts the text together line by line; what it writes is the rendering of a document.
-/

namespace RxSolutions.Process

open Domain Durable
open CompiledNode (Forest Holds idsOf forest_root fits_singleton holds_empty idsOf_append
  union_idsOf_singleton)

/-! ## The generator -/

/-- `str::replace` of one character. -/
def replace (c : Char) (text value : String) : String :=
  String.ofList (value.toList.flatMap fun x => if x = c then text.toList else [x])

/-- A text in the value of an attribute. -/
def escape (value : String) : String :=
  replace '&' "&amp;" value |> replace '<' "&lt;" |> replace '>' "&gt;" |> replace '"' "&quot;" |>
    replace (Char.ofNat 39) "&apos;"

/-- One attribute, as it is written. -/
def written (name value : String) : String := " " ++ name ++ "=\"" ++ value ++ "\""

/-- The lines of a node around those of its children. -/
def tagged (tag id attributes : String) (children : List CompiledNode) (depth : ℕ)
    (below : Except String String) : Except String String :=
  if 68 < depth then .error "XML depth limit"
  else
    let pad := String.ofList (List.replicate (2 * depth) ' ')
    let start := pad ++ "<" ++ tag ++ " node_id=\"" ++ escape id ++ "\"" ++ attributes
    if children.isEmpty then .ok (start ++ "/>\n")
    else
      match below with
      | .error e => .error e
      | .ok below => .ok (start ++ ">\n" ++ below ++ pad ++ "</" ++ tag ++ ">\n")

mutual

/-- The element of a node at its depth. -/
def emit : CompiledNode → ℕ → Except String String
  | .sequence id _ children, depth =>
    tagged "RXSequence" id "" children depth (emitAll children (depth + 1))
  | .parallelAll id _ children, depth =>
    tagged "RXParallelAll" id "" children depth (emitAll children (depth + 1))
  | .branch id _ condition whenTrue whenFalse, depth =>
    tagged "RXBranch" id (written "condition_id" (escape condition)) [whenTrue, whenFalse] depth
      (match emit whenTrue (depth + 1) with
        | .error e => .error e
        | .ok first =>
          match emit whenFalse (depth + 1) with
          | .error e => .error e
          | .ok second => .ok (first ++ second))
  | .operation id _ binding, depth =>
    tagged "RXOperation" id (written "binding" (escape binding)) [] depth (.ok "")
  | .wait id _ condition timeoutNs, depth =>
    tagged "RXWait" id
      (written "condition_id" (escape condition) ++ written "timeout_ns" (toString timeoutNs))
      [] depth (.ok "")
  | .intervention id _ procedure, depth =>
    tagged "RXIntervention" id (written "procedure_digest" procedure.sha256) [] depth (.ok "")

/-- The elements of a list of nodes. -/
def emitAll : List CompiledNode → ℕ → Except String String
  | [], _ => .ok ""
  | child :: children, depth =>
    match emit child depth with
    | .error e => .error e
    | .ok first =>
      match emitAll children depth with
      | .error e => .error e
      | .ok rest => .ok (first ++ rest)

end

/-- The XML of a process, with its digest. -/
def generate [Hashing] (p : ResolvedProcess) : Except String String :=
  match resolvedDigest p with
  | .error e => .error e
  | .ok digest =>
    match emit p.root 2 with
    | .error e => .error e
    | .ok body => .ok ("<root BTCPP_format=\"4\" main_tree_to_execute=\"RXMain\">\n" ++
        "  <!-- RX resolved process: " ++ digest ++ " -->\n" ++
        "  <BehaviorTree ID=\"RXMain\">\n" ++ body ++ "  </BehaviorTree>\n</root>\n")

/-! ## The document -/

/-- The tag of a node's element. -/
def tag : CompiledNode.Label → String
  | .sequence => "RXSequence"
  | .parallelAll => "RXParallelAll"
  | .branch _ => "RXBranch"
  | .operation _ => "RXOperation"
  | .wait .. => "RXWait"
  | .intervention _ => "RXIntervention"

/-- The attributes after the identity. -/
def attributesOf : CompiledNode.Label → List (String × String)
  | .sequence | .parallelAll => []
  | .branch condition => [("condition_id", condition)]
  | .operation binding => [("binding", binding)]
  | .wait condition timeoutNs => [("condition_id", condition), ("timeout_ns", toString timeoutNs)]
  | .intervention procedure => [("procedure_digest", procedure.sha256)]

/-- The element of a node with given children. -/
def elementWith (n : CompiledNode) (children : List Markup.Node) : Markup.Node :=
  .element (tag n.label) (("node_id", n.id) :: attributesOf n.label) children

mutual

/-- The element that is written for a node. -/
def elementOf : CompiledNode → Markup.Node
  | .sequence id source children =>
    elementWith (.sequence id source children) (elementsOf children)
  | .parallelAll id source children =>
    elementWith (.parallelAll id source children) (elementsOf children)
  | .branch id source condition whenTrue whenFalse =>
    elementWith (.branch id source condition whenTrue whenFalse)
      [elementOf whenTrue, elementOf whenFalse]
  | .operation id source binding => elementWith (.operation id source binding) []
  | .wait id source condition timeoutNs => elementWith (.wait id source condition timeoutNs) []
  | .intervention id source procedure => elementWith (.intervention id source procedure) []

/-- The elements of a list of nodes. -/
def elementsOf : List CompiledNode → List Markup.Node
  | [] => []
  | n :: ns => elementOf n :: elementsOf ns

end

/-- The document of a process with a digest. -/
def documentOf (p : ResolvedProcess) (digest : Digest) : Markup.Node :=
  .element "root" [("BTCPP_format", "4"), ("main_tree_to_execute", "RXMain")]
    [.comment (" RX resolved process: " ++ digest ++ " "),
      .element "BehaviorTree" [("ID", "RXMain")] [elementOf p.root]]

@[simp] theorem elementsOf_eq (ns : List CompiledNode) : elementsOf ns = ns.map elementOf := by
  induction ns with
  | nil => rfl
  | cons n ns ih => rw [elementsOf, ih, List.map_cons]

theorem elementOf_eq (n : CompiledNode) :
    elementOf n = elementWith n (n.children.map elementOf) := by
  cases n <;> simp [elementOf, CompiledNode.children]

/-! ## What is generated -/

theorem toList_replace (c : Char) (text value : String) :
    (replace c text value).toList =
      value.toList.flatMap fun x => if x = c then text.toList else [x] :=
  String.toList_ofList

/-- The replacements one after the other escape each character on its own. -/
theorem toList_escape (value : String) : (escape value).toList = Markup.escape value.toList := by
  simp only [escape, toList_replace, List.flatMap_assoc, Markup.escape]
  congr 1
  funext c
  by_cases hamp : c = '&'
  · subst hamp
    rfl
  by_cases hlt : c = '<'
  · subst hlt
    rfl
  by_cases hgt : c = '>'
  · subst hgt
    rfl
  by_cases hquot : c = '"'
  · subst hquot
    rfl
  by_cases hapos : c = Char.ofNat 39
  · subst hapos
    rfl
  have hplain : Markup.escapeChar c = [c] := by
    rw [Markup.escapeChar, if_neg hamp, if_neg hlt, if_neg hgt, if_neg hquot, if_neg hapos]
  rw [hplain]
  simp only [if_neg hamp, if_neg hlt, if_neg hgt, if_neg hquot, if_neg hapos,
    List.flatMap_cons, List.flatMap_nil, List.append_nil]

/-- Letters, digits and hexadecimal digits are written as they are. -/
theorem escape_eq_self {text : List Char} (h : ∀ c ∈ text, c.isAlphanum = true) :
    Markup.escape text = text := by
  induction text with
  | nil => rfl
  | cons c text ih =>
    have hc := h c List.mem_cons_self
    have hplain : Markup.escapeChar c = [c] := by
      unfold Markup.escapeChar
      split_ifs with h₁ h₂ h₃ h₄ h₅
      all_goals first | rfl | (subst c; revert hc; decide)
    rw [Markup.escape, List.flatMap_cons, hplain]
    exact congrArg (c :: ·) (ih fun d hd => h d (List.mem_cons_of_mem _ hd))

/-- The attributes of a node after its identity, as they are written. -/
def writtenAttributes : CompiledNode.Label → String
  | .sequence | .parallelAll => ""
  | .branch condition => written "condition_id" (escape condition)
  | .operation binding => written "binding" (escape binding)
  | .wait condition timeoutNs =>
    written "condition_id" (escape condition) ++ written "timeout_ns" (toString timeoutNs)
  | .intervention procedure => written "procedure_digest" procedure.sha256

theorem emit_eq (n : CompiledNode) (depth : ℕ) :
    emit n depth = tagged (tag n.label) n.id (writtenAttributes n.label) n.children depth
      (emitAll n.children (depth + 1)) := by
  cases n with
  | branch id source condition a b =>
    have hbelow : (match emit a (depth + 1) with
        | .error e => .error e
        | .ok first =>
          match emit b (depth + 1) with
          | .error e => .error e
          | .ok second => .ok (first ++ second)) = emitAll [a, b] (depth + 1) := by
      rw [emitAll, emitAll, emitAll]
      cases emit a (depth + 1) with
      | error e => rfl
      | ok first =>
        cases emit b (depth + 1) with
        | error e => rfl
        | ok second => simp
    rw [emit, hbelow]
    rfl
  | _ => rfl

theorem toList_written {name value raw : String}
    (h : value.toList = Markup.escape raw.toList) :
    (written name value).toList = Markup.renderAttribute (name, raw) := by
  simp [written, Markup.renderAttribute, h]

theorem isAlphanum_of_isDigest {d : String} (h : IsDigest d) {c : Char} (hc : c ∈ d.toList) :
    c.isAlphanum = true := by
  have hhex := h.2 c hc
  unfold isHex at hhex
  simp only [Bool.or_eq_true, Bool.and_eq_true, decide_eq_true_eq] at hhex
  rw [Char.isAlphanum, Bool.or_eq_true]
  obtain hdigit | ⟨ha, hf⟩ := hhex
  · exact Or.inr hdigit
  · left
    have hle : 'a'.toNat ≤ c.toNat := ha
    have hge : c.toNat ≤ 'f'.toNat := hf
    change (c.isUpper || (decide (c.val ≥ 'a'.val) && decide (c.val ≤ 'z'.val))) = true
    rw [Bool.or_eq_true]
    right
    simp only [Bool.and_eq_true, decide_eq_true_eq, ge_iff_le, UInt32.le_iff_toNat_le]
    exact ⟨hle, hge.trans (by decide)⟩

theorem toList_writtenAttributes {label : CompiledNode.Label} (h : label.Typed) :
    (writtenAttributes label).toList = (attributesOf label).flatMap Markup.renderAttribute := by
  cases label with
  | sequence | parallelAll => rfl
  | branch | operation =>
    simp [writtenAttributes, attributesOf, toList_written (toList_escape _)]
  | wait condition timeoutNs =>
    have hdigits : (toString timeoutNs).toList = Markup.escape (toString timeoutNs).toList := by
      refine (escape_eq_self fun c hc => ?_).symm
      rw [Char.isAlphanum, isDigit_toString hc, Bool.or_true]
    rw [writtenAttributes, String.toList_append, toList_written (toList_escape _),
      toList_written hdigits]
    simp [attributesOf]
  | intervention procedure =>
    have hdigest : procedure.sha256.toList = Markup.escape procedure.sha256.toList :=
      (escape_eq_self fun c hc => isAlphanum_of_isDigest h.1 hc).symm
    rw [writtenAttributes, toList_written hdigest]
    simp [attributesOf]

variable {ts : List CompiledNode}

theorem toList_emitAll {depth : ℕ} {text : String}
    (hts : ∀ t ∈ ts, ∀ text, emit t depth = .ok text → text.toList = (elementOf t).render depth)
    (h : emitAll ts depth = .ok text) :
    text.toList = Markup.renderAll (ts.map elementOf) depth := by
  induction ts generalizing text with
  | nil =>
    cases h
    rfl
  | cons t ts ih =>
    rw [emitAll] at h
    cases hfirst : emit t depth with
    | error e => simp [hfirst] at h
    | ok first =>
      cases hrest : emitAll ts depth with
      | error e => simp [hfirst, hrest] at h
      | ok rest =>
        simp only [hfirst, hrest, Except.ok.injEq] at h
        rw [← h, String.toList_append, hts t List.mem_cons_self _ hfirst,
          ih (fun u hu => hts u (List.mem_cons_of_mem _ hu)) hrest]
        rfl

variable {t : CompiledNode}

/-- What is emitted for a node is the rendering of its element. -/
theorem toList_emit {depth : ℕ} {text : String} (htyped : ∀ n ∈ t.nodes, n.Typed)
    (h : emit t depth = .ok text) :
    text.toList = (elementOf t).render depth := by
  induction t generalizing depth text with
  | h t ih =>
  have hattributes := toList_writtenAttributes (htyped t (CompiledNode.mem_nodes_self t)).label
  have hbelow : ∀ below, emitAll t.children (depth + 1) = .ok below →
      below.toList = Markup.renderAll (t.children.map elementOf) (depth + 1) := by
    intro below
    apply toList_emitAll
    exact fun c hc text =>
      ih c hc fun n hn => htyped n (CompiledNode.mem_nodes_of_child hc hn)
  rw [emit_eq, tagged] at h
  rw [elementOf_eq, elementWith]
  split at h
  · cases h
  dsimp only at h
  cases hchildren : t.children with
  | nil =>
    simp only [hchildren, List.isEmpty_nil, if_true, Except.ok.injEq] at h
    rw [← h]
    simp [Markup.Node.render, Markup.opening, Markup.pad, Markup.renderAttribute, hattributes,
      toList_escape]
  | cons c cs =>
    rw [hchildren] at h hbelow
    simp only [List.isEmpty_cons, Bool.false_eq_true, if_false] at h
    cases hall : emitAll (c :: cs) (depth + 1) with
    | error e => simp [hall] at h
    | ok below =>
      simp only [hall, Except.ok.injEq] at h
      have hbelow := hbelow below hall
      simp only [List.map_cons, Markup.renderAll] at hbelow
      rw [← h]
      simp [Markup.Node.render, Markup.opening, Markup.closing, Markup.pad,
        Markup.renderAttribute, hattributes, toList_escape, hbelow]

theorem emitAll_ok {depth : ℕ} (h : ∀ t ∈ ts, ∃ text, emit t depth = .ok text) :
    ∃ text, emitAll ts depth = .ok text := by
  induction ts with
  | nil => exact ⟨"", rfl⟩
  | cons t ts ih =>
    obtain ⟨first, hfirst⟩ := h t List.mem_cons_self
    obtain ⟨rest, hrest⟩ := ih fun u hu => h u (List.mem_cons_of_mem _ hu)
    exact ⟨first ++ rest, by rw [emitAll, hfirst, hrest]⟩

/-- The depth limit of the generator is above that of the compiler. -/
theorem emit_of_within {levels depth : ℕ} (hwithin : t.Within levels)
    (hdepth : depth + levels ≤ 69) : ∃ text, emit t depth = .ok text := by
  induction t generalizing levels depth with
  | h t ih =>
  cases levels with
  | zero => exact hwithin.elim
  | succ levels =>
    obtain ⟨below, hbelow⟩ : ∃ below, emitAll t.children (depth + 1) = .ok below :=
      emitAll_ok fun c hc => ih c hc (hwithin c hc) (by omega)
    rw [emit_eq, hbelow, tagged, if_neg (by omega)]
    dsimp only
    split
    · exact ⟨_, rfl⟩
    · exact ⟨_, rfl⟩

/-! ## The digest of a well-formed process -/

/-- A control node has children. -/
def Branching (n : CompiledNode) : Prop :=
  n.label = .sequence ∨ n.label = .parallelAll → n.children ≠ []

/-- A tree with room for its nodes is collected. -/
theorem collect_ok {ns : List CompiledNode} {all : SortedMap Name CompiledNode} {depth : ℕ}
    (hall : Holds id ns all) (h : Forest Branching (65 - depth) (idsOf ns) [t]) :
    ∃ all', collect t all depth = .ok all' := by
  induction t generalizing ns all depth with
  | h t ih =>
  obtain ⟨hdepth, ⟨hfits, hchildren⟩, hbelow⟩ := forest_root.mp h
  obtain ⟨hfresh, hroom⟩ := fits_singleton.mp hfits
  rw [← hall.length] at hroom
  rw [← union_idsOf_singleton, ← idsOf_append] at hbelow
  obtain ⟨all', hrest⟩ := (hall.insert hfresh).foldlM_ok (fun _ _ _ _ _ => holds_collect)
    (fun c hc _ _ => ih c hc) hbelow
  exact ⟨all', collect_eq_ok.mpr ⟨hchildren, _,
    place_eq_ok.mpr ⟨hdepth, hroom, hall.get?_eq_none.mpr hfresh, rfl⟩,
    (collectAll_eq ..).trans hrest⟩⟩

variable {p : ResolvedProcess}

theorem resolvedDigest_ok [Hashing] (h : p.WellFormed) :
    resolvedDigest p = .ok (Hashing.process p) := by
  have hforest : Forest Branching 65 ∅ [p.root] := h.forest.imp fun n hfine hlabel => by
    have hbody := hfine.body
    cases n with
    | sequence => exact hbody
    | parallelAll => exact hbody.1
    | _ => simp [CompiledNode.label] at hlabel
  obtain ⟨all, hall⟩ := @collect_ok _ _ _ 0 holds_empty hforest
  rw [resolvedDigest, hall]

/-! ## The whole text -/

theorem generate_eq_ok [Hashing] {xml : String} (h : generate p = .ok xml) :
    ∃ body, emit p.root 2 = .ok body ∧
      xml = "<root BTCPP_format=\"4\" main_tree_to_execute=\"RXMain\">\n" ++
        "  <!-- RX resolved process: " ++ Hashing.process p ++ " -->\n" ++
        "  <BehaviorTree ID=\"RXMain\">\n" ++ body ++ "  </BehaviorTree>\n</root>\n" := by
  unfold generate resolvedDigest at h
  cases hcollect : collect p.root .empty 0 with
  | error e => simp [hcollect] at h
  | ok all =>
    cases hemit : emit p.root 2 with
    | error e => simp [hcollect, hemit] at h
    | ok body => simp_all

/-- A process of the compiler has XML. -/
theorem generate_of_wellFormed [Hashing] (h : p.WellFormed) :
    ∃ xml, generate p = .ok xml := by
  obtain ⟨body, hbody⟩ := emit_of_within h.within (by omega : 2 + 65 ≤ 69)
  rw [generate, resolvedDigest_ok h, hbody]
  exact ⟨_, rfl⟩

/-- The generated text is the rendering of the document. -/
theorem toList_generate [Hashing] {xml : String} (htyped : ∀ n ∈ p.root.nodes, n.Typed)
    (h : generate p = .ok xml) :
    xml.toList = (documentOf p (Hashing.process p)).render 0 := by
  obtain ⟨body, hbody, rfl⟩ := generate_eq_ok h
  simp [documentOf, Markup.Node.render, Markup.renderAll, Markup.opening, Markup.closing,
    Markup.pad, Markup.renderAttribute, Markup.escape, Markup.escapeChar, toList_emit htyped hbody]

end RxSolutions.Process
