import RxSolutions.Bt.Definitions
import RxSolutions.Process.Agreement
import RxSolutions.Process.BtXml

/-!
# The XML that the engine accepts

Before the engine builds a tree from XML it compares the document with the definitions of its
context, node by node. The generated XML of a process passes exactly when the definitions are
those of the process.
-/

namespace RxSolutions.Bt

open Domain Durable Process
open Markup (Json)
open CompiledNode (Fits Forest Holds fits_singleton forest_cons forest_nil forest_root
  forest_singleton holds_empty idsOf idsOf_append mem_nodes_of_child mem_nodes_self nodes
  union_idsOf_nodes)

/-! ## The validator -/

/-- An attribute that has to be there. -/
def attributeOf (attributes : List (String × String)) (name : String) : Except String String :=
  match attributes.lookup name with
  | some value => .ok value
  | none => .error ("missing XML attribute: " ++ name)

/-- No attributes but the named ones. -/
def checkAttributes (attributes : List (String × String)) (names : List String) :
    Except String Unit :=
  refuse (∃ a ∈ attributes, a.1 ∉ names) "unapproved XML attribute/script"

/-- A node that is an element. -/
def isElement : Markup.Node → Bool
  | .element .. => true
  | _ => false

/-- A node that is text. -/
def isText : Markup.Node → Bool
  | .text _ => true
  | _ => false

/-- Elements and comments only. -/
def childrenOnly (children : List Markup.Node) : Except String Unit :=
  refuse (∃ child ∈ children, isText child = true) "unapproved XML text/declaration"

/-- The tag of each kind of node. -/
def tagOf : Kind → String
  | .sequence => "RXSequence"
  | .parallelAll => "RXParallelAll"
  | .branch => "RXBranch"
  | .operation => "RXOperation"
  | .wait => "RXWait"
  | .intervention => "RXIntervention"

/-- The attribute that holds the argument of a node. -/
def argumentName : Kind → Option String
  | .operation => some "binding"
  | .branch | .wait => some "condition_id"
  | .intervention => some "procedure_digest"
  | .sequence | .parallelAll => none

/-- The argument is that of the definition. -/
def checkArgument (d : Definition) (attributes : List (String × String)) : Except String Unit :=
  match argumentName d.kind with
  | none => .ok ()
  | some name => do
    let value ← attributeOf attributes name
    refuse (value ≠ d.argument) "XML binding differs from resolved process"

/-- The time limit of a wait is that of the definition. -/
def checkTimeout (d : Definition) (attributes : List (String × String)) : Except String Unit :=
  if d.kind = .wait then do
    let value ← attributeOf attributes "timeout_ns"
    refuse (∀ parsed ∈ fromChars value, parsed = 0 ∨ parsed ≠ d.timeoutNs)
      "XML wait limit differs from resolved process"
  else .ok ()

/-- The attributes that a node may have. -/
def allowed (d : Definition) : List String :=
  "node_id" :: (argumentName d.kind).toList ++ if d.kind = .wait then ["timeout_ns"] else []

/-- The checks of an element before those of its children. -/
def checkElement (c : Context) (name : String) (attributes : List (String × String))
    (children : List Markup.Node) (expected : Name) (visited : Finset Name) (depth : ℕ) :
    Except String Definition := do
  refuse (64 < depth ∨ 4096 ≤ visited.card) "XML shape/size"
  let id ← attributeOf attributes "node_id"
  refuse (id ≠ expected ∨ id ∈ visited) "XML node identity/order mismatch"
  let d ← c.definition id
  refuse (name ≠ tagOf d.kind) "XML node kind mismatch"
  checkArgument d attributes
  checkTimeout d attributes
  checkAttributes attributes (allowed d)
  childrenOnly children
  return d

mutual

/-- `node`: what has been visited afterwards. -/
def validateNode (c : Context) : Markup.Node → Name → Finset Name → ℕ →
    Except String (Finset Name)
  | .element name attributes children, expected, visited, depth => do
    let d ← checkElement c name attributes children expected visited depth
    let visited ← validateNodes c children d.children (insert expected visited) (depth + 1)
    refuse (d.kind = .branch ∧ d.children.length ≠ 2) "branch child count"
    return visited
  | .comment _, _, _, _ | .text _, _, _, _ => .error "XML shape/size"

/-- The loop over the expected children, with the elements in order. -/
def validateNodes (c : Context) : List Markup.Node → List Name → Finset Name → ℕ →
    Except String (Finset Name)
  | [], [], visited, _ => .ok visited
  | [], _ :: _, _, _ => .error "XML shape/size"
  | .element _ _ _ :: _, [], _, _ => .error "extra XML child"
  | .element name attributes children :: rest, expected :: more, visited, depth => do
    let visited ← validateNode c (.element name attributes children) expected visited depth
    validateNodes c rest more visited depth
  | .comment _ :: rest, expected, visited, depth
  | .text _ :: rest, expected, visited, depth => validateNodes c rest expected visited depth

end

/-- The only element of some nodes. -/
def onlyElement (why : String) (nodes : List Markup.Node) :
    Except String (String × List (String × String) × List Markup.Node) :=
  match nodes.filter isElement with
  | [.element name attributes children] => .ok (name, attributes, children)
  | _ => .error why

/-- The XML is the tree of the definitions. -/
def validateXml (parser : Markup.Parser) (xml : String) (c : Context) : Except String Unit := do
  refuse (1048576 < xml.utf8ByteSize) "XML size limit"
  match parser.parse xml with
  | none => throw "invalid XML"
  | some document =>
    childrenOnly document
    let (name, attributes, children) ← onlyElement "XML root" document
    refuse (name ≠ "root") "XML root"
    checkAttributes attributes ["BTCPP_format", "main_tree_to_execute"]
    childrenOnly children
    let format ← attributeOf attributes "BTCPP_format"
    refuse (format ≠ "4") "BT XML version/tree"
    let main ← attributeOf attributes "main_tree_to_execute"
    refuse (main ≠ "RXMain") "BT XML version/tree"
    let (name, attributes, children) ← onlyElement "one resolved BehaviorTree required" children
    refuse (name ≠ "BehaviorTree") "one resolved BehaviorTree required"
    checkAttributes attributes ["ID"]
    childrenOnly children
    let id ← attributeOf attributes "ID"
    refuse (id ≠ "RXMain") "tree ID"
    let (name, attributes, children) ← onlyElement "one root node required" children
    let visited ← validateNode c (.element name attributes children) c.root ∅ 0
    refuse (visited.card ≠ c.definitions.entries.length) "resolved nodes missing from XML"

/-! ## One element -/

theorem attributeOf_cons (k v name : String) (rest : List (String × String)) :
    attributeOf ((k, v) :: rest) name = if name = k then .ok v else attributeOf rest name := by
  unfold attributeOf
  rw [List.lookup_cons]
  by_cases h : name = k
  · simp [h]
  · rw [if_neg h, beq_eq_false_iff_ne.mpr h]

variable {d : Definition}

theorem definition_eq_ok {c : Context} {id : Name} :
    c.definition id = .ok d ↔ c.definitions.get? id = some d := by
  unfold Context.definition
  cases c.definitions.get? id <;> simp

theorem tagOf_injective : Function.Injective tagOf := by
  intro a b h
  cases a <;> cases b <;> first | rfl | (revert h; decide)

theorem tag_eq (t : CompiledNode) : tag t.label = tagOf (kindOf t) := by
  cases t <;> rfl

/-- A definition says of a node what the XML says. -/
structure Agrees (t : CompiledNode) (d : Definition) : Prop where
  kind : d.kind = kindOf t
  argument : argumentName d.kind ≠ none → (definitionOf t).argument = d.argument
  timeout : d.kind = .wait → (definitionOf t).timeoutNs = d.timeoutNs ∧ d.timeoutNs ≠ 0

variable {t : CompiledNode}

/-- The attributes of an element against a definition of its kind. -/
theorem checkAttributes_iff (htyped : t.Typed) (hkind : d.kind = kindOf t) :
    (checkArgument d (("node_id", t.id) :: attributesOf t.label) = .ok () ∧
      checkTimeout d (("node_id", t.id) :: attributesOf t.label) = .ok () ∧
      checkAttributes (("node_id", t.id) :: attributesOf t.label) (allowed d) = .ok ()) ↔
    Agrees t d := by
  have hagrees : Agrees t d ↔ (argumentName (kindOf t) ≠ none →
      (definitionOf t).argument = d.argument) ∧
      (kindOf t = .wait → (definitionOf t).timeoutNs = d.timeoutNs ∧ d.timeoutNs ≠ 0) := by
    rw [← hkind]
    exact ⟨fun h => ⟨h.argument, h.timeout⟩, fun h => ⟨hkind, h.1, h.2⟩⟩
  rw [hagrees]
  cases t with
  | sequence | parallelAll =>
    simp [checkArgument, checkTimeout, checkAttributes, refuse_eq_ok, allowed, hkind, kindOf,
      argumentName, attributesOf, CompiledNode.label]
  | branch | operation | intervention =>
    simp [checkArgument, checkTimeout, checkAttributes, refuse_eq_ok, allowed, hkind, kindOf,
      argumentName, attributesOf, CompiledNode.label, attributeOf_cons, Checks.bind_eq_ok,
      definitionOf]
  | wait id source condition timeoutNs =>
    have hparsed : fromChars timeoutNs.repr = some timeoutNs :=
      fromChars_toString htyped.label.2
    simp [checkArgument, checkTimeout, checkAttributes, refuse_eq_ok, allowed, hkind, kindOf,
      argumentName, attributesOf, CompiledNode.label, attributeOf_cons, Checks.bind_eq_ok,
      definitionOf, hparsed]

variable {visited : Finset Name}

/-- The checks of the element of a node. -/
theorem checkElement_eq_ok {c : Context} (htyped : t.Typed) {expected : Name} {depth : ℕ} :
    checkElement c (tag t.label) (("node_id", t.id) :: attributesOf t.label)
        (t.children.map elementOf) expected visited depth = .ok d ↔
      t.id = expected ∧ depth ≤ 64 ∧ Fits visited [t] ∧ c.definitions.get? t.id = some d ∧
        Agrees t d := by
  have htext : ¬ ∃ child ∈ t.children.map elementOf, isText child = true := by
    rintro ⟨child, hchild, htext⟩
    obtain ⟨n, -, rfl⟩ := List.mem_map.mp hchild
    rw [elementOf_eq, elementWith] at htext
    cases htext
  have hid : attributeOf (("node_id", t.id) :: attributesOf t.label) "node_id" = .ok t.id := by
    rw [attributeOf_cons, if_pos rfl]
  unfold checkElement
  simp only [Checks.bind_eq_ok, Unique.exists_iff, PUnit.default_eq_unit, refuse_eq_ok, hid,
    definition_eq_ok, childrenOnly, htext, fits_singleton, Except.ok.injEq, exists_eq_left',
    true_and, not_false_eq_true, pure, Except.pure]
  constructor
  · rintro ⟨hlimits, hexpected, d', hd, htag, hargument, htimeout, hattributes, rfl⟩
    rw [not_not, tag_eq] at htag
    have hagrees := (checkAttributes_iff htyped (tagOf_injective htag).symm).mp
      ⟨hargument, htimeout, hattributes⟩
    simp only [not_or, not_lt, not_le, not_not] at hlimits hexpected
    exact ⟨hexpected.1, hlimits.1, ⟨hexpected.2, hlimits.2⟩, hd, hagrees⟩
  · rintro ⟨hexpected, hdepth, ⟨hnew, hroom⟩, hd, hagrees⟩
    obtain ⟨hargument, htimeout, hattributes⟩ :=
      (checkAttributes_iff htyped hagrees.kind).mpr hagrees
    have htag : tag t.label = tagOf d.kind := by rw [tag_eq, hagrees.kind]
    exact ⟨by omega, by simp [hexpected, hexpected ▸ hnew], d, hd, not_not.mpr htag, hargument,
      htimeout, hattributes, rfl⟩

/-! ## Whole trees -/

/-- Fields that the XML says nothing about are not set. -/
structure Definition.Plain (d : Definition) : Prop where
  argument : argumentName d.kind = none → d.argument = ""
  timeout : d.kind ≠ .wait → d.timeoutNs = 0

/-- The definition of a node in a context is that of the node. -/
def Found (c : Context) (n : CompiledNode) : Prop :=
  c.definitions.get? n.id = some (definitionOf n) ∧ Timed n

theorem found_iff {c : Context} {n : CompiledNode} (hplain : d.Plain)
    (hd : c.definitions.get? n.id = some d) :
    Found c n ↔ Agrees n d ∧ n.children.map CompiledNode.id = d.children := by
  rw [Found, hd, Option.some.injEq]
  constructor
  · rintro ⟨rfl, hwait⟩
    refine ⟨⟨rfl, fun _ => rfl, fun hkind => ⟨rfl, ?_⟩⟩, rfl⟩
    cases n with
    | wait => exact hwait _ _ rfl
    | _ => cases hkind
  · rintro ⟨hagrees, hchildren⟩
    have heq : d = definitionOf n := by
      obtain ⟨hargument, htimeout⟩ := hplain
      obtain ⟨hkind, hargument', htimeout'⟩ := hagrees
      obtain ⟨kind, children, argument, timeoutNs⟩ := d
      dsimp only at hkind hchildren hargument htimeout hargument' htimeout'
      subst hkind hchildren
      cases n <;> simp_all [definitionOf, kindOf, argumentName, CompiledNode.label]
    refine ⟨heq, ?_⟩
    intro condition timeoutNs hlabel
    cases n with
    | wait =>
      cases hlabel
      have htimeout := (hagrees.timeout hagrees.kind).2
      rw [heq] at htimeout
      exact htimeout
    | _ => cases hlabel

section Context

variable {c : Context}

theorem validateNodes_eq_ok {ts : List CompiledNode} {depth : ℕ} {visited visited' : Finset Name}
    {names : List Name} (hroom : visited.card ≤ 4096)
    (hts : ∀ t ∈ ts, ∀ expected visited visited',
      validateNode c (elementOf t) expected visited depth = .ok visited' ↔
        t.id = expected ∧ Forest (Found c) (65 - depth) visited [t] ∧
          visited' = visited ∪ idsOf t.nodes) :
    validateNodes c (ts.map elementOf) names visited depth = .ok visited' ↔
      ts.map CompiledNode.id = names ∧ Forest (Found c) (65 - depth) visited ts ∧
        visited' = visited ∪ idsOf (ts.flatMap nodes) := by
  induction ts generalizing names visited with
  | nil =>
    cases names with
    | nil => simp [validateNodes, forest_nil hroom, idsOf, eq_comm]
    | cons expected more => simp [validateNodes]
  | cons t ts ih =>
    have helement : ∃ name attributes children, elementOf t = .element name attributes children :=
      ⟨_, _, _, elementOf_eq t⟩
    obtain ⟨name, attributes, children, helement⟩ := helement
    cases names with
    | nil => simp [helement, validateNodes]
    | cons expected more =>
      have ih := fun (visited : Finset Name) (hroom : visited.card ≤ 4096) =>
        @ih visited more hroom fun u hu => hts u (List.mem_cons_of_mem _ hu)
      rw [List.map_cons, helement, validateNodes, ← helement, Checks.bind_eq_ok, forest_cons,
        List.map_cons, List.cons.injEq, List.flatMap_cons, idsOf_append, ← Finset.union_assoc]
      constructor
      · rintro ⟨mid, hfirst, hrest⟩
        obtain ⟨hid, hmatches, rfl⟩ := (hts t List.mem_cons_self _ _ _).mp hfirst
        obtain ⟨hids, hmore, rfl⟩ := (ih _ hmatches.card_le).mp hrest
        exact ⟨⟨hid, hids⟩, ⟨hmatches, hmore⟩, rfl⟩
      · rintro ⟨⟨hid, hids⟩, ⟨hmatches, hrest⟩, rfl⟩
        exact ⟨_, (hts t List.mem_cons_self _ _ _).mpr ⟨hid, hmatches, rfl⟩,
          (ih _ hmatches.card_le).mpr ⟨hids, hrest, rfl⟩⟩

/-- What the validator accepts of a tree. -/
theorem validateNode_eq_ok (hplain : ∀ id d, c.definitions.get? id = some d → d.Plain)
    {t : CompiledNode} (htyped : ∀ n ∈ t.nodes, n.Typed) {expected : Name}
    {visited visited' : Finset Name} {depth : ℕ} :
    validateNode c (elementOf t) expected visited depth = .ok visited' ↔
      t.id = expected ∧ Forest (Found c) (65 - depth) visited [t] ∧
        visited' = visited ∪ idsOf t.nodes := by
  induction t generalizing expected visited visited' depth with
  | h t ih =>
  have hbelow := fun (names : List Name) (hroom : (insert t.id visited).card ≤ 4096) =>
    @validateNodes_eq_ok c t.children (depth + 1) (insert t.id visited) visited' names hroom
      fun u hu _ _ _ => ih u hu fun n hn => htyped n (mem_nodes_of_child hu hn)
  rw [elementOf_eq, elementWith, validateNode, Checks.bind_eq_ok, forest_root, union_idsOf_nodes]
  simp only [checkElement_eq_ok (htyped t (mem_nodes_self t)), Checks.bind_eq_ok, pure, Except.pure,
    Except.ok.injEq]
  constructor
  · rintro ⟨d, ⟨rfl, hdepth, hfits, hd, hagrees⟩, visited'', hrest, -, -, rfl⟩
    obtain ⟨hchildren, hmatches, rfl⟩ := (hbelow _ hfits.card_insert_le).mp hrest
    exact ⟨rfl, ⟨hdepth, ⟨hfits, (found_iff (hplain _ _ hd) hd).mpr ⟨hagrees, hchildren⟩⟩,
      hmatches⟩, rfl⟩
  · rintro ⟨rfl, ⟨hdepth, ⟨hfits, hfound⟩, hmatches⟩, rfl⟩
    have hd := hfound.1
    obtain ⟨hagrees, hchildren⟩ := (found_iff (hplain _ _ hd) hd).mp hfound
    refine ⟨_, ⟨rfl, hdepth, hfits, hd, hagrees⟩, _, (hbelow _ hfits.card_insert_le).mpr
      ⟨hchildren, hmatches, rfl⟩, (), ?_, rfl⟩
    -- a branch has its two children
    rw [refuse_eq_ok]
    rintro ⟨hkind, hlength⟩
    cases t with
    | branch => exact hlength rfl
    | _ => cases hkind

end Context

/-! ## The whole document -/

theorem printableAll_iff (ns : List Markup.Node) :
    Markup.PrintableAll ns ↔ ∀ n ∈ ns, n.Printable := by
  induction ns with
  | nil => simp [Markup.PrintableAll]
  | cons n ns ih => simp [Markup.PrintableAll, ih]

theorem printable_elementOf (t : CompiledNode) : (elementOf t).Printable := by
  induction t with
  | h t ih =>
  rw [elementOf_eq, elementWith, Markup.Node.Printable, printableAll_iff]
  refine ⟨?_, ?_, ?_⟩
  · cases t <;> (simp only [CompiledNode.label, tag]; decide +kernel)
  · intro a ha
    have hname :
        a.1 ∈ ["node_id", "condition_id", "binding", "timeout_ns", "procedure_digest"] := by
      obtain rfl | ha := List.mem_cons.mp ha
      · simp
      · cases t <;> simp [CompiledNode.label, attributesOf] at ha <;> aesop
    have hnames : ∀ name ∈ ["node_id", "condition_id", "binding", "timeout_ns",
      "procedure_digest"], Markup.IsName name := by decide +kernel
    exact hnames a.1 hname
  · intro n hn
    obtain ⟨u, hu, rfl⟩ := List.mem_map.mp hn
    exact ih u hu

theorem printable_documentOf (p : ResolvedProcess) {digest : Digest} (h : IsDigest digest) :
    (documentOf p digest).Printable := by
  have hdash : '-' ∉ digest.toList := by
    intro hmem
    have hhex := h.2 _ hmem
    revert hhex
    decide
  have hroot := printable_elementOf p.root
  refine ⟨by decide +kernel, by decide +kernel, ?_,
    ⟨by decide +kernel, by decide +kernel, hroot, trivial⟩, trivial⟩
  change '-' ∉ _
  simp [hdash]

variable {p : ResolvedProcess} {xml : String}

theorem parse_generate [Hashing] [LawfulHashing] (parser : Markup.Parser)
    (htyped : ∀ n ∈ p.root.nodes, n.Typed) (h : generate p = .ok xml) :
    parser.parse xml = some [documentOf p (Hashing.process p)] := by
  rw [← parser.parse_render _ (printable_documentOf p (LawfulHashing.process p)),
    ← toList_generate htyped h, String.ofList_toList]

/-- The frame of the document is as required. -/
theorem validateXml_document (parser : Markup.Parser) {digest : Digest} {c : Context}
    (h : parser.parse xml = some [documentOf p digest]) :
    validateXml parser xml c = (do
      refuse (1048576 < xml.utf8ByteSize) "XML size limit"
      let visited ← validateNode c (elementOf p.root) c.root ∅ 0
      refuse (visited.card ≠ c.definitions.entries.length) "resolved nodes missing from XML") := by
  unfold validateXml
  rw [h, documentOf, elementOf_eq, elementWith]
  rfl

/-- The generated XML passes when the context agrees with the process and has no other
definitions. -/
theorem validateXml_generate [Hashing] [LawfulHashing] (parser : Markup.Parser) {c : Context}
    (htyped : ∀ n ∈ p.root.nodes, n.Typed)
    (hplain : ∀ id d, c.definitions.get? id = some d → d.Plain) (h : generate p = .ok xml) :
    validateXml parser xml c = .ok () ↔ xml.utf8ByteSize ≤ 1048576 ∧ p.root.id = c.root ∧
      Forest (Found c) 65 ∅ [p.root] ∧
      (idsOf p.root.nodes).card = c.definitions.entries.length := by
  rw [validateXml_document parser (parse_generate parser htyped h)]
  simp only [Checks.bind_eq_ok, Unique.exists_iff, PUnit.default_eq_unit, refuse_eq_ok, not_lt,
    not_not, validateNode_eq_ok hplain htyped, Nat.sub_zero, Finset.empty_union]
  constructor
  · rintro ⟨hsize, visited, ⟨hid, hmatches, rfl⟩, hcard⟩
    exact ⟨hsize, hid, hmatches, hcard⟩
  · rintro ⟨hsize, hid, hmatches, hcard⟩
    exact ⟨hsize, _, ⟨hid, hmatches, rfl⟩, hcard⟩

/-! ## Definitions and documents -/

theorem definitionOf_plain (n : CompiledNode) : (definitionOf n).Plain := by
  constructor <;> cases n <;> simp [definitionOf, kindOf, argumentName, CompiledNode.label]

theorem plain_of_definitionsOf {root : Name} {defs : SortedMap Name Definition}
    (h : definitionsOf p = .ok (root, defs)) : ∀ id d, defs.get? id = some d → d.Plain := by
  intro id d hd
  obtain ⟨-, hcollect⟩ := definitionsOf_eq_ok.mp h
  obtain ⟨n, -, -, rfl⟩ := (holds_collect holds_empty hcollect id d).mp hd
  exact definitionOf_plain n

/-- Definitions that agree with a tree and are no more than its nodes are those of the tree. -/
theorem definitionsOf_of_matches {c : Context} (hroot : p.root.id = c.root)
    (h : Forest (Found c) 65 ∅ [p.root])
    (hcard : (idsOf p.root.nodes).card = c.definitions.entries.length) :
    definitionsOf p = .ok (c.root, c.definitions) := by
  obtain ⟨-, -, hfound⟩ := forest_singleton.mp h
  -- as many keys as nodes, and every node is a key
  have hkeys : idsOf p.root.nodes = (c.definitions.entries.map (·.1)).toFinset := by
    apply Finset.eq_of_subset_of_card_le
    · intro id hid
      obtain ⟨n, hn, rfl⟩ := List.mem_map.mp (List.mem_toFinset.mp hid)
      rw [List.mem_toFinset, SortedMap.mem_keys, (hfound n hn).1]
      simp
    · rw [hcard, ← List.length_map (·.1)]
      exact List.toFinset_card_le _
  have hholds : Holds definitionOf p.root.nodes c.definitions := by
    intro id d
    constructor
    · intro hd
      have hid : id ∈ idsOf p.root.nodes := by
        rw [hkeys, List.mem_toFinset, SortedMap.mem_keys, hd]
        simp
      obtain ⟨n, hn, rfl⟩ := List.mem_map.mp (List.mem_toFinset.mp hid)
      exact ⟨n, hn, rfl, Option.some.inj ((hfound n hn).1.symm.trans hd)⟩
    · rintro ⟨n, hn, rfl, rfl⟩
      exact (hfound n hn).1
  obtain ⟨defs, hdefs⟩ := @collect_ok _ _ _ 0 holds_empty (h.imp fun _ hn => hn.2)
  obtain rfl := (holds_collect holds_empty hdefs).unique hholds
  exact definitionsOf_eq_ok.mpr ⟨hroot.symm, hdefs⟩

/-- The definitions of a well-formed process agree with it. -/
theorem matches_of_definitionsOf [Hashing] {c : Context} (hwell : p.WellFormed)
    (h : definitionsOf p = .ok (c.root, c.definitions)) :
    p.root.id = c.root ∧ Forest (Found c) 65 ∅ [p.root] ∧
      (idsOf p.root.nodes).card = c.definitions.entries.length := by
  obtain ⟨hroot, hcollect⟩ := definitionsOf_eq_ok.mp h
  have hholds := holds_collect holds_empty hcollect
  refine ⟨hroot.symm, forest_singleton.mpr ⟨hwell.within, hwell.fits, fun n hn => ?_⟩,
    hholds.length.symm⟩
  exact ⟨(hholds _ _).mpr ⟨n, hn, rfl, rfl⟩, timed_of_fine (hwell.fine n hn)⟩

/-! ## Generated XML -/

section Generated

variable [Hashing] [LawfulHashing]

/-- The XML of a process passes against no definitions but its own. -/
theorem definitionsOf_of_validateXml (parser : Markup.Parser) {p p' : ResolvedProcess}
    {xml : String} {c : Context} (htyped : ∀ n ∈ p.root.nodes, n.Typed)
    (hxml : generate p = .ok xml) (hdefs : definitionsOf p' = .ok (c.root, c.definitions))
    (h : validateXml parser xml c = .ok ()) : definitionsOf p = definitionsOf p' := by
  obtain ⟨-, hroot, hmatches, hcard⟩ :=
    (validateXml_generate parser htyped (plain_of_definitionsOf hdefs) hxml).mp h
  rw [definitionsOf_of_matches hroot hmatches hcard, hdefs]

omit [LawfulHashing] in
/-- The engine takes the definitions of a compiled process exactly if its document is not too
long. -/
theorem definitions_of_compile (number : ℚ → ℕ) {source : ProcessSource}
    {bindings : SortedMap Name ActionBinding} {p : ResolvedProcess}
    (h : compile source bindings = .ok p) :
    definitions number p = if (processJson p).size number ≤ 1000000 then definitionsOf p
      else .error "resolved payload limit" := by
  have hschema : ¬ p.schema ≠ "rx.resolved-process.v1" :=
    not_not.mpr (compile_wellFormed h).schema
  rw [definitions, if_neg hschema, ← ite_not]
  simp only [not_lt]

end Generated

/-! ## A process with children -/

/-- A digest of one repeated digit. -/
def digits (c : Char) : Digest := String.ofList (List.replicate 64 c)

/-- Hashing that tells the nodes of the process below apart. -/
abbrev digitHashing : Hashing where
  node _ source := digits
    (if source.node = "load" then '1' else if source.node = "settle" then '2' else '0')
  source _ := digits '0'
  process _ := digits '0'
  intent _ := digits '0'
  conditions _ := ""

theorem isDigest_digits {c : Char} (h : isHex c = true) : IsDigest (digits c) := by
  rw [IsDigest, digits, String.toList_ofList]
  refine ⟨List.length_replicate, fun c' hc' => ?_⟩
  rw [List.eq_of_mem_replicate hc', h]

/-- The identifier of a node is a name. -/
theorem isName_of_isDigest {digest : Digest} (h : IsDigest digest) :
    IsName ("node/" ++ digest) := by
  rw [IsName, String.toList_append]
  refine ⟨?_, ⟨'n', rfl, by decide⟩, ?_⟩
  · rw [List.length_append, h.1]
    decide
  · intro c hc
    rcases List.mem_append.mp hc with hc | hc
    · exact List.all_eq_true.mp (by decide : "node/".toList.all isNameChar = true) c hc
    · simp [isNameChar, isAlphanum_of_isDigest h hc]

theorem digitHashing_lawful : @LawfulHashing digitHashing := by
  have hzero : IsDigest (digits '0') := isDigest_digits (by decide)
  refine @LawfulHashing.mk digitHashing (fun _ source => isDigest_digits ?_) (fun _ => hzero)
    fun _ => hzero
  split_ifs <;> decide

/-- A flow that loads and waits until the load has settled. -/
def loadAndSettle : ProcessSource where
  schema := "rx.process-source.v1"
  process := "example"
  entry := "main"
  flows := [⟨"main", "both", [⟨"both", .sequence ["load", "settle"]⟩, ⟨"load", .operation "load"⟩,
    ⟨"settle", .wait "settled" 1000⟩]⟩]
  conditions := SortedMap.empty.insert "settled" (.setContains "states" "schema" "unit" "settled")

/-- The process that it compiles to with a binding of its operation. -/
def loadedAndSettled (bindings : SortedMap Name ActionBinding) : ResolvedProcess where
  schema := "rx.resolved-process.v1"
  packageDigest := none
  sourceDigest := digits '0'
  process := "example"
  root := .sequence ("node/" ++ digits '0') ⟨"main", "both", []⟩
    [.operation ("node/" ++ digits '1') ⟨"main", "load", []⟩ "load",
      .wait ("node/" ++ digits '2') ⟨"main", "settle", []⟩ "settled" 1000]
  bindings := bindings
  conditions := SortedMap.empty.insert "settled" (.setContains "states" "schema" "unit" "settled")

theorem loadedAndSettled_typed (bindings : SortedMap Name ActionBinding) :
    ∀ n ∈ (loadedAndSettled bindings).root.nodes, n.Typed := by
  have hnames : ∀ node ∈ ["main", "both", "load", "settle", "settled"], IsName node := by
    decide +kernel
  have hids {c : Char} (h : isHex c = true) : IsName ("node/" ++ digits c) :=
    isName_of_isDigest (isDigest_digits h)
  intro n hn
  simp only [loadedAndSettled, CompiledNode.nodes_eq, CompiledNode.children, List.flatMap_cons,
    List.flatMap_nil, List.append_nil, List.mem_cons, List.cons_append, List.nil_append,
    List.not_mem_nil, or_false] at hn
  have hsource : ∀ node ∈ ["both", "load", "settle"],
      (⟨"main", node, []⟩ : SourceLocation).Typed := by
    intro node hnode
    exact ⟨hnames "main" (by simp), hnames node (by aesop)⟩
  obtain rfl | rfl | rfl := hn
  · exact ⟨hids (by decide), hsource "both" (by simp), trivial⟩
  · exact ⟨hids (by decide), hsource "load" (by simp), hnames "load" (by simp)⟩
  · exact ⟨hids (by decide), hsource "settle" (by simp), hnames "settled" (by simp),
      (by decide : 1000 < counterBound)⟩

/-- The XML does not depend on the bindings, and is short. -/
theorem generate_loadedAndSettled {bindings : SortedMap Name ActionBinding} {xml : String}
    (h : @generate digitHashing (loadedAndSettled bindings) = .ok xml) :
    xml.utf8ByteSize ≤ 1048576 := by
  have hempty : @generate digitHashing (loadedAndSettled bindings) =
      @generate digitHashing (loadedAndSettled .empty) := by
    unfold generate resolvedDigest
    rfl
  have hshort : ∀ text ∈ (@generate digitHashing (loadedAndSettled .empty)).toOption,
      text.utf8ByteSize ≤ 1048576 := by decide +kernel
  rw [hempty] at h
  exact hshort xml (by rw [h]; rfl)

/-- An intent to hold a vector of values. -/
def holdIntent (values : List ℚ) : Intent where
  kind := .ensureState
  target := "robot"
  profileDigest := digits '0'
  siteConfigDigest := digits '0'
  calibrationDigests := []
  resourceSet := ["arm"]
  executionTimeoutMs := 1
  prepareValidityMs := 1
  completionRule := "done"
  cancelRule := "stop"
  body := .predicate "held" (.reals values) 1

/-- The binding of the operation to such an intent. -/
def holdBindings (values : List ℚ) : SortedMap Name ActionBinding :=
  SortedMap.empty.insert "load" ⟨"host", holdIntent values⟩

/-- The document of the process holds every value and a byte after each. -/
theorem two_mul_length_le_size {number : ℚ → ℕ} (hnumber : ∀ q, 1 ≤ number q) (values : List ℚ) :
    2 * values.length ≤
      (processJson (loadedAndSettled (holdBindings values))).size number := by
  have hitems := Json.two_mul_length_le_sizeAll hnumber (values.map .number)
  rw [List.length_map] at hitems
  calc 2 * values.length
    _ ≤ (Json.array (values.map .number)).size number := by
      rw [Json.size]
      omega
    _ ≤ (Json.object [("values", .array (values.map .number))]).size number :=
      Json.size_le_size_object (List.mem_singleton_self _)
    _ ≤ (valueJson (.reals values)).size number :=
      Json.size_le_size_object (List.mem_singleton_self _)
    _ ≤ (Json.object [("predicate_id", .string "held"), ("target", valueJson (.reals values)),
          ("settle_ms", counterJson 1)]).size number :=
      Json.size_le_size_object (List.mem_cons_of_mem _ List.mem_cons_self)
    _ ≤ (bodyJson (.predicate "held" (.reals values) 1)).size number :=
      Json.size_le_size_object (List.mem_singleton_self _)
    _ ≤ (intentJson (holdIntent values)).size number :=
      @Json.size_le_size_object number "body" _ _ (by simp [holdIntent])
    _ ≤ (bindingJson ⟨"host", holdIntent values⟩).size number :=
      Json.size_le_size_object (List.mem_cons_of_mem _ List.mem_cons_self)
    _ ≤ (mapJson bindingJson (holdBindings values)).size number :=
      Json.size_le_size_object (List.mem_singleton_self _)
    _ ≤ (processJson (loadedAndSettled (holdBindings values))).size number :=
      @Json.size_le_size_object number "bindings" _ _ (by simp [loadedAndSettled])

end RxSolutions.Bt
