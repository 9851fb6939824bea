import RxSolutions.Markup.Order
import RxSolutions.Process.Model

/-!
# The JSON of a process

Processes are stored and sent as JSON. Structures are objects with one member for each
field and no others; an enumeration is told apart by a member that holds its kind, or by the
only member of an object. Counters and integers are decimal strings.
-/

namespace RxSolutions.Process

open Domain Durable
open Markup (Json)
open CompiledNode (mem_nodes_self mem_nodes_of_child)

/-! ## Writing -/

/-- A counter is a decimal text. -/
def counterJson (n : Counter) : Json := .string (toString n)

/-- A list of texts. -/
def stringsJson (items : List String) : Json := .array (items.map .string)

/-- A map is an object with its keys as members. -/
def mapJson {α : Type} (value : α → Json) (m : SortedMap Name α) : Json :=
  .object (m.entries.map fun e => (e.1, value e.2))

/-- A reference to an artifact as a document. -/
def artifactJson (r : ArtifactRef) : Json :=
  .object [("sha256", .string r.sha256), ("schema_id", .string r.schemaId),
    ("size_bytes", counterJson r.sizeBytes)]

/-- A typed value, under the name of its type. -/
def valueJson : TypedValue → Json
  | .boolean value => .object [("boolean", .bool value)]
  | .integer value => .object [("integer", .string (toString value))]
  | .real value => .object [("real", .number value)]
  | .symbol value => .object [("symbol", .string value)]
  | .reals values => .object [("reals", .object [("values", .array (values.map .number))])]

mutual

/-- A condition, tagged with its operator. -/
def conditionJson : Condition → Json
  | .all children => .object [("op", .string "ALL"), ("children", .array (conditionsJson children))]
  | .any children => .object [("op", .string "ANY"), ("children", .array (conditionsJson children))]
  | .eq fact schema unit expected =>
    .object [("op", .string "EQ"), ("fact", .string fact), ("schema", .string schema),
      ("unit", .string unit), ("expected", valueJson expected)]
  | .range fact schema unit min max =>
    .object [("op", .string "RANGE"), ("fact", .string fact), ("schema", .string schema),
      ("unit", .string unit), ("min", .number min), ("max", .number max)]
  | .setContains fact schema unit expected =>
    .object [("op", .string "SET_CONTAINS"), ("fact", .string fact), ("schema", .string schema),
      ("unit", .string unit), ("expected", .string expected)]

/-- A list of conditions. -/
def conditionsJson : List Condition → List Json
  | [] => []
  | c :: cs => conditionJson c :: conditionsJson cs

end

/-- The text of a kind in a document. -/
def kindText : Domain.Kind → String
  | .finiteAction => "FINITE_ACTION"
  | .ensureState => "ENSURE_STATE"
  | .modeTransition => "MODE_TRANSITION"
  | .controlSession => "CONTROL_SESSION"
  | .lifecycleTransition => "LIFECYCLE_TRANSITION"

/-- The text of a verb in a document. -/
def verbText : LifecycleVerb → String
  | .prepare => "PREPARE"
  | .activate => "ACTIVATE"
  | .deactivate => "DEACTIVATE"
  | .shutdown => "SHUTDOWN"

/-- The body of an intent, under the name of its kind. -/
def bodyJson : Body → Json
  | .trajectory trajectory jointGroup toolDigest =>
    .object [("trajectory", .object [("trajectory", artifactJson trajectory),
      ("joint_group", .string jointGroup), ("tool_digest", .string toolDigest)])]
  | .program program parameterSet =>
    .object [("program", .object [("program", artifactJson program),
      ("parameter_set", artifactJson parameterSet)])]
  | .predicate predicateId target settleMs =>
    .object [("predicate", .object [("predicate_id", .string predicateId),
      ("target", valueJson target), ("settle_ms", counterJson settleMs)])]
  | .mode modeId transitionProfile =>
    .object [("mode", .object [("mode_id", .string modeId),
      ("transition_profile", .string transitionProfile)])]
  | .control sourceId sampleSchema streamProfile =>
    .object [("control", .object [("source_id", .string sourceId),
      ("sample_schema", .string sampleSchema), ("stream_profile", .string streamProfile)])]
  | .lifecycle transition targetLevel supportEvidence =>
    .object [("lifecycle", .object [("transition", .string (verbText transition)),
      ("target_level", .string targetLevel), ("support_evidence", stringsJson supportEvidence)])]

/-- An intent as a document. -/
def intentJson (i : Intent) : Json :=
  .object [("kind", .string (kindText i.kind)), ("target", .string i.target),
    ("profile_digest", .string i.profileDigest),
    ("site_config_digest", .string i.siteConfigDigest),
    ("calibration_digests", stringsJson i.calibrationDigests),
    ("resource_set", stringsJson i.resourceSet),
    ("execution_timeout_ms", counterJson i.executionTimeoutMs),
    ("prepare_validity_ms", counterJson i.prepareValidityMs),
    ("completion_rule", .string i.completionRule), ("cancel_rule", .string i.cancelRule),
    ("body", bodyJson i.body)]

/-- A binding as a document. -/
def bindingJson (b : ActionBinding) : Json :=
  .object [("host", .string b.host), ("intent", intentJson b.intent)]

/-- Where a node comes from. -/
def sourceJson (source : SourceLocation) : Json :=
  .object [("flow", .string source.flow), ("node", .string source.node),
    ("instantiation", stringsJson source.instantiation)]

/-- A node around its body. -/
def nodeWith (id : Name) (source : SourceLocation) (body : Json) : Json :=
  .object [("id", .string id), ("source", sourceJson source), ("body", body)]

mutual

/-- A node of a resolved process, told apart by the kind of its body. -/
def nodeJson : CompiledNode → Json
  | .sequence id source children =>
    nodeWith id source
      (.object [("kind", .string "SEQUENCE"), ("children", .array (nodesJson children))])
  | .parallelAll id source children =>
    nodeWith id source
      (.object [("kind", .string "PARALLEL_ALL"), ("children", .array (nodesJson children))])
  | .branch id source condition whenTrue whenFalse =>
    nodeWith id source
      (.object [("kind", .string "BRANCH"), ("condition", .string condition),
        ("when_true", nodeJson whenTrue), ("when_false", nodeJson whenFalse)])
  | .operation id source binding =>
    nodeWith id source (.object [("kind", .string "OPERATION"), ("binding", .string binding)])
  | .wait id source condition timeoutNs =>
    nodeWith id source
      (.object [("kind", .string "WAIT"), ("condition", .string condition),
        ("timeout_ns", counterJson timeoutNs)])
  | .intervention id source procedure =>
    nodeWith id source
      (.object [("kind", .string "INTERVENTION"), ("procedure", artifactJson procedure)])

/-- The children of a node. -/
def nodesJson : List CompiledNode → List Json
  | [] => []
  | n :: ns => nodeJson n :: nodesJson ns

end

/-- A text that may be missing. -/
def optionalJson : Option String → Json
  | none => .null
  | some s => .string s

/-- A resolved process. -/
def processJson (p : ResolvedProcess) : Json :=
  .object [("schema", .string p.schema), ("package_digest", optionalJson p.packageDigest),
    ("source_digest", .string p.sourceDigest), ("process", .string p.process),
    ("root", nodeJson p.root), ("bindings", mapJson bindingJson p.bindings),
    ("conditions", mapJson conditionJson p.conditions)]

/-! ## The shape of what is written

Counters, lists and maps are written without a member named twice and without deep nesting. -/

@[simp] theorem shaped_counterJson {n : ℕ} (c : Counter) : (counterJson c).Shaped n :=
  Json.shaped_string _

@[simp] theorem shaped_stringsJson {n : ℕ} (l : List String) : (stringsJson l).Shaped (n + 1) := by
  simp [stringsJson, Json.shaped_array]

/-- A map has the shape of its values, one level down. -/
theorem shaped_mapJson {α : Type} {n : ℕ} {write : α → Json} {m : SortedMap Name α}
    (h : ∀ e ∈ m.entries, (write e.2).Shaped n) : (mapJson write m).Shaped (n + 1) := by
  rw [mapJson, Json.shaped_object, List.map_map, List.forall_mem_map]
  exact ⟨m.nodup_keys, h⟩

/-! ## Reading -/

/-- The members of an object that has no others than the named ones. -/
def fields (j : Json) (names : List String) : Option (String → Option Json) :=
  match j with
  | .object members =>
    if members.all (·.1 ∈ names) then some fun name => members.lookup name else none
  | _ => none

/-- A text. -/
def readString : Json → Option String
  | .string s => some s
  | _ => none

/-- A text with the syntax of a name. -/
def readName (j : Json) : Option Name :=
  (readString j).bind fun s => if IsName s then some s else none

/-- A text with the syntax of a digest. -/
def readDigest (j : Json) : Option Digest :=
  (readString j).bind fun s => if IsDigest s then some s else none

/-- A counter from its decimal text. -/
def readCounterJson (j : Json) : Option Counter := (readString j).bind readCounter

/-- A number. -/
def readReal : Json → Option ℚ
  | .number q => some q
  | _ => none

/-- A truth value. -/
def readBool : Json → Option Bool
  | .bool b => some b
  | _ => none

/-- A list, item by item. -/
def readList {α : Type} (item : Json → Option α) : Json → Option (List α)
  | .array items => items.mapM item
  | _ => none

/-- A map by name. -/
def readMap {α : Type} (value : Json → Option α) : Json → Option (SortedMap Name α)
  | .object members => do
    let entries ← members.mapM fun m => do return (← readName (.string m.1), ← value m.2)
    return SortedMap.empty.overlay entries some
  | _ => none

/-- A reference to an artifact, with no other member. -/
def readArtifact (j : Json) : Option ArtifactRef := do
  let at_ ← fields j ["sha256", "schema_id", "size_bytes"]
  return {
    sha256 := ← (at_ "sha256").bind readDigest
    schemaId := ← (at_ "schema_id").bind readName
    sizeBytes := ← (at_ "size_bytes").bind readCounterJson }

/-- The kind and the content of an object with one member. -/
def onlyMember : Json → Option (String × Json)
  | .object [m] => some m
  | _ => none

/-- A typed value by the name of its type. -/
def readValue (j : Json) : Option TypedValue := do
  let (kind, content) ← onlyMember j
  match kind with
  | "boolean" => return .boolean (← readBool content)
  | "integer" => return .integer (← (readString content).bind readInteger)
  | "real" => return .real (← readReal content)
  | "symbol" => return .symbol (← readName content)
  | "reals" =>
    let at_ ← fields content ["values"]
    return .reals (← (at_ "values").bind (readList readReal))
  | _ => none

/-- The conditions of a document, with as many levels as it has. -/
def readCondition : ℕ → Json → Option Condition
  | 0, _ => none
  | levels + 1, j => do
    let op ← (j.get? "op").bind readString
    match op with
    | "ALL" =>
      let at_ ← fields j ["op", "children"]
      return .all (← (at_ "children").bind (readList (readCondition levels)))
    | "ANY" =>
      let at_ ← fields j ["op", "children"]
      return .any (← (at_ "children").bind (readList (readCondition levels)))
    | "EQ" =>
      let at_ ← fields j ["op", "fact", "schema", "unit", "expected"]
      return .eq (← (at_ "fact").bind readName) (← (at_ "schema").bind readName)
        (← (at_ "unit").bind readName) (← (at_ "expected").bind readValue)
    | "RANGE" =>
      let at_ ← fields j ["op", "fact", "schema", "unit", "min", "max"]
      return .range (← (at_ "fact").bind readName) (← (at_ "schema").bind readName)
        (← (at_ "unit").bind readName) (← (at_ "min").bind readReal) (← (at_ "max").bind readReal)
    | "SET_CONTAINS" =>
      let at_ ← fields j ["op", "fact", "schema", "unit", "expected"]
      return .setContains (← (at_ "fact").bind readName) (← (at_ "schema").bind readName)
        (← (at_ "unit").bind readName) (← (at_ "expected").bind readName)
    | _ => none

end RxSolutions.Process
