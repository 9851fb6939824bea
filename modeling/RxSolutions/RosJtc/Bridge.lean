import RxSolutions.Markup.Pattern
import RxSolutions.RosJtc.Protocol

/-!
# Configurations and goals, as the bridge checks them

The bridge is a process of its own, in another language, that reads documents instead of typed
values. It checks again all that the host has checked, and derives the joint order, the name of the
action and the message for the controller from what it has read.
-/

namespace RxSolutions.RosJtc.Bridge

open Domain
open Markup (Json Pattern.oneOf Pattern.path Pattern.range)

/-! ## Strict reading -/

/-- Exceptions of the bridge, by their class. -/
inductive Thrown
  | invalidArgument (what : String)
  | runtimeError (what : String)
  | json (what : String)
  deriving DecidableEq

/-- The message of an exception. -/
def Thrown.what : Thrown → String
  | invalidArgument what | runtimeError what | json what => what

/-- `require`: throw unless the condition holds. -/
def require (value : Prop) [Decidable value] (reason : String) : Except Thrown Unit :=
  if value then .ok () else .error (.invalidArgument reason)

theorem require_eq_ok {value : Prop} [Decidable value] {reason : String} {u : Unit} :
    require value reason = .ok u ↔ value := by
  rw [require]
  split_ifs with h
  · exact ⟨fun _ => h, fun _ => rfl⟩
  · constructor
    · nofun
    · intro hvalue
      exact absurd hvalue h

/-- An object with these members and no others. -/
def keys (v : Json) (names : List String) : Except Thrown Unit := do
  require ((v.keys.map List.length) = some names.length) "field set differs"
  names.forM fun name => require ((v.get? name).isSome = true) "field missing"

/-- A member that is there. -/
def member (v : Json) (name : String) : Except Thrown Json :=
  match v.get? name with
  | some value => .ok value
  | none => .error (.json "member is missing")

/-- A text. -/
def text : Json → Except Thrown String
  | .string s => .ok s
  | _ => .error (.invalidArgument "string required")

/-- An identifier that is not zero. -/
def uuid (v : Json) : Except Thrown String := do
  let s ← text v
  require (IsUuid s ∧ s ≠ "00000000-0000-0000-0000-000000000000") "nonzero UUID required"
  return s

/-- A counter without leading zeros. -/
def counter (v : Json) : Except Thrown Counter := do
  let s ← text v
  require (s.toList ≠ [] ∧ (s.toList.length = 1 ∨ s.toList.head? ≠ some '0'))
    "canonical decimal counter required"
  match fromChars s with
  | some value => return value
  | none => throw (.invalidArgument "uint64 required")

/-- A whole number up to a maximum. -/
def integer (v : Json) (maximum : ℕ) : Except Thrown ℕ :=
  match v with
  | .number value =>
    if value.den ≠ 1 then .error (.invalidArgument "integer required")
    else if 0 ≤ value.num ∧ value.num ≤ maximum then .ok value.num.toNat
    else .error (.invalidArgument "integer range")
  | _ => .error (.invalidArgument "integer required")

/-- A number of at most a million either way. -/
def number : Json → Except Thrown ℚ
  | .number value =>
    if |value| ≤ 1000000 then .ok value
    else .error (.invalidArgument "bounded finite number required")
  | _ => .error (.invalidArgument "number required")

/-- `parse`: a document that is not too deep and names no member twice. -/
def parse (document : Json) : Except Thrown Json := do
  require (document.depth ≤ 32) "JSON nesting limit"
  require (document.strict = true) "duplicate JSON key"
  return document

/-- A vector of strings, as the library converts one. -/
def strings : Json → Except Thrown (List String)
  | .array items => items.mapM fun
    | .string s => .ok s
    | _ => .error (.json "type must be string")
  | _ => .error (.json "type must be array")

/-- What a loop over a document goes through. -/
def elements : Json → List Json
  | .array items => items
  | .object members => members.map (·.2)
  | .null => []
  | v => [v]

/-! ## Names -/

/-- The class `[A-Za-z_]`. -/
def nameFirst : List Char := Pattern.range 'A' 'Z' ++ Pattern.range 'a' 'z' ++ ['_']

/-- The class `[A-Za-z0-9_]`. -/
def nameRest : List Char :=
  Pattern.range 'A' 'Z' ++ Pattern.range 'a' 'z' ++ Pattern.range '0' '9' ++ ['_']

/-- `/([A-Za-z_][A-Za-z0-9_]*)(/[A-Za-z_][A-Za-z0-9_]*)*`. -/
def rosPattern : RegularExpression Char :=
  Pattern.path '/' (Pattern.oneOf nameFirst * (Pattern.oneOf nameRest).star)

/-- `ros_name`. -/
def rosName (value : Json) (allowRoot : Bool) : Except Thrown String := do
  let s ← text value
  require (s.utf8ByteSize ≤ 256 ∧
    ((allowRoot = true ∧ s = "/") ∨ rosPattern.rmatch s.toList = true))
    "absolute ROS name required"
  return s

/-! ## Goals -/

/-- A duration as ROS has it. -/
structure Duration where
  sec : ℕ
  nanosec : ℕ
  deriving DecidableEq

/-- The nanoseconds of a duration. -/
def Duration.ns (d : Duration) : ℕ := d.sec * 1000000000 + d.nanosec

/-- `duration`. The bound keeps the seconds within 32 bits. -/
def duration (n : ℕ) : Except Thrown Duration := do
  require (n ≤ 3600000000000) "duration exceeds one hour"
  return ⟨n / 1000000000, n % 1000000000⟩

/-- `vector`. -/
def vector (v : Json) (count : ℕ) (optional : Bool) : Except Thrown (List ℚ) :=
  match v with
  | .array items =>
    if items.length = count ∨ (optional = true ∧ items = []) then items.mapM number
    else .error (.invalidArgument "joint vector shape")
  | _ => .error (.invalidArgument "joint vector shape")

/-- The tolerance of a joint. -/
structure JointTolerance where
  name : String
  position : ℚ
  velocity : ℚ
  acceleration : ℚ
  deriving DecidableEq

/-- The tolerance for one joint. -/
def tolerance (t : Json) (joint : String) : Except Thrown JointTolerance := do
  keys t ["name", "position", "velocity", "acceleration"]
  require ((← text (← member t "name")) = joint) "tolerance joint order differs"
  let position ← number (← member t "position")
  let velocity ← number (← member t "velocity")
  let acceleration ← number (← member t "acceleration")
  require (0 < position ∧ 0 < velocity ∧ 0 < acceleration)
    "default or disabled tolerance not allowed"
  return ⟨joint, position, velocity, acceleration⟩

/-- `tolerances`. -/
def tolerances (v : Json) (joints : List String) : Except Thrown (List JointTolerance) :=
  match v with
  | .array items =>
    if items.length = joints.length then (items.zip joints).mapM fun e => tolerance e.1 e.2
    else .error (.invalidArgument "full explicit tolerances required")
  | _ => .error (.invalidArgument "full explicit tolerances required")

/-- One point of a trajectory. -/
structure TrajectoryPoint where
  positions : List ℚ
  velocities : List ℚ
  accelerations : List ℚ
  timeFromStart : Duration
  deriving DecidableEq

/-- The message to the controller. -/
structure ActionGoal where
  jointNames : List String
  points : List TrajectoryPoint
  pathTolerance : List JointTolerance
  goalTolerance : List JointTolerance
  goalTimeTolerance : Duration
  deriving DecidableEq

/-- One point, after the time of the point before. -/
def point (p : Json) (joints : List String) (previous : Counter) :
    Except Thrown (Counter × TrajectoryPoint) := do
  keys p ["positions", "velocities", "accelerations", "time_ns"]
  let positions ← vector (← member p "positions") joints.length false
  let velocities ← vector (← member p "velocities") joints.length true
  let accelerations ← vector (← member p "accelerations") joints.length true
  let t ← counter (← member p "time_ns")
  require (previous < t) "trajectory times must strictly increase from zero"
  let timeFromStart ← duration t
  return (t, ⟨positions, velocities, accelerations, timeFromStart⟩)

/-- The loop over the points. -/
def points (joints : List String) : Counter → List Json → Except Thrown (List TrajectoryPoint)
  | _, [] => .ok []
  | previous, p :: rest => do
    let (t, first) ← point p joints previous
    return first :: (← points joints t rest)

/-- The points of a goal. -/
def trajectory (v : Json) (joints : List String) : Except Thrown (List TrajectoryPoint) :=
  match v with
  | .array items =>
    if items ≠ [] ∧ items.length ≤ 1024 then points joints 0 items
    else .error (.invalidArgument "trajectory point count")
  | _ => .error (.invalidArgument "trajectory point count")

/-- `goal`. -/
def goal (v : Json) (joints : List String) : Except Thrown ActionGoal := do
  keys v ["joints", "points", "path_tolerance", "goal_tolerance", "goal_time_ns"]
  require ((← member v "joints") = .array (joints.map .string)) "catalog joint order differs"
  let points ← trajectory (← member v "points") joints
  let pathTolerance ← tolerances (← member v "path_tolerance") joints
  let goalTolerance ← tolerances (← member v "goal_tolerance") joints
  let time ← counter (← member v "goal_time_ns")
  require (0 < time ∧ time ≤ 60000000000) "bounded goal time tolerance required"
  let goalTimeTolerance ← duration time
  return ⟨joints, points, pathTolerance, goalTolerance, goalTimeTolerance⟩

/-! ## The constructor -/

/-- What the loops over the catalog have found. -/
structure Selection where
  model : String
  joints : List String
  interfaces : List String
  found : Bool

/-- Nothing has been found. -/
def Selection.empty : Selection := ⟨"", [], [], false⟩

/-- The loop body over the controllers of a profile. -/
def selectController (controller : String) (s : Selection) (c : Json) :
    Except Thrown Selection := do
  if (← text (← member c "name")) = controller then
    require ((← member c "plugin") =
      .string "joint_trajectory_controller/JointTrajectoryController") "unsupported controller kind"
    let joints ← strings (← member c "joint_order")
    let interfaces ← strings (← member c "command_interfaces")
    return { s with joints := joints, interfaces := interfaces, found := true }
  else return s

/-- The loop body over the profiles. -/
def selectProfile (support controller : String) (s : Selection) (p : Json) :
    Except Thrown Selection := do
  if (← text (← member p "support_id")) = support then
    let role ← member p "role"
    require (role = .string "MANIPULATOR" ∨ role = .string "FOLLOWER" ∨
      role = .string "MOBILE_BASE") "support role does not provide production JTC"
    let model ← text (← member p "model")
    (elements (← member p "controllers")).foldlM (selectController controller)
      { s with model := model }
  else return s

/-- What the bridge knows after its constructor has run. -/
structure Setup where
  support : String
  controller : String
  model : String
  joints : List String
  interfaces : List String
  timeout : ℕ
  capacity : ℕ
  action : String
  manager : String
  domain : ℕ

/-- The checks of the constructor. -/
def setup (b : Build) (config : Json) : Except Thrown Setup := do
  keys config ["schema", "catalog_sha256", "support_id", "controller", "namespace",
    "controller_manager", "domain_id", "timeout_ms", "capacity"]
  require ((← text (← member config "schema")) = "rx.ros-jtc-bridge.v1")
    "bridge configuration schema"
  require ((← text (← member config "catalog_sha256")) = b.catalogSha256)
    "catalog source digest differs"
  let support ← text (← member config "support_id")
  let controller ← text (← member config "controller")
  let timeout ← integer (← member config "timeout_ms") 1000
  let capacity ← integer (← member config "capacity") 512
  require (0 < timeout ∧ 0 < capacity) "positive bounds required"
  let catalog ← parse b.catalog.json
  let s ← (elements (← member catalog "profiles")).foldlM (selectProfile support controller)
    Selection.empty
  require (s.found = true ∧ s.joints ≠ [] ∧ s.joints.length ≤ 64)
    "catalog controller/joints absent"
  require s.joints.Nodup "duplicate catalog joints"
  require (s.interfaces = ["position"]) "only position-command JTC binding supported"
  let ns ← rosName (← member config "namespace") true
  let manager ← rosName (← member config "controller_manager") false
  let domain ← integer (← member config "domain_id") 232
  return {
    support := support
    controller := controller
    model := s.model
    joints := s.joints
    interfaces := s.interfaces
    timeout := timeout
    capacity := capacity
    action := (if ns = "/" then "" else ns) ++ "/" ++ controller ++ "/follow_joint_trajectory"
    manager := manager
    domain := domain }

end RxSolutions.RosJtc.Bridge
