import Mathlib.Algebra.Order.Ring.Unbundled.Rat
import Mathlib.Data.List.DropRight
import RxSolutions.Host.Model
import RxSolutions.RosJtc.Catalog

/-!
# Configurations and goals, as the host checks them

The host configures a bridge to one joint trajectory controller and sends it goals. It selects the
controller from the catalog, and it checks every goal against the joints of that controller before
it gives it away.
-/

namespace RxSolutions.RosJtc

open Domain Durable
open Host (HostError)
open Markup (Json)
open Process (counterJson stringsJson)

/-! ## Configurations -/

/-- A part of a ROS name between two slashes. -/
def rosSegment (p : List Char) : Bool :=
  p.head?.any (fun c => c.isAlpha || c = '_') && p.all fun c => c.isAlphanum || c = '_'

/-- `ros_name`. -/
def rosName (s : String) : Bool :=
  if s = "/" then true
  else decide (s.utf8ByteSize ≤ 256) && decide (s.toList.head? = some '/') &&
    ((s.toList.drop 1).splitOn '/').all rosSegment

/-- The configuration that the bridge is started with. -/
structure Configuration where
  schema : Name
  catalogSha256 : Digest
  supportId : Name
  controller : String
  ns : String
  controllerManager : String
  domainId : ℕ
  timeoutMs : ℕ
  capacity : ℕ

/-- The plugin of a trajectory controller. -/
def jtcPlugin : String := "joint_trajectory_controller/JointTrajectoryController"

/-- The roles that move joints in production. -/
def ControlRole.moves : ControlRole → Bool
  | manipulator | follower | mobileBase => true
  | leader | impedanceControl | policyControl => false

/-- The only interface that a command may name. -/
def InterfaceDeclaration.position : InterfaceDeclaration → Bool
  | .names items => decide (items = ["position"])
  | .gpio _ => false

/-- `Configuration::joints`. -/
def Configuration.joints (b : Build) (c : Configuration) : Except HostError (List String) := do
  if c.schema ≠ "rx.ros-jtc-bridge.v1" ∨ c.catalogSha256 ≠ b.catalogSha256 ∨
      rosName c.ns = false ∨ rosName c.controllerManager = false ∨ 232 < c.domainId ∨
      ¬ (1 ≤ c.timeoutMs ∧ c.timeoutMs ≤ 1000) ∨ ¬ (1 ≤ c.capacity ∧ c.capacity ≤ 512) then
    throw (.invalid "ROS bridge configuration")
  let catalog ← b.builtinCatalog.mapError fun e =>
    HostError.invalid ("invalid device support catalog: " ++ e)
  let p ← (catalog.profiles.find? (·.supportId = c.supportId)).elim (.error .guard) .ok
  if p.role.moves = false then throw .guard
  let d ← (p.controllers.find? fun d => d.name = c.controller ∧ d.plugin = jtcPlugin).elim
    (.error .guard) .ok
  if d.commandInterfaces.position = false ∨ d.jointOrder = [] ∨ 64 < d.jointOrder.length ∨
      ¬ d.jointOrder.Nodup then
    throw .guard
  return d.jointOrder

/-- `Configuration::action`. -/
def Configuration.action (c : Configuration) : String :=
  String.ofList (c.ns.toList.rdropWhile (· = '/')) ++ "/" ++ c.controller ++
    "/follow_joint_trajectory"

/-- The configuration as a document. -/
def Configuration.json (c : Configuration) : Json :=
  .object [("capacity", .number c.capacity), ("catalog_sha256", .string c.catalogSha256),
    ("controller", .string c.controller), ("controller_manager", .string c.controllerManager),
    ("domain_id", .number c.domainId), ("namespace", .string c.ns), ("schema", .string c.schema),
    ("support_id", .string c.supportId), ("timeout_ms", .number c.timeoutMs)]

/-! ## Goals -/

/-- A floating-point number. -/
inductive Double
  | finite (value : ℚ)
  | infinite (negative : Bool)
  | nan
  deriving DecidableEq

namespace Double

/-- Finite, and not beyond a million. -/
def valid : Double → Bool
  | finite value => decide (|value| ≤ 1000000)
  | _ => false

/-- `n <= 0.`, which no comparison with a NaN is. -/
def nonPositive : Double → Bool
  | finite value => decide (value ≤ 0)
  | infinite negative => negative
  | nan => false

/-- A number that is not finite is written as `null`. -/
def json : Double → Json
  | finite value => .number value
  | _ => .null

end Double

/-- A point of a goal. -/
structure Point where
  positions : List Double
  velocities : List Double
  accelerations : List Double
  timeNs : Counter

/-- The tolerance of a joint in a goal. -/
structure Tolerance where
  name : String
  position : Double
  velocity : Double
  acceleration : Double

/-- A trajectory with its tolerances. -/
structure Goal where
  joints : List String
  points : List Point
  pathTolerance : List Tolerance
  goalTolerance : List Tolerance
  goalTimeNs : Counter

/-- A point as a document. -/
def Point.json (p : Point) : Json :=
  .object [("accelerations", .array (p.accelerations.map (·.json))),
    ("positions", .array (p.positions.map (·.json))), ("time_ns", counterJson p.timeNs),
    ("velocities", .array (p.velocities.map (·.json)))]

/-- A tolerance as a document. -/
def Tolerance.json (t : Tolerance) : Json :=
  .object [("acceleration", t.acceleration.json), ("name", .string t.name),
    ("position", t.position.json), ("velocity", t.velocity.json)]

/-- A goal as a document. -/
def Goal.json (g : Goal) : Json :=
  .object [("goal_time_ns", counterJson g.goalTimeNs),
    ("goal_tolerance", .array (g.goalTolerance.map (·.json))), ("joints", stringsJson g.joints),
    ("path_tolerance", .array (g.pathTolerance.map (·.json))),
    ("points", .array (g.points.map (·.json)))]

/-- A point for some joints, later than the one before. -/
def Point.Valid (p : Point) (joints : List String) (previous : Counter) : Prop :=
  p.positions.length = joints.length ∧
    (p.velocities = [] ∨ p.velocities.length = joints.length) ∧
    (p.accelerations = [] ∨ p.accelerations.length = joints.length) ∧
    (p.positions ++ p.velocities ++ p.accelerations).all Double.valid = true ∧
    previous < p.timeNs ∧ p.timeNs ≤ 3600000000000

instance (p : Point) (joints : List String) (previous : Counter) :
    Decidable (p.Valid joints previous) :=
  inferInstanceAs (Decidable (_ ∧ _ ∧ _ ∧ _ ∧ _ ∧ _))

/-- The loop over the points. -/
def validatePoints (joints : List String) : Counter → List Point → Except HostError Unit
  | _, [] => .ok ()
  | previous, p :: points =>
    if p.Valid joints previous then validatePoints joints p.timeNs points else .error .guard

/-- A tolerance for a joint. -/
def Tolerance.admits (t : Tolerance) (joint : String) : Bool :=
  decide (t.name = joint) &&
    [t.position, t.velocity, t.acceleration].all fun n => n.valid && !n.nonPositive

/-- The checks on one list of tolerances. -/
def validateTolerances (joints : List String) (values : List Tolerance) : Except HostError Unit :=
  if values.length = joints.length ∧ (values.zip joints).all (fun e => e.1.admits e.2) = true then
    .ok ()
  else .error .guard

/-- `Goal::validate`. -/
def Goal.validate (b : Build) (g : Goal) (c : Configuration) : Except HostError Unit := do
  let joints ← c.joints b
  if g.joints ≠ joints ∨ g.points = [] ∨ 1024 < g.points.length ∨ g.goalTimeNs = 0 ∨
      60000000000 < g.goalTimeNs then
    throw .guard
  validatePoints joints 0 g.points
  validateTolerances joints g.pathTolerance
  validateTolerances joints g.goalTolerance
  if 524288 < g.json.size b.numberLength then
    throw (.invalid "trajectory artifact exceeds 512 KiB")
  return ()

end RxSolutions.RosJtc
