import Mathlib
import RxSolutions.RosJtc.Bridge

/-!
# Host and bridge agree on what is valid

The rules for configurations and goals are written twice. Read from its document, a configuration
that the host accepts is accepted by the bridge with the same joints and the same action, unless
its controller manager is the root: there the host asks less than the bridge. Every goal that the
host accepts is accepted by the bridge, which derives the message that the goal says.
-/

namespace RxSolutions.RosJtc

open Domain Durable
open Markup (Json Pattern.mem_path Pattern.mem_class_star Pattern.mem_range)
open Process (counterJson stringsJson mapJson shaped_counterJson shaped_stringsJson shaped_mapJson)

namespace Bridge

/-! ## Names -/

variable {c : Char}

theorem isUpper_iff : c.isUpper = true ↔ 'A' ≤ c ∧ c ≤ 'Z' := by
  rw [Char.isUpper, decide_eq_true_eq, Char.le_def, Char.le_def]

theorem isLower_iff : c.isLower = true ↔ 'a' ≤ c ∧ c ≤ 'z' := by
  rw [Char.isLower, Bool.and_eq_true, decide_eq_true_eq, decide_eq_true_eq, Char.le_def,
    Char.le_def]

theorem isDigit_iff : c.isDigit = true ↔ '0' ≤ c ∧ c ≤ '9' := by
  rw [Char.isDigit, Bool.and_eq_true, decide_eq_true_eq, decide_eq_true_eq, Char.le_def,
    Char.le_def]

theorem mem_nameFirst : c ∈ nameFirst ↔ (c.isAlpha || c = '_') = true := by
  rw [nameFirst, List.mem_append, List.mem_append, Pattern.mem_range (by decide),
    Pattern.mem_range (by decide), List.mem_singleton, ← isUpper_iff, ← isLower_iff, Char.isAlpha]
  simp

theorem mem_nameRest : c ∈ nameRest ↔ (c.isAlphanum || c = '_') = true := by
  rw [nameRest, List.mem_append, List.mem_append, List.mem_append, Pattern.mem_range (by decide),
    Pattern.mem_range (by decide), Pattern.mem_range (by decide), List.mem_singleton,
    ← isUpper_iff, ← isLower_iff, ← isDigit_iff, Char.isAlphanum, Char.isAlpha]
  simp

/-- The expression for a segment matches what the host accepts as one. -/
theorem mem_segment {p : List Char} :
    p ∈ (Markup.Pattern.oneOf nameFirst * (Markup.Pattern.oneOf nameRest).star).matches' ↔
      rosSegment p = true := by
  rw [Pattern.mem_class_star, rosSegment, Bool.and_eq_true, List.all_eq_true]
  cases p with
  | nil => simp
  | cons c l =>
    simp only [List.cons.injEq, List.head?_cons, Option.any_some, List.forall_mem_cons]
    constructor
    · rintro ⟨_, _, ⟨rfl, rfl⟩, hc, hl⟩
      have hfirst := mem_nameFirst.mp hc
      have hrest : (c.isAlphanum || c = '_') = true := by
        rw [Bool.or_eq_true] at hfirst ⊢
        exact hfirst.imp_left fun halpha => by rw [Char.isAlphanum, halpha, Bool.true_or]
      exact ⟨hfirst, hrest, fun d hd => mem_nameRest.mp (hl d hd)⟩
    · rintro ⟨hc, -, hl⟩
      exact ⟨c, l, ⟨rfl, rfl⟩, mem_nameFirst.mpr hc, fun d hd => mem_nameRest.mpr (hl d hd)⟩

theorem slash_not_mem {p : List Char} (h : rosSegment p = true) : '/' ∉ p := by
  rw [rosSegment, Bool.and_eq_true, List.all_eq_true] at h
  intro hmem
  exact absurd (h.2 '/' hmem) (by decide)

theorem rmatch_rosPattern {s : List Char} : rosPattern.rmatch s = true ↔
    s.head? = some '/' ∧ ((s.drop 1).splitOn '/').all rosSegment = true := by
  rw [RegularExpression.rmatch_iff_matches', rosPattern,
    Pattern.mem_path fun p hp => slash_not_mem (mem_segment.mp hp), List.all_eq_true]
  constructor
  · rintro ⟨t, rfl, hall⟩
    exact ⟨rfl, fun p hp => mem_segment.mp (hall p hp)⟩
  · rintro ⟨hhead, hall⟩
    cases s with
    | nil => cases hhead
    | cons c t =>
      cases hhead
      exact ⟨t, rfl, fun p hp => mem_segment.mpr (hall p hp)⟩

/-- The root is not a path. -/
theorem rmatch_root : rosPattern.rmatch "/".toList = false := by
  rw [Bool.eq_false_iff, ne_eq, rmatch_rosPattern]
  decide

theorem rosName_eq_ok {s t : String} {allowRoot : Bool} :
    rosName (.string s) allowRoot = .ok t ↔
      s = t ∧ RosJtc.rosName s = true ∧ (allowRoot = true ∨ s ≠ "/") := by
  simp only [rosName, text, Checks.bind_eq_ok, Except.ok.injEq, exists_eq_left', require_eq_ok,
    Checks.pure_eq_ok, exists_and_left, exists_const]
  rw [and_comm]
  refine and_congr_right fun _ => ?_
  by_cases hroot : s = "/"
  · have hsize : s.utf8ByteSize ≤ 256 := by
      rw [hroot]
      decide
    rw [RosJtc.rosName, if_pos hroot, hroot, rmatch_root]
    rw [hroot] at hsize
    simp only [hsize, and_true, Bool.false_eq_true, or_false, true_and, ne_eq, not_true_eq_false]
  · rw [RosJtc.rosName, if_neg hroot, rmatch_rosPattern]
    simp only [hroot, and_false, false_or, Bool.and_eq_true, decide_eq_true_eq, ne_eq,
      not_false_eq_true, or_true, and_true, and_assoc]

/-- A name does not end in a slash, the root apart. -/
theorem rdropWhile_of_rosName {s : String} (h : RosJtc.rosName s = true) :
    String.ofList (s.toList.rdropWhile (· = '/')) = if s = "/" then "" else s := by
  by_cases hroot : s = "/"
  · subst hroot
    rfl
  · rw [RosJtc.rosName, if_neg hroot, Bool.and_eq_true, Bool.and_eq_true, decide_eq_true_eq,
      decide_eq_true_eq] at h
    rw [if_neg hroot]
    obtain ⟨⟨-, hhead⟩, hall⟩ := h
    have hkeep : s.toList.rdropWhile (· = '/') = s.toList := by
      rw [List.rdropWhile_eq_self_iff]
      intro hne hlast
      rw [decide_eq_true_eq] at hlast
      -- a slash at the end would leave an empty segment behind it
      have hend : s.toList = s.toList.dropLast ++ ['/'] := by
        rw [← hlast, List.dropLast_append_getLast]
      cases hinit : s.toList.dropLast with
      | nil =>
        rw [hinit] at hend
        exact hroot (String.toList_inj.mp hend)
      | cons c l =>
        rw [hinit] at hend
        have hdrop : s.toList.drop 1 = l ++ '/' :: [] := by rw [hend]; rfl
        rw [hdrop, List.splitOn, List.splitOnP_append_cons _ _ (by rfl),
          List.all_append, Bool.and_eq_true] at hall
        exact absurd hall.2 (by decide)
    rw [hkeep, String.ofList_toList]

end Bridge

/-! ## The message of a goal -/

/-- The value of a finite number. -/
def Double.value : Double → ℚ
  | finite value => value
  | _ => 0

/-- The tolerance that the bridge reads. -/
def Tolerance.native (t : Tolerance) : Bridge.JointTolerance :=
  ⟨t.name, t.position.value, t.velocity.value, t.acceleration.value⟩

/-- Seconds and nanoseconds. -/
def nativeDuration (n : Counter) : Bridge.Duration := ⟨n / 1000000000, n % 1000000000⟩

/-- The point that the bridge reads. -/
def Point.native (p : Point) : Bridge.TrajectoryPoint :=
  ⟨p.positions.map (·.value), p.velocities.map (·.value), p.accelerations.map (·.value),
    nativeDuration p.timeNs⟩

/-- The message that a goal says. -/
def Goal.native (g : Goal) : Bridge.ActionGoal :=
  ⟨g.joints, g.points.map (·.native), g.pathTolerance.map (·.native),
    g.goalTolerance.map (·.native), nativeDuration g.goalTimeNs⟩

theorem nativeDuration_ns (n : Counter) : (nativeDuration n).ns = n := by
  exact Nat.div_add_mod' n 1000000000

namespace Bridge

section Values

theorem counter_counterJson {n : Counter} (h : n < counterBound) :
    counter (counterJson n) = .ok n := by
  have hread := readCounter_toString h
  have hchars := fromChars_toString h
  have hshape : (toString n).toList ≠ [] ∧
      ((toString n).toList.length = 1 ∨ (toString n).toList.head? ≠ some '0') := by
    have hne : (toString n).toList ≠ [] := by
      rw [Nat.toString_eq_repr, Nat.toList_repr]
      exact Nat.toDigits_ne_nil
    refine ⟨hne, ?_⟩
    by_contra hzero
    rw [not_or, not_not] at hzero
    have hlength := List.length_pos_of_ne_nil hne
    rw [readCounter, if_pos ⟨by omega, hzero.2⟩] at hread
    cases hread
  refine Checks.bind_eq_ok.mpr ⟨toString n, rfl, Checks.bind_eq_ok.mpr ⟨(), ?_, ?_⟩⟩
  · exact require_eq_ok.mpr hshape
  · rw [hchars]
    rfl

theorem duration_ok {n : Counter} (h : n ≤ 3600000000000) :
    duration n = .ok (nativeDuration n) := by
  simp only [duration, require, if_pos h]
  rfl

theorem number_json {x : Double} (h : x.valid = true) : number x.json = .ok x.value := by
  cases x with
  | finite value => exact if_pos (of_decide_eq_true h)
  | infinite _ => cases h
  | nan => cases h

theorem vector_json {l : List Double} (count : ℕ) (optional : Bool)
    (hlength : l.length = count ∨ (optional = true ∧ l = [])) (h : ∀ x ∈ l, x.valid = true) :
    vector (.array (l.map (·.json))) count optional = .ok (l.map (·.value)) := by
  have hshape : (l.map (·.json)).length = count ∨ (optional = true ∧ l.map (·.json) = []) := by
    rw [List.length_map, List.map_eq_nil_iff]
    exact hlength
  rw [vector, if_pos hshape, List.mapM_map]
  exact Checks.mapM_eq_ok_map fun x hx => number_json (h x hx)

theorem tolerance_json {t : Tolerance} {joint : String} (h : t.admits joint = true) :
    tolerance t.json joint = .ok t.native := by
  rw [Tolerance.admits, Bool.and_eq_true, decide_eq_true_eq] at h
  obtain ⟨rfl, hall⟩ := h
  simp only [List.all_cons, List.all_nil, Bool.and_true, Bool.and_eq_true,
    Bool.not_eq_true'] at hall
  obtain ⟨⟨hposition, hposition'⟩, ⟨hvelocity, hvelocity'⟩, hacceleration, hacceleration'⟩ := hall
  have hpos : ∀ {x : Double}, x.valid = true → x.nonPositive = false → 0 < x.value := by
    intro x hx hx'
    cases x with
    | finite value => exact not_le.mp (of_decide_eq_false hx')
    | infinite _ => cases hx
    | nan => cases hx
  have hpositive : 0 < t.position.value ∧ 0 < t.velocity.value ∧ 0 < t.acceleration.value :=
    ⟨hpos hposition hposition', hpos hvelocity hvelocity', hpos hacceleration hacceleration'⟩
  simp [tolerance, keys, require, Tolerance.json, Json.keys, Json.get?, member, text, List.lookup,
    number_json hposition, number_json hvelocity, number_json hacceleration, hpositive,
    Tolerance.native, bind, Except.bind, pure, Except.pure]

theorem tolerances_json {l : List Tolerance} {joints : List String}
    (h : validateTolerances joints l = .ok ()) :
    tolerances (.array (l.map (·.json))) joints = .ok (l.map (·.native)) := by
  rw [validateTolerances] at h
  split_ifs at h with hvalid
  obtain ⟨hlength, hall⟩ := hvalid
  have hnative : l.map (·.native) = (l.zip joints).map fun e => e.1.native := by
    have hfst := List.map_fst_zip (le_of_eq hlength)
    conv_lhs => rw [← hfst, List.map_map]
    rfl
  rw [tolerances, if_pos (by rw [List.length_map, hlength]), List.zip_map_left, List.mapM_map,
    hnative]
  apply Checks.mapM_eq_ok_map
  intro e he
  exact tolerance_json (List.all_eq_true.mp hall e he)

theorem point_json {p : Point} {joints : List String} {previous : Counter}
    (h : p.Valid joints previous) : point p.json joints previous = .ok (p.timeNs, p.native) := by
  obtain ⟨hpositions, hvelocities, haccelerations, hall, hlater, hbound⟩ := h
  rw [List.all_eq_true] at hall
  have hvalid : ∀ {l : List Double}, l ⊆ p.positions ++ p.velocities ++ p.accelerations →
      ∀ x ∈ l, x.valid = true := fun hl x hx => hall x (hl hx)
  have hp := vector_json joints.length false (Or.inl hpositions)
    (hvalid (List.subset_append_of_subset_left _ (List.subset_append_left _ _)))
  have hv := vector_json joints.length true
    (hvelocities.symm.imp_right fun h => ⟨rfl, h⟩)
    (hvalid (List.subset_append_of_subset_left _ (List.subset_append_right _ _)))
  have ha := vector_json joints.length true
    (haccelerations.symm.imp_right fun h => ⟨rfl, h⟩) (hvalid (List.subset_append_right _ _))
  have hcounter : p.timeNs < counterBound := lt_of_le_of_lt hbound (by decide)
  simp [point, keys, require, Point.json, Json.keys, Json.get?, member, List.lookup, hp, hv, ha,
    counter_counterJson hcounter, hlater, duration_ok hbound, Point.native, bind, Except.bind, pure,
    Except.pure]

theorem points_json {l : List Point} {joints : List String} {previous : Counter}
    (h : validatePoints joints previous l = .ok ()) :
    points joints previous (l.map (·.json)) = .ok (l.map (·.native)) := by
  induction l generalizing previous with
  | nil => rfl
  | cons p l ih =>
    rw [validatePoints] at h
    split_ifs at h with hvalid
    rw [List.map_cons, points, point_json hvalid]
    change (points joints p.timeNs (l.map (·.json)) >>= fun rest => pure (p.native :: rest)) = _
    rw [ih h]
    rfl

end Values

/-- A goal that the host accepts is accepted, as the message that it says. -/
theorem goal_json {b : Build} {c : Configuration} {g : Goal} {joints : List String}
    (hjoints : c.joints b = .ok joints) (h : g.validate b c = .ok ()) :
    goal g.json joints = .ok g.native := by
  simp only [Goal.validate, hjoints, Checks.bind_eq_ok, Except.ok.injEq, exists_eq_left',
    Checks.guard_eq_ok, not_or, not_not] at h
  obtain ⟨⟨rfl, hne, hcount, hzero, htime⟩, _, hpoints, _, hpath, _, hgoal, -⟩ := h
  have hcounter : g.goalTimeNs < counterBound := lt_of_le_of_lt (not_lt.mp htime) (by decide)
  have hmax : g.goalTimeNs ≤ 3600000000000 := (not_lt.mp htime).trans (by decide)
  have hbounds : 0 < g.goalTimeNs ∧ g.goalTimeNs ≤ 60000000000 :=
    ⟨Nat.pos_of_ne_zero hzero, not_lt.mp htime⟩
  have htrajectory : trajectory (.array (g.points.map (·.json))) g.joints =
      .ok (g.points.map (·.native)) := by
    rw [trajectory, if_pos, points_json hpoints]
    rw [ne_eq, List.map_eq_nil_iff, List.length_map]
    exact ⟨hne, not_lt.mp hcount⟩
  simp [goal, keys, require, Goal.json, Json.keys, Json.get?, member, List.lookup, stringsJson,
    htrajectory, tolerances_json hpath, tolerances_json hgoal, counter_counterJson hcounter,
    hbounds, duration_ok hmax, Goal.native, bind, Except.bind, pure, Except.pure]

/-! ## The catalog -/

theorem shaped_interfaces {n : ℕ} (d : InterfaceDeclaration) : d.json.Shaped (n + 4) := by
  cases d with
  | names items => exact shaped_stringsJson items
  | gpio groups =>
    rw [InterfaceDeclaration.json]
    apply shaped_mapJson
    intro e _
    simp [Json.shaped_array, Json.shaped_object]

theorem shaped_catalog (c : DeviceCatalog) : c.json.Shaped 9 := by
  have hcontroller : ∀ d : ControllerDeclaration, d.json.Shaped 5 := fun d => by
    simp [ControllerDeclaration.json, Json.shaped_object, shaped_interfaces]
  have hprofile : ∀ p : SupportProfile, p.json.Shaped 7 := fun p => by
    unfold SupportProfile.json
    split_ifs <;> simp [Json.shaped_object, Json.shaped_array, SourceFile.json, FixtureFile.json,
      hcontroller]
  simp [DeviceCatalog.json, Json.shaped_object, Json.shaped_array, RepositoryPin.json, hprofile]

theorem parse_catalog (c : DeviceCatalog) : parse c.json = .ok c.json := by
  obtain ⟨hstrict, hnesting⟩ := shaped_catalog c
  have hdepth : c.json.depth ≤ 32 := by
    have := c.json.depth_le_nesting
    omega
  simp [parse, require, hstrict, hdepth, bind, Except.bind, pure, Except.pure]

theorem strings_json (l : List String) : strings (stringsJson l) = .ok l := by
  rw [stringsJson, strings, List.mapM_map]
  exact (Checks.mapM_eq_ok_map (g := id) fun s _ => rfl).trans (by rw [List.map_id])

theorem selectController_other {controller : String} {d : ControllerDeclaration}
    (h : d.name ≠ controller) (s : Selection) : selectController controller s d.json = .ok s := by
  simp [selectController, ControllerDeclaration.json, member, Json.get?, List.lookup, text, h, bind,
    Except.bind, pure, Except.pure]

theorem selectController_this {d : ControllerDeclaration} {interfaces : List String}
    (hplugin : d.plugin = jtcPlugin) (hnames : d.commandInterfaces = .names interfaces)
    (s : Selection) : selectController d.name s d.json =
      .ok { s with joints := d.jointOrder, interfaces := interfaces, found := true } := by
  simp [selectController, ControllerDeclaration.json, member, Json.get?, List.lookup, text, require,
    hplugin, jtcPlugin, hnames, InterfaceDeclaration.json, strings_json, bind, Except.bind, pure,
    Except.pure]

theorem selectProfile_other {support controller : String} {p : SupportProfile}
    (h : p.supportId ≠ support) (s : Selection) :
    selectProfile support controller s p.json = .ok s := by
  simp [selectProfile, SupportProfile.json, member, Json.get?, List.lookup, text, h, bind,
    Except.bind, pure, Except.pure]

theorem selectProfile_this {controller : String} {p : SupportProfile}
    (hrole : p.role.moves = true) (s : Selection) :
    selectProfile p.supportId controller s p.json =
      p.controllers.foldlM (fun s d => selectController controller s d.json)
        { s with model := p.model } := by
  have hrole : p.role.text = "MANIPULATOR" ∨ p.role.text = "FOLLOWER" ∨
      p.role.text = "MOBILE_BASE" := by
    revert hrole
    cases p.role <;> simp [ControlRole.moves, ControlRole.text]
  simp [selectProfile, SupportProfile.json, member, Json.get?, List.lookup, text, require, hrole,
    elements, List.foldlM_map, bind, Except.bind]

end Bridge

/-! ## Configurations -/

/-- What the host has checked of a configuration with its joints. -/
structure Selected (b : Build) (c : Configuration) (joints : List String) where
  profile : SupportProfile
  controller : ControllerDeclaration
  valid : b.catalog.validate = .ok ()
  profile_mem : profile ∈ b.catalog.profiles
  support : profile.supportId = c.supportId
  moves : profile.role.moves = true
  controller_mem : controller ∈ profile.controllers
  name : controller.name = c.controller
  plugin : controller.plugin = jtcPlugin
  position : controller.commandInterfaces = .names ["position"]
  order : controller.jointOrder = joints
  joints_ne : joints ≠ []
  joints_le : joints.length ≤ 64
  joints_nodup : joints.Nodup

theorem elim_eq_ok {α : Type} {o : Option α} {e : Host.HostError} {a : α} :
    o.elim (Except.error e) Except.ok = .ok a ↔ o = some a := by
  cases o <;> simp

theorem Configuration.joints_eq_ok {b : Build} {c : Configuration} {joints : List String}
    (h : c.joints b = .ok joints) :
    (c.schema = "rx.ros-jtc-bridge.v1" ∧ c.catalogSha256 = b.catalogSha256 ∧
      rosName c.ns = true ∧ rosName c.controllerManager = true ∧ c.domainId ≤ 232 ∧
      (1 ≤ c.timeoutMs ∧ c.timeoutMs ≤ 1000) ∧ (1 ≤ c.capacity ∧ c.capacity ≤ 512)) ∧
    Nonempty (Selected b c joints) := by
  simp only [Configuration.joints, Checks.guard_eq_ok, Checks.bind_eq_ok, Checks.mapError_eq_ok,
    elim_eq_ok, Checks.pure_eq_ok, not_or, not_not, not_lt, Bool.not_eq_false] at h
  obtain ⟨hhead, catalog, hcatalog, p, hp, hmoves, d, hd, ⟨hposition, hne, hle, hnodup⟩,
    horder⟩ := h
  obtain ⟨rfl, hvalid⟩ := Build.builtinCatalog_eq_ok hcatalog
  have hname := List.find?_some hd
  rw [decide_eq_true_eq] at hname
  have hinterfaces : d.commandInterfaces = .names ["position"] := by
    cases hcommand : d.commandInterfaces with
    | names items =>
      rw [hcommand, InterfaceDeclaration.position, decide_eq_true_eq] at hposition
      rw [hposition]
    | gpio groups =>
      rw [hcommand] at hposition
      cases hposition
  have hsupport := List.find?_some hp
  rw [decide_eq_true_eq] at hsupport
  subst horder
  exact ⟨hhead, ⟨p, d, hvalid, List.mem_of_find?_eq_some hp,
    hsupport, hmoves, List.mem_of_find?_eq_some hd, hname.1, hname.2,
    hinterfaces, rfl, hne, hle, hnodup⟩⟩

namespace Bridge

/-- The loops find what the host has found: no other profile or controller has the name. -/
theorem select_eq_ok {b : Build} {c : Configuration} {joints : List String}
    (h : Selected b c joints) : (b.catalog.profiles.map (·.json)).foldlM
      (selectProfile c.supportId c.controller) Selection.empty =
        .ok ⟨h.profile.model, joints, ["position"], true⟩ := by
  obtain ⟨hsupports, hnames⟩ := DeviceCatalog.distinct h.valid
  have hcontrollers : h.profile.controllers.foldlM
      (fun s d => selectController c.controller s d.json)
      { Selection.empty with model := h.profile.model } =
        .ok ⟨h.profile.model, joints, ["position"], true⟩ := by
    rw [Checks.foldlM_unique (hnames _ h.profile_mem) h.controller_mem
      (fun d _ hd => selectController_other (h.name ▸ hd)), ← h.name,
      selectController_this h.plugin h.position, h.order]
  rw [List.foldlM_map, Checks.foldlM_unique hsupports h.profile_mem
    (fun p _ hp => selectProfile_other (h.support ▸ hp)), ← h.support, selectProfile_this h.moves]
  exact hcontrollers

theorem integer_number {n maximum : ℕ} (h : n ≤ maximum) :
    integer (.number n) maximum = .ok n := by
  have hden : ((n : ℚ)).den = 1 := Rat.den_natCast n
  have hnum : ((n : ℚ)).num = n := Rat.num_natCast n
  rw [integer, hden, hnum, if_neg (not_not.mpr rfl), if_pos ⟨Int.natCast_nonneg n, by omega⟩,
    Int.toNat_natCast]

/-- All that is left of the checks is the name of the controller manager. -/
theorem setup_json {b : Build} {c : Configuration} {joints : List String}
    (h : c.joints b = .ok joints) : ∃ model, setup b c.json =
      (rosName (.string c.controllerManager) false).map fun manager => {
        support := c.supportId
        controller := c.controller
        model := model
        joints := joints
        interfaces := ["position"]
        timeout := c.timeoutMs
        capacity := c.capacity
        action := c.action
        manager := manager
        domain := c.domainId } := by
  obtain ⟨⟨hschema, hdigest, hns, -, hdomain, htimeout, hcapacity⟩, ⟨hselected⟩⟩ :=
    Configuration.joints_eq_ok h
  refine ⟨hselected.profile.model, ?_⟩
  have hnamespace : rosName (.string c.ns) true = .ok c.ns :=
    rosName_eq_ok.mpr ⟨rfl, hns, Or.inl rfl⟩
  have haction : (if c.ns = "/" then "" else c.ns) ++ "/" ++ c.controller ++
      "/follow_joint_trajectory" = c.action := by
    rw [Configuration.action, rdropWhile_of_rosName hns]
  have hcatalog : parse b.catalog.json = .ok (.object [("schema", .string b.catalog.schema),
      ("repositories", .array (b.catalog.repositories.map (·.json))),
      ("profiles", .array (b.catalog.profiles.map (·.json)))]) := parse_catalog b.catalog
  have hfound := select_eq_ok hselected
  have hpositive : 0 < c.timeoutMs ∧ 0 < c.capacity := ⟨htimeout.1, hcapacity.1⟩
  cases hmanager : rosName (.string c.controllerManager) false <;>
  simp [setup, keys, require, Configuration.json, Json.keys, Json.get?, member, List.lookup, text,
    hschema, hdigest, integer_number htimeout.2, integer_number hcapacity.2, hpositive,
    hcatalog, elements, hfound, hselected.joints_ne, hselected.joints_le,
    hselected.joints_nodup, hnamespace, hmanager, integer_number hdomain, haction, bind,
    Except.bind, pure, Except.pure, Except.map]

end Bridge

/-- A configuration that the host accepts is accepted by the bridge, with the same joints and the
same action, exactly when its controller manager is not the root; and every goal that the host
accepts for it is accepted by the bridge, with the same joints, times and tolerances. -/
theorem host_bridge_agree (b : Build) (c : Configuration) (joints : List String)
    (h : c.joints b = .ok joints) :
    ((∃ s, Bridge.setup b c.json = .ok s ∧ s.joints = joints ∧ s.action = c.action) ↔
      c.controllerManager ≠ "/") ∧
    ∀ g : Goal, g.validate b c = .ok () → ∃ native, Bridge.goal g.json joints = .ok native ∧
      native.jointNames = g.joints ∧
      native.points.map (·.timeFromStart.ns) = g.points.map (·.timeNs) ∧
      native.points.map (·.positions) = g.points.map (·.positions.map (·.value)) ∧
      native.pathTolerance = g.pathTolerance.map (·.native) ∧
      native.goalTolerance = g.goalTolerance.map (·.native) ∧
      native.goalTimeTolerance.ns = g.goalTimeNs := by
  constructor
  · obtain ⟨model, hsetup⟩ := Bridge.setup_json h
    have hmanager := (Configuration.joints_eq_ok h).1.2.2.2.1
    rw [hsetup]
    constructor
    · rintro ⟨s, hs, -⟩ hroot
      cases hname : Bridge.rosName (.string c.controllerManager) false with
      | error e => simp [hname, Except.map] at hs
      | ok manager =>
        have hnot := (Bridge.rosName_eq_ok.mp hname).2.2
        exact hnot.elim Bool.false_ne_true fun hne => hne hroot
    · intro hne
      rw [Bridge.rosName_eq_ok.mpr ⟨rfl, hmanager, Or.inr hne⟩]
      exact ⟨_, rfl, rfl, rfl⟩
  · intro g hg
    refine ⟨g.native, Bridge.goal_json h hg, rfl, ?_, ?_, rfl, rfl, nativeDuration_ns _⟩
    · rw [Goal.native, List.map_map]
      exact List.map_congr_left fun p _ => nativeDuration_ns p.timeNs
    · rw [Goal.native, List.map_map]
      rfl

/-- A controller of the bundled catalog. -/
def bundledController (name plugin : String) (joints : List String) : ControllerDeclaration where
  name := name
  plugin := plugin
  jointOrder := joints
  commandInterfaces := .names ["position"]
  stateInterfaces := .names ["position", "velocity"]

/-- A profile of the bundled catalog. -/
def bundledProfile (support model : Name) (role : ControlRole)
    (controllers : List ControllerDeclaration) : SupportProfile where
  supportId := support
  model := model
  role := role
  declaredUpdateHz := 100
  sources := []
  fixtureSources := [⟨"catalogs/fixtures/controllers.v1.json",
    "353fedf33febe4579d8161fe148ce13772a8b1c0d2ad3f4efd0348391d01d1ac"⟩]
  controllers := controllers
  evidenceLevel := .simulationFixture
  commissioningInputs :=
    ["native-authority", "calibration", "startup-effects", "handover", "completion-evidence"]
  notes := ["Synthetic software fixture; never physical qualification or a manufacturer support " ++
    "declaration."]

/-- The joints of an arm. -/
def sixJoints : List String := ["joint1", "joint2", "joint3", "joint4", "joint5", "joint6"]

/-- The programs as they are built with the bundled catalog. -/
def bundled : Build where
  catalog := {
    schema := "rx.device-support.v1"
    repositories := []
    profiles := [
      bundledProfile "SIM-JTC-6DOF" "sim-arm-6" .manipulator [
        bundledController "arm_controller" jtcPlugin sixJoints,
        bundledController "gripper_controller" "position_controllers/GripperActionController"
          ["joint1"]],
      bundledProfile "SIM-JTC-7DOF" "sim-arm-7" .follower [
        bundledController "arm_controller" jtcPlugin (sixJoints ++ ["joint7"])],
      bundledProfile "SIM-LEADER" "sim-leader" .leader [
        bundledController "arm_controller" jtcPlugin sixJoints],
      bundledProfile "SIM-IMPEDANCE" "sim-impedance" .impedanceControl [
        bundledController "joint_group_impedance_controller" "simulation/ImpedanceController"
          sixJoints]] }
  catalogSha256 := "669aaf825d542bf3173ab49072350b488e2f71826dfd9492e006d059a3c2ccbd"
  fixture := fun _ => .ok ()
  numberLength := fun _ => 24

/-- A configuration of the simulated arm with six joints. -/
def armConfiguration (manager : String) : Configuration where
  schema := "rx.ros-jtc-bridge.v1"
  catalogSha256 := "669aaf825d542bf3173ab49072350b488e2f71826dfd9492e006d059a3c2ccbd"
  supportId := "SIM-JTC-6DOF"
  controller := "arm_controller"
  ns := "/cell_robot"
  controllerManager := manager
  domainId := 171
  timeoutMs := 150
  capacity := 32

theorem host_bridge_agree_arm :
    (armConfiguration "/cell_robot/controller_manager").joints bundled = .ok sixJoints ∧
    ∃ s, Bridge.setup bundled (armConfiguration "/cell_robot/controller_manager").json = .ok s ∧
      s.joints = sixJoints ∧ s.action = "/cell_robot/arm_controller/follow_joint_trajectory" := by
  have hjoints : (armConfiguration "/cell_robot/controller_manager").joints bundled =
    .ok sixJoints := by decide +kernel
  exact ⟨hjoints, (host_bridge_agree bundled _ sixJoints hjoints).1.mpr (by decide +kernel)⟩

/-- The host accepts the root as a controller manager, the bridge does not. -/
theorem root_manager_refused : (armConfiguration "/").joints bundled = .ok sixJoints ∧
    Bridge.setup bundled (armConfiguration "/").json =
      .error (.invalidArgument "absolute ROS name required") := by
  constructor
  · decide +kernel
  · have hjoints : (armConfiguration "/").joints bundled = .ok sixJoints := by decide +kernel
    obtain ⟨model, hsetup⟩ := Bridge.setup_json hjoints
    have hname : Bridge.rosName (.string "/") false =
        .error (.invalidArgument "absolute ROS name required") := by decide +kernel
    rw [hsetup]
    change (Bridge.rosName (.string "/") false).map _ = _
    rw [hname]
    rfl

end RxSolutions.RosJtc
