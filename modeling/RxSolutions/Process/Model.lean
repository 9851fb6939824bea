import Mathlib.Algebra.GroupWithZero.Nat
import RxSolutions.Domain.Intent
import RxSolutions.Domain.Syntax
import RxSolutions.Durable.SortedMap

/-!
# Process sources and resolved processes

A source is a set of flows that call each other; each flow is a tree of nodes that name
their children. A resolved process is one tree, with every call and repetition expanded and
every node under an identity derived from its place in the source.
-/

namespace RxSolutions.Process

open Domain Durable

/-- A condition over facts. Finite doubles are read as the rationals they denote. -/
inductive Condition
  | all (children : List Condition)
  | any (children : List Condition)
  | eq (fact schema unit : Name) (expected : TypedValue)
  | range (fact schema unit : Name) (min max : ℚ)
  | setContains (fact schema unit expected : Name)

namespace Condition

mutual

/-- Whether two conditions are the same. -/
def same : Condition → Condition → Bool
  | .all cs, .all ds => sameAll cs ds
  | .any cs, .any ds => sameAll cs ds
  | .eq fact schema unit expected, .eq fact' schema' unit' expected' =>
    (fact, schema, unit, expected) = (fact', schema', unit', expected')
  | .range fact schema unit min max, .range fact' schema' unit' min' max' =>
    (fact, schema, unit, min, max) = (fact', schema', unit', min', max')
  | .setContains fact schema unit expected, .setContains fact' schema' unit' expected' =>
    (fact, schema, unit, expected) = (fact', schema', unit', expected')
  | _, _ => false

/-- Two lists of conditions are the same. -/
def sameAll : List Condition → List Condition → Bool
  | [], [] => true
  | c :: cs, d :: ds => same c d && sameAll cs ds
  | _, _ => false

end

mutual

theorem same_iff : ∀ c d : Condition, same c d = true ↔ c = d
  | .all cs, .all ds => by simp [same, sameAll_iff cs ds]
  | .any cs, .any ds => by simp [same, sameAll_iff cs ds]
  | .eq .., d => by cases d <;> simp [same]
  | .range .., d => by cases d <;> simp [same]
  | .setContains .., d => by cases d <;> simp [same]
  | .all _, .any _ | .all _, .eq .. | .all _, .range .. | .all _, .setContains .. => by simp [same]
  | .any _, .all _ | .any _, .eq .. | .any _, .range .. | .any _, .setContains .. => by simp [same]

theorem sameAll_iff : ∀ cs ds : List Condition, sameAll cs ds = true ↔ cs = ds
  | [], [] => by simp [sameAll]
  | c :: cs, d :: ds => by simp [sameAll, same_iff c d, sameAll_iff cs ds]
  | [], _ :: _ | _ :: _, [] => by simp [sameAll]

end

instance : DecidableEq Condition := fun c d => decidable_of_iff _ (same_iff c d)

end Condition

/-- What a node of a flow does. -/
inductive NodeBody
  | sequence (children : List Name)
  | parallelAll (children : List Name)
  | branch (condition whenTrue whenFalse : Name)
  | repeat (count : Counter) (child : Name)
  | call (flow : Name)
  | operation (binding : Name)
  | wait (condition : Name) (timeoutNs : Counter)
  | intervention (procedure : ArtifactRef)
  deriving DecidableEq, Repr

/-- The nodes that a node names. -/
def NodeBody.children : NodeBody → List Name
  | .sequence children | .parallelAll children => children
  | .branch _ whenTrue whenFalse => [whenTrue, whenFalse]
  | .repeat _ child => [child]
  | .call _ | .operation _ | .wait .. | .intervention _ => []

/-- A node of a flow. -/
structure Node where
  id : Name
  body : NodeBody
  deriving DecidableEq, Repr

/-- Nodes with a root among them. -/
structure Flow where
  id : Name
  root : Name
  nodes : List Node
  deriving DecidableEq, Repr

/-- The first node of a flow with an identifier. -/
def Flow.find (flow : Flow) (id : Name) : Option Node := flow.nodes.find? (·.id = id)

/-- A process as it is written: its flows and the conditions they name. -/
structure ProcessSource where
  schema : Name
  process : Name
  entry : Name
  flows : List Flow
  conditions : SortedMap Name Condition

/-- The flows by identifier. -/
def ProcessSource.flowMap (source : ProcessSource) : SortedMap Name Flow :=
  SortedMap.empty.overlay (source.flows.map fun flow => (flow.id, flow)) some

/-- The host and the intent behind an operation. -/
structure ActionBinding where
  host : Name
  intent : Intent
  deriving DecidableEq

/-- The place in the source that a compiled node comes from. -/
structure SourceLocation where
  flow : Name
  node : Name
  instantiation : List String
  deriving DecidableEq, Repr

/-- A node of the resolved tree: the source's struct with one constructor for each body. -/
inductive CompiledNode
  | sequence (id : Name) (source : SourceLocation) (children : List CompiledNode)
  | parallelAll (id : Name) (source : SourceLocation) (children : List CompiledNode)
  | branch (id : Name) (source : SourceLocation) (condition : Name)
      (whenTrue whenFalse : CompiledNode)
  | operation (id : Name) (source : SourceLocation) (binding : Name)
  | wait (id : Name) (source : SourceLocation) (condition : Name) (timeoutNs : Counter)
  | intervention (id : Name) (source : SourceLocation) (procedure : ArtifactRef)

/-- A process with its flows unfolded into a tree. -/
structure ResolvedProcess where
  schema : Name
  packageDigest : Option Digest
  sourceDigest : Digest
  process : Name
  root : CompiledNode
  bindings : SortedMap Name ActionBinding
  conditions : SortedMap Name Condition

/-- The digests of canonical documents. -/
class Hashing where
  /-- Of a process and a source location. -/
  node : Name → SourceLocation → Digest
  source : ProcessSource → Digest
  process : ResolvedProcess → Digest
  intent : Intent → Digest
  /-- The canonical bytes of the conditions. -/
  conditions : SortedMap Name Condition → String

namespace CompiledNode

/-- The identifier of a node. -/
def id : CompiledNode → Name
  | .sequence id .. | .parallelAll id .. | .branch id .. | .operation id .. | .wait id ..
  | .intervention id .. => id

/-- Where a node comes from. -/
def source : CompiledNode → SourceLocation
  | .sequence _ source .. | .parallelAll _ source .. | .branch _ source .. | .operation _ source ..
  | .wait _ source .. | .intervention _ source .. => source

/-- What a node is, apart from its identity and its children. -/
inductive Label
  | sequence
  | parallelAll
  | branch (condition : Name)
  | operation (binding : Name)
  | wait (condition : Name) (timeoutNs : Counter)
  | intervention (procedure : ArtifactRef)
  deriving DecidableEq, Repr

/-- What a node does, apart from its children. -/
def label : CompiledNode → Label
  | .sequence .. => .sequence
  | .parallelAll .. => .parallelAll
  | .branch _ _ condition .. => .branch condition
  | .operation _ _ binding => .operation binding
  | .wait _ _ condition timeoutNs => .wait condition timeoutNs
  | .intervention _ _ procedure => .intervention procedure

/-- The nodes right below a node. -/
def children : CompiledNode → List CompiledNode
  | .sequence _ _ children | .parallelAll _ _ children => children
  | .branch _ _ _ whenTrue whenFalse => [whenTrue, whenFalse]
  | .operation .. | .wait .. | .intervention .. => []

/-- Induction over a tree by the list of children of each node. -/
@[elab_as_elim, induction_eliminator]
theorem inductionOn {P : CompiledNode → Prop}
    (h : ∀ t : CompiledNode, (∀ c ∈ t.children, P c) → P t)
    (t : CompiledNode) : P t := by
  refine CompiledNode.rec (motive_1 := P) (motive_2 := fun cs => ∀ c ∈ cs, P c)
    ?_ ?_ ?_ ?_ ?_ ?_ ?_ ?_ t
  · exact fun id source cs hcs => h (.sequence id source cs) hcs
  · exact fun id source cs hcs => h (.parallelAll id source cs) hcs
  · intro id source condition a b ha hb
    apply h (.branch id source condition a b)
    intro c hc
    obtain rfl | hc := List.mem_cons.mp hc
    · exact ha
    · rw [List.mem_singleton.mp hc]
      exact hb
  · exact fun id source binding => h (.operation id source binding) (by simp [children])
  · exact fun id source c t => h (.wait id source c t) (by simp [children])
  · exact fun id source p => h (.intervention id source p) (by simp [children])
  · simp
  · exact fun c cs hc hcs => List.forall_mem_cons.mpr ⟨hc, hcs⟩

mutual

/-- Whether two trees are the same. -/
def same : CompiledNode → CompiledNode → Bool
  | .sequence id source cs, .sequence id' source' ds =>
    (id, source) = (id', source') && sameAll cs ds
  | .parallelAll id source cs, .parallelAll id' source' ds =>
    (id, source) = (id', source') && sameAll cs ds
  | .branch id source condition a b, .branch id' source' condition' a' b' =>
    (id, source, condition) = (id', source', condition') && same a a' && same b b'
  | .operation id source binding, .operation id' source' binding' =>
    (id, source, binding) = (id', source', binding')
  | .wait id source condition timeoutNs, .wait id' source' condition' timeoutNs' =>
    (id, source, condition, timeoutNs) = (id', source', condition', timeoutNs')
  | .intervention id source procedure, .intervention id' source' procedure' =>
    (id, source, procedure) = (id', source', procedure')
  | _, _ => false

/-- Two lists of nodes are the same. -/
def sameAll : List CompiledNode → List CompiledNode → Bool
  | [], [] => true
  | t :: ts, u :: us => same t u && sameAll ts us
  | _, _ => false

end

theorem sameAll_iff {ts : List CompiledNode} (h : ∀ t ∈ ts, ∀ u, same t u = true ↔ t = u)
    (us : List CompiledNode) : sameAll ts us = true ↔ ts = us := by
  induction ts generalizing us with
  | nil => cases us <;> simp [sameAll]
  | cons t ts ih =>
    have hts := ih fun u hu => h u (List.mem_cons_of_mem _ hu)
    cases us <;> simp [sameAll, h t List.mem_cons_self, hts]

theorem same_iff (t u : CompiledNode) : same t u = true ↔ t = u := by
  induction t generalizing u with
  | h t ih =>
  cases t with
  | sequence id source cs | parallelAll id source cs =>
    have hall : ∀ us, sameAll cs us = true ↔ cs = us := sameAll_iff ih
    cases u <;> simp [same, hall, and_assoc]
  | branch id source condition a b =>
    have ha := ih a List.mem_cons_self
    have hb := ih b (List.mem_cons_of_mem _ List.mem_cons_self)
    cases u <;> simp [same, ha, hb, and_assoc]
  | operation | wait | intervention => cases u <;> simp [same]

instance : DecidableEq CompiledNode := fun t u => decidable_of_iff _ (same_iff t u)

/-- A node is its identity, its location, its label and its children. -/
theorem ext_of {t t' : CompiledNode} (hid : t.id = t'.id) (hsource : t.source = t'.source)
    (hlabel : t.label = t'.label) (hchildren : t.children = t'.children) : t = t' := by
  cases t <;> cases t' <;> simp_all [id, source, label, children]

mutual

/-- The nodes of a tree, parents first and in order. -/
def nodes : CompiledNode → List CompiledNode
  | .sequence id source children => .sequence id source children :: nodesAll children
  | .parallelAll id source children => .parallelAll id source children :: nodesAll children
  | .branch id source condition whenTrue whenFalse =>
    .branch id source condition whenTrue whenFalse :: (whenTrue.nodes ++ whenFalse.nodes)
  | .operation id source binding => [.operation id source binding]
  | .wait id source condition timeoutNs => [.wait id source condition timeoutNs]
  | .intervention id source procedure => [.intervention id source procedure]

/-- The nodes of several trees. -/
def nodesAll : List CompiledNode → List CompiledNode
  | [] => []
  | t :: ts => t.nodes ++ nodesAll ts

end

@[simp] theorem nodesAll_eq (ts : List CompiledNode) : nodesAll ts = ts.flatMap nodes := by
  induction ts with
  | nil => rfl
  | cons t ts ih => rw [nodesAll, ih, List.flatMap_cons]

/-- The nodes of a tree are its root and those of its children. -/
theorem nodes_eq (t : CompiledNode) : t.nodes = t :: t.children.flatMap nodes := by
  cases t <;> simp [nodes, children]

theorem mem_nodes_self (t : CompiledNode) : t ∈ t.nodes := by
  rw [nodes_eq]
  exact List.mem_cons_self

theorem mem_nodes_of_child {t c n : CompiledNode} (hc : c ∈ t.children) (hn : n ∈ c.nodes) :
    n ∈ t.nodes := by
  rw [nodes_eq]
  exact List.mem_cons_of_mem _ (List.mem_flatMap.mpr ⟨c, hc, hn⟩)

/-- The number of nodes. -/
def size (t : CompiledNode) : ℕ := t.nodes.length

theorem size_eq (t : CompiledNode) : t.size = 1 + (t.children.map size).sum := by
  rw [size, nodes_eq, List.length_cons, List.length_flatMap, Nat.add_comm]
  rfl

theorem size_pos (t : CompiledNode) : 0 < t.size := by
  rw [size_eq]
  omega

/-- The tree has at most this many levels. -/
def Within (t : CompiledNode) (fuel : ℕ) : Prop :=
  match fuel with
  | 0 => False
  | n + 1 => ∀ c ∈ t.children, c.Within n

end CompiledNode

deriving instance DecidableEq for ResolvedProcess

/-! ## Syntax

The names, digests and counters of a resolved process have the syntax that their types in the
source give them. -/

/-- The fields of a reference to an artifact. -/
structure ArtifactRef.Typed (r : ArtifactRef) : Prop where
  sha256 : IsDigest r.sha256
  schemaId : IsName r.schemaId
  sizeBytes : r.sizeBytes < counterBound

/-- The fields of a source location. -/
structure SourceLocation.Typed (source : SourceLocation) : Prop where
  flow : IsName source.flow
  node : IsName source.node

/-- What a node carries besides its children. -/
def CompiledNode.Label.Typed : CompiledNode.Label → Prop
  | .sequence | .parallelAll => True
  | .branch condition => IsName condition
  | .operation binding => IsName binding
  | .wait condition timeoutNs => IsName condition ∧ timeoutNs < counterBound
  | .intervention procedure => ArtifactRef.Typed procedure

/-- The fields of one node. -/
structure CompiledNode.Typed (n : CompiledNode) : Prop where
  id : IsName n.id
  source : n.source.Typed
  label : n.label.Typed

/-- A digest of anything is a digest. -/
class LawfulHashing [Hashing] : Prop where
  node : ∀ process source, IsDigest (Hashing.node process source)
  source : ∀ source, IsDigest (Hashing.source source)
  process : ∀ p, IsDigest (Hashing.process p)

end RxSolutions.Process
