import RxSolutions.Domain.Types

/-!
# Operations

What the cell knows about one submitted operation. A stored operation is read back only if
its fields do not contradict each other, and every value carries that.
-/

namespace RxSolutions.Domain

/-- How far an operation has come. -/
inductive Phase
  | admitted | active | reconciling | settled
  deriving DecidableEq, Repr

/-- What is known of its execution. -/
inductive Knowledge
  | notSent | mayHaveExecuted | accepted | running | ended | unknown
  deriving DecidableEq, Repr

/-- How an operation has ended. -/
inductive Outcome
  | none | succeeded | failed | canceled | notExecuted | unresolved
  deriving DecidableEq, Repr

/-- Whether its evidence is disputed. -/
inductive Integrity
  | valid | disputed
  deriving DecidableEq, Repr

/-- What has become of its resources. -/
inductive Disposition
  | held | quarantined | released
  deriving DecidableEq, Repr

/-- An operation at a revision. -/
structure OperationSnapshot where
  operationId : Id
  revision : Counter
  intentDigest : Digest
  phase : Phase
  executionKnowledge : Knowledge
  outcome : Outcome
  integrity : Integrity
  disposition : Disposition
  evidenceIds : List Id
  deriving DecidableEq, Repr

/-- The knowledge that goes with a terminal outcome. -/
def Outcome.knowledge : Outcome → Knowledge
  | .unresolved => .unknown
  | .notExecuted => .notSent
  | _ => .ended

/-- The checks made when an operation is read back. -/
structure OperationSnapshot.Sound (s : OperationSnapshot) : Prop where
  revision : s.revision ≠ 0
  settled : s.phase = .settled ↔ s.outcome ≠ .none
  disputed : s.integrity = .disputed → s.disposition = .quarantined
  released : s.disposition = .released → s.phase = .settled
  evidence : s.phase = .settled → s.evidenceIds ≠ []
  knowledge : s.phase = .settled → s.executionKnowledge = s.outcome.knowledge
  distinct : s.evidenceIds.Nodup

/-- An operation whose fields fit each other. -/
structure Operation extends OperationSnapshot where
  sound : toOperationSnapshot.Sound

/-- The operation needs nothing more: it succeeded and gave its resources back. -/
def Operation.Done (o : Operation) : Prop := o.outcome = .succeeded ∧ o.disposition = .released

instance (o : Operation) : Decidable o.Done := inferInstanceAs (Decidable (_ ∧ _))

/-- Nobody knows what the operation did, or its record is contradicted. -/
def Operation.Unclear (o : Operation) : Prop :=
  o.integrity = .disputed ∨ o.outcome = .unresolved ∨ o.executionKnowledge = .unknown

instance (o : Operation) : Decidable o.Unclear := inferInstanceAs (Decidable (_ ∨ _ ∨ _))

end RxSolutions.Domain
