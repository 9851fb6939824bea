import Mathlib.Data.Countable.Basic
import Mathlib.Data.Rat.Encodable
import Mathlib.Logic.Equiv.List
import Mathlib.Tactic.DeriveCountable
import RxSolutions.Host.Model

/-!
# Collision-free digests exist

Everything that is digested is finite data, so there are only countably many values of
each kind and they can be told apart by strings. What all results assume of digests
and identifiers is therefore consistent.
-/

namespace RxSolutions.Host

open Domain

instance countableChar : Countable Char :=
  Function.Injective.countable (f := Char.toNat) fun _ _ => Char.toNat_inj.mp

instance countableString : Countable String :=
  Function.Injective.countable (f := String.toList) fun _ _ => String.toList_inj.mp

instance countableCounters : Countable Counters :=
  Function.Injective.countable (f := Finmap.entries) fun _ _ => Finmap.ext

deriving instance Countable for
  ArtifactRef, TimePoint, TypedValue, Kind, LifecycleVerb, Body, Intent

deriving instance Countable for Purpose, PermitParent, Permit, GateBody, GrantBody

deriving instance Countable for Host.Environment, Binding

deriving instance Countable for HostConfiguration.CellTarget, HostConfiguration.Request

deriving instance Countable for
  HostQualification.CellTarget, HostQualification.Request, QualificationIdentity

/-- Countably many values can be told apart by strings. -/
theorem exists_embedding (α : Type) [Countable α] : Nonempty (α ↪ String) := by
  obtain ⟨f, hf⟩ := exists_injective_nat α
  exact ⟨Function.Embedding.trans ⟨f, hf⟩ (Infinite.natEmbedding String)⟩

theorem Ideal.nonempty : Nonempty Ideal := by
  have h := exists_embedding
  exact ⟨{
    freshId := (h ℕ).some
    intentDigest := (h Intent).some
    permitDigest := (h Permit).some
    fenceDigest := (h GateBody).some
    armDigest := (h GateBody).some
    grantDigest := (h GrantBody).some
    bindingsDigest := (h (List Binding)).some
    configurationDigest := (h HostConfiguration.Request).some
    qualificationDigest := (h HostQualification.Request).some
    identityDigest := (h QualificationIdentity).some }⟩

end RxSolutions.Host
