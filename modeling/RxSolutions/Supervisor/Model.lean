import Mathlib.Data.Fintype.EquivFin
import RxSolutions.Domain.Types

/-!
# Errors and identifiers of a supervisor

What a supervisor and its store report, how a call of a supervisor ends without a result, and the
identifiers that it generates.
-/

namespace RxSolutions.Supervisor

open Domain

/-- Why the store refuses. -/
inductive StoreError
  | ownership (detail : String)
  | rejected (detail : String)
  | unavailable (detail : String)
  | integrity (detail : String)
  | revisionConflict (detail : String)
  | keyConflict
  | outboxConflict
  | invalid (detail : String)
  deriving DecidableEq, Repr

/-- How a store error is displayed. -/
def StoreError.text : StoreError → String
  | .ownership detail => "exclusive ownership " ++ detail
  | .rejected detail => "application policy rejected command: " ++ detail
  | .unavailable detail => "store unavailable: " ++ detail
  | .integrity detail => "store integrity failure: " ++ detail
  | .revisionConflict detail => "revision conflict: " ++ detail
  | .keyConflict => "idempotency conflict"
  | .outboxConflict => "outbox transition conflict"
  | .invalid detail => "invalid document: " ++ detail

/-- Why an attempt is refused. -/
inductive Error
  | invalid (detail : String)
  | storage (error : StoreError)
  | io (detail : String)
  | reconciliation (detail : String)
  deriving DecidableEq, Repr

/-- How a call ends without a result. -/
inductive Failure
  | crashed
  | refused (error : Error)
  deriving DecidableEq

/-- Identifiers that are generated are all different. -/
class FreshIds where
  freshId : ℕ ↪ Id

/-- There are enough texts to generate identifiers from. -/
theorem FreshIds.nonempty : Nonempty FreshIds := ⟨⟨Infinite.natEmbedding String⟩⟩

end RxSolutions.Supervisor
