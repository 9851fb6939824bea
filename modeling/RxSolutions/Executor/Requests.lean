import RxSolutions.Domain.Types

/-!
# Requests of the executor

The behaviour tree asks for work with requests; they are carried, queued and answered
under the identity of one execution context.
-/

namespace RxSolutions.Executor

open Domain

/-- The execution context a frame or a request belongs to. -/
structure Identity where
  run : Id
  executorSession : Id
  resolvedDigest : Digest
  visit : Counter
  epoch : Counter
  deriving DecidableEq, Repr

/-- What the engine can ask for. -/
inductive RequestKind
  | submitOperation | resolveBranch | beginWait | requestIntervention | requestHandover
  | pauseExecutor
  deriving DecidableEq, Repr

/-- A request of the engine for a node. -/
structure Request where
  identity : Identity
  node : Name
  kind : RequestKind
  argument : String
  timeoutNs : Counter
  deriving DecidableEq, Repr

/-- What makes two requests the same suggestion. -/
def Request.key (r : Request) : Name × RequestKind := (r.node, r.kind)

/-- Any request but the one to pause. -/
def Request.Normal (r : Request) : Prop := r.kind ≠ .pauseExecutor

instance (r : Request) : Decidable r.Normal :=
  inferInstanceAs (Decidable (r.kind ≠ .pauseExecutor))

end RxSolutions.Executor
