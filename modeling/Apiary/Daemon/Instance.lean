import Mathlib.Data.List.Basic

/-!
# Persisted instances

The canonical states of a workflow instance.  Every park is `blocked`, and the reason
beside it tells what the instance waits for; an instance that stopped abnormally is
`blocked` as `interrupted`.
-/

namespace Apiary.Daemon

inductive BlockedReason where
  | approval
  | ci
  | dependency
  | retryBackoff
  | interrupted
  deriving DecidableEq, Repr

inductive InstanceState where
  | queued
  | running
  | blocked (reason : BlockedReason)
  | done
  | failed
  | canceled
  deriving DecidableEq, Repr

/-- Parked, and not by an interruption. -/
def InstanceState.isParked : InstanceState → Bool
  | .blocked reason => reason ≠ .interrupted
  | _ => false

def InstanceState.isTerminal : InstanceState → Bool
  | .done => true
  | .failed => true
  | .canceled => true
  | _ => false

end Apiary.Daemon
