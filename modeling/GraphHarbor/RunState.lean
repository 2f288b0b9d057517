import Mathlib.Data.List.Basic

/-!
# The run state machine

`protocol.py` (statuses and reasons) and `run_state.py` (the transitions shared by the
API and the workers).
-/

namespace GraphHarbor

inductive RunStatus
  | pending | running | success | error | timeout | interrupted
  deriving DecidableEq, Repr

inductive RunReason
  | completed | businessError | infrastructureError | retry | cancelRequested
  | hitlInterrupt | shutdownRequeue | timeout | rollback
  deriving DecidableEq, Repr

namespace RunStatus

/-- `RunStatus.value`. -/
def value : RunStatus → String
  | pending => "pending"
  | running => "running"
  | success => "success"
  | error => "error"
  | timeout => "timeout"
  | interrupted => "interrupted"

theorem value_injective {s t : RunStatus} (h : s.value = t.value) : s = t := by
  cases s <;> cases t <;> first | rfl | exact absurd h (by decide)

/-- `is_terminal`. -/
def isTerminal : RunStatus → Bool
  | success | error | timeout | interrupted => true
  | pending | running => false

/-- `_ALLOWED`: the statuses a run may go to. -/
def allowed : RunStatus → List RunStatus
  | pending => [pending, running, error, interrupted]
  | running => [pending, running, success, error, timeout, interrupted]
  | interrupted => [interrupted, pending]
  | success => [success]
  | error => [error]
  | timeout => [timeout]

@[simp] theorem isTerminal_pending : pending.isTerminal = false := rfl
@[simp] theorem isTerminal_running : running.isTerminal = false := rfl

theorem isTerminal_eq_false {s : RunStatus} :
    s.isTerminal = false ↔ s = pending ∨ s = running := by
  cases s <;> simp [isTerminal]

end RunStatus

/-- `RunReason.value`. -/
def RunReason.value : RunReason → String
  | completed => "completed"
  | businessError => "business_error"
  | infrastructureError => "infrastructure_error"
  | retry => "retry"
  | cancelRequested => "cancel_requested"
  | hitlInterrupt => "hitl_interrupt"
  | shutdownRequeue => "shutdown_requeue"
  | timeout => "timeout"
  | rollback => "rollback"

theorem RunReason.value_injective {r s : RunReason} (h : r.value = s.value) : r = s := by
  cases r <;> cases s <;> first | rfl | exact absurd h (by decide)

/-- `MAX_INFRASTRUCTURE_RETRIES`. -/
def maxInfrastructureRetries : Nat := 3

/-- `Transition`. -/
structure Transition where
  status : RunStatus
  reason : RunReason
  retryCount : Nat
  deriving DecidableEq, Repr

/-- The reasons `transition` accepts for an interrupted run. -/
def interruptReasons : List RunReason :=
  [.cancelRequested, .hitlInterrupt, .shutdownRequeue, .rollback]

/-- `transition`; `none` stands for `InvalidTransition`. -/
def transition (current target : RunStatus) (reason : RunReason) (retryCount : Nat) :
    Option Transition :=
  if target ∉ current.allowed then none
  else if retryCount > maxInfrastructureRetries then none
  else if target = .interrupted ∧ reason ∉ interruptReasons then none
  else if target = .success ∧ reason ≠ .completed then none
  else some ⟨target, reason, retryCount⟩

/-- A transition that is accepted goes where it was asked to. -/
theorem transition_eq_some {current target : RunStatus} {reason : RunReason} {n : Nat}
    {change : Transition} (h : transition current target reason n = some change) :
    change = ⟨target, reason, n⟩ ∧ target ∈ current.allowed ∧ n ≤ maxInfrastructureRetries := by
  unfold transition at h
  split at h
  · simp at h
  · split at h
    · simp at h
    · split at h
      · simp at h
      · split at h
        · simp at h
        · simp_all

theorem transition_accepts {current target : RunStatus} {reason : RunReason} {n : Nat}
    (hallowed : target ∈ current.allowed) (hn : n ≤ maxInfrastructureRetries)
    (hinterrupted : target = .interrupted → reason ∈ interruptReasons)
    (hsuccess : target = .success → reason = .completed) :
    transition current target reason n = some ⟨target, reason, n⟩ := by
  unfold transition
  rw [if_neg (fun hn => hn hallowed), if_neg (Nat.not_lt.2 hn),
    if_neg fun h => h.2 (hinterrupted h.1),
    if_neg fun h => h.2 (hsuccess h.1)]

end GraphHarbor
