/-
The status words the services share: workflow runs and their steps, agent runs and
their results, challenges, tool calls, approvals, policy effects; the transitions
`transition_step` admits, and the form of a failure code.
-/
import Novalton.Python

namespace Novalton

inductive WorkflowRunStatus where
  | created | running | completed | failed | cancelled
deriving DecidableEq, Repr

inductive WorkflowStepRunStatus where
  | pending | ready | running | waitingForApproval | completed | failed | cancelled
deriving DecidableEq, Repr

inductive AgentRunStatus where
  | created | running | waitingForApproval | succeeded | failed | cancelled
deriving DecidableEq, Repr

inductive ModelRunStatus where
  | running | succeeded | failed | cancelled
deriving DecidableEq, Repr

inductive AgentResultStatus where
  | completed | partialResult | blocked | needsInput | failed | cancelled
deriving DecidableEq, Repr

inductive ChallengeLevel where
  | none | warning | humanReviewRecommended | blockRecommended
deriving DecidableEq, Repr

inductive QAVerdict where
  | pass | passWithWarnings | fail | inconclusive
deriving DecidableEq, Repr

inductive ToolExecutionStatus where
  | proposed | pendingApproval | running | succeeded | failed | blocked
deriving DecidableEq, Repr

inductive ApprovalStatus where
  | pending | approved | rejected
deriving DecidableEq, Repr

/-- The decision of an approval request. -/
inductive Decision where
  | approve | reject
deriving DecidableEq, Repr

def Decision.status : Decision → ApprovalStatus
  | .approve => .approved
  | .reject => .rejected

/-- The status of the step after which a repeated request has nothing left to do. -/
def Decision.doneStep : Decision → WorkflowStepRunStatus
  | .approve => .completed
  | .reject => .failed

inductive PolicyEffect where
  | allow | allowWithLog | requireConfirmation | block
deriving DecidableEq, Repr

/-- The role of a trusted specialization. -/
inductive SpecializationRole where
  | developerManager | developerWorker | qaWorker
deriving DecidableEq, Repr

def SpecializationRole.text : SpecializationRole → Text
  | .developerManager => "developer_manager".toList
  | .developerWorker => "developer_worker".toList
  | .qaWorker => "qa_worker".toList

def WorkflowRunStatus.terminal : WorkflowRunStatus → Bool
  | .completed | .failed | .cancelled => true
  | _ => false

def WorkflowStepRunStatus.terminal : WorkflowStepRunStatus → Bool
  | .completed | .failed | .cancelled => true
  | _ => false

/-- A step that has been started, or may be. -/
def WorkflowStepRunStatus.started : WorkflowStepRunStatus → Bool
  | .ready | .running | .waitingForApproval | .completed => true
  | _ => false

def AgentRunStatus.terminal : AgentRunStatus → Bool
  | .succeeded | .failed | .cancelled => true
  | _ => false

def ModelRunStatus.terminal : ModelRunStatus → Bool
  | .running => false
  | _ => true

def ToolExecutionStatus.terminal : ToolExecutionStatus → Bool
  | .succeeded | .failed | .blocked => true
  | _ => false

/-- `_MEANINGFUL_CHALLENGES`. -/
def ChallengeLevel.meaningful : ChallengeLevel → Bool
  | .humanReviewRecommended | .blockRecommended => true
  | _ => false

/-- The (expected, target) pairs `transition_step` accepts. -/
def stepTransitionAllowed : WorkflowStepRunStatus → WorkflowStepRunStatus → Bool
  | .ready, .running => true
  | .running, .waitingForApproval => true
  | .waitingForApproval, .running => true
  | .waitingForApproval, .failed => true
  | .waitingForApproval, .cancelled => true
  | .running, .completed => true
  | .running, .failed => true
  | .pending, .cancelled => true
  | .ready, .cancelled => true
  | .running, .cancelled => true
  | _, _ => false

theorem Decision.status_cases (decision : Decision) : decision.status = .approved ∨
    decision.status = .rejected := by
  cases decision
  · exact .inl rfl
  · exact .inr rfl

theorem Decision.status_ne_pending (decision : Decision) : decision.status ≠ .pending := by
  cases decision <;> nofun

/-- A step does not leave a terminal status. -/
theorem not_allowed_of_terminal {expected target : WorkflowStepRunStatus}
    (h : expected.terminal = true) :
    stepTransitionAllowed expected target = false := by
  cases expected <;> first | rfl | cases h

/-- What is moved to a started status was in one. -/
theorem started_of_allowed {expected target : WorkflowStepRunStatus}
    (h : stepTransitionAllowed expected target = true) (htarget : target.started = true) :
    expected.started = true := by
  cases expected <;> cases target <;> first
    | rfl
    | (change false = true at h; contradiction)
    | (change false = true at htarget; contradiction)

/-- `map_result_status`. -/
def mapResultStatus : AgentResultStatus → AgentRunStatus × Option Text
  | .completed => (.succeeded, .none)
  | .partialResult => (.succeeded, .none)
  | .blocked => (.failed, .some "agent_result_blocked".toList)
  | .needsInput => (.failed, .some "agent_result_needs_input".toList)
  | .failed => (.failed, .some "agent_result_failed".toList)
  | .cancelled => (.cancelled, .none)

/-- `_FAILURE.fullmatch(code)`: `[a-z][a-z0-9_]{0,63}`. -/
def failureCodeValid : Text → Bool
  | [] => false
  | c :: rest => c.isLower && rest.length ≤ 63 && rest.all fun d => d.isLower || d.isDigit ||
      d == '_'

end Novalton
