import Novalton.Python
import Novalton.Workspace
import Novalton.GitLocal
import Novalton.MutationCommit
import Novalton.Publication
import Novalton.Session
import Novalton.Status
import Novalton.StepServices
import Novalton.Advance
import Novalton.Resume
import Novalton.AgentServices
import Novalton.Execution
import Novalton.ExecutionSettles
import Novalton.Transition
import Novalton.RowLock
import Novalton.Approvals
import Novalton.ApprovalsOnce
import Novalton.ApprovalsLive
import Novalton.Workflow
import Novalton.WorkflowLocks
import Novalton.WorkflowWakeup
import Novalton.WorkflowOrder
import Novalton.WorkflowFreeze
import Novalton.WorkflowChallenge
import Novalton.PolicyLaws
import Novalton.AgentContracts
import Novalton.HandoffDispatch
import Novalton.QaCoverage
import Novalton.RuntimeEvents
import Novalton.StreamCompleteness
import Novalton.ChallengeAccept
import Novalton.GitApply
import Novalton.GitCommitLifecycle
import Novalton.GitHubPublications
import Novalton.PublicationRuns
import Novalton.AuditMetadata
import Novalton.CommitPublishable
import Novalton.PolicyAudit
import Novalton.GitPreparation
import Novalton.DevelopmentWorkflow
import Novalton.ReplaceText
import Novalton.WorkspaceFiles
import Novalton.LocalApply
import Novalton.Trace
import Novalton.Attempts
import Novalton.AttemptResults
import Novalton.AttemptBudget
import Novalton.ResumeAgreement
import Novalton.CompiledAgreement
import Novalton.ApprovalDecision
import Novalton.CatalogRefresh
import Novalton.VerificationWorker
import Novalton.Decimal
import Novalton.Dict
import Novalton.ModelUsage
import Novalton.ModelRouter
import Novalton.CostEstimate
import Novalton.GitHubAdapter
import Novalton.SearchText
import Novalton.ToolContinuation
import Novalton.MemoryProjection
import Novalton.ReviewSummary
import Novalton.MemoryDisclosure
import Novalton.ConstraintPath
import Novalton.ReadText
import Novalton.PlanProposals
import Novalton.PlanRows
import Novalton.VersionNumbering
import Novalton.PayloadSafety
import Novalton.ListFiles
import Novalton.SnapshotTrees
import Novalton.SnapshotAgreement
import Novalton.WorkflowOnce
import Novalton.ToolAuthority
import Novalton.ToolResumption
import Novalton.VerdictCompletion
