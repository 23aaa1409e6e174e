import Apiary.Core.Text
import Apiary.Core.Machine
import Apiary.Core.Marking
import Apiary.Core.Table
import Apiary.Core.Latest
import Apiary.Core.Ranking
import Apiary.Config.Step
import Apiary.Config.Validate
import Apiary.Workflow.Run
import Apiary.Expr.Lexer
import Apiary.Expr.Parser
import Apiary.Expr.Eval
import Apiary.Workflow.Graph
import Apiary.Workflow.Gates
import Apiary.Workflow.Worker
import Apiary.Workflow.Drive
import Apiary.Workflow.Restore
import Apiary.Workflow.DriveSteps
import Apiary.Workflow.Invariants
import Apiary.Workflow.Rows
import Apiary.Workflow.UnitRows
import Apiary.Workflow.Ledger
import Apiary.Workflow.Closure
import Apiary.Workflow.Recovery
import Apiary.Workflow.Rehydrate
import Apiary.Workflow.ResumeChain
import Apiary.Workflow.Outcome
import Apiary.Workflow.Policy
import Apiary.Workflow.Retries
import Apiary.Workflow.Blame
import Apiary.Workflow.Channel
import Apiary.Workflow.Termination
import Apiary.Workflow.Executions
import Apiary.Approval.Store
import Apiary.Approval.Tables
import Apiary.Approval.Gate
import Apiary.Approval.GateSteps
import Apiary.Approval.Once
import Apiary.Approval.Source
import Apiary.Daemon.Instance
import Apiary.Daemon.Stop
import Apiary.Daemon.Slots
import Apiary.Daemon.Interrupt
import Apiary.Daemon.Terminal
import Apiary.Daemon.Work
import Apiary.Daemon.Release
import Apiary.Daemon.Rounds
import Apiary.Daemon.Hooks
import Apiary.Daemon.Resume
import Apiary.Daemon.Dispatch
import Apiary.Daemon.Exclusive
import Apiary.Queue.Store
import Apiary.Queue.Leases
import Apiary.Queue.Fencing
import Apiary.Queue.Limits
import Apiary.Queue.Capacity
import Apiary.Queue.Affinity
import Apiary.Workflow.Routing
import Apiary.Config.Graph
import Apiary.Workflow.Quiescence
import Apiary.Workflow.Unreachable
import Apiary.Approval.Policy
import Apiary.Approval.Quorum
import Apiary.Config.Accessors
import Apiary.Config.Authored
import Apiary.Config.Lowering
import Apiary.Config.Relowering
import Apiary.Config.Guards
import Apiary.Workflow.Emissions
import Apiary.Workflow.References
import Apiary.Approval.Custody
import Apiary.Approval.History
import Apiary.Core.Avoid
import Apiary.Runner.Bindings
import Apiary.Runner.Prompt
import Apiary.Runner.Recall
import Apiary.Improve.Entries
import Apiary.Improve.Blanking
import Apiary.Improve.Workspace
import Apiary.Daemon.Verdict
import Apiary.Queue.Selection
import Apiary.Daemon.PREvents
import Apiary.Daemon.Resolved
import Apiary.Daemon.Retention
import Apiary.Source.Cycles
import Apiary.Source.Storm
import Apiary.Queue.Listing
import Apiary.Config.Delimiters
import Apiary.Expr.Printing
import Apiary.Config.Snapshot
import Apiary.Daemon.Requirements
import Apiary.Workflow.FailClosed
import Apiary.Workflow.Foreach
import Apiary.Workflow.Nested
import Apiary.Daemon.Admission
import Apiary.Workflow.Starts
import Apiary.Workflow.AutoResume
import Apiary.Daemon.Settlement
import Apiary.Daemon.StepCosts
import Apiary.Workflow.Inputs
import Apiary.Workflow.Spawns
import Apiary.Daemon.Attribution
