import StepFlow.Flow.Shapes
import StepFlow.Main
import StepFlow.Rehearsal
import StepFlow.Proofs.Acceptance
import StepFlow.Proofs.Progress
import StepFlow.Proofs.Lifecycle
import StepFlow.Proofs.Invocation
import StepFlow.Proofs.Outcome
import StepFlow.Proofs.Stall
import StepFlow.Proofs.Events
import StepFlow.Proofs.Stop
import StepFlow.Proofs.Order
import StepFlow.Proofs.Bookkeeping
import StepFlow.Proofs.Workers
import StepFlow.Proofs.Blame
import StepFlow.Proofs.Monotone
import StepFlow.Proofs.Agreement
import StepFlow.Proofs.Translation
import StepFlow.Proofs.Observers
import StepFlow.Proofs.Representation
import StepFlow.Proofs.Termination
import StepFlow.Proofs.Requests
import StepFlow.Proofs.Skip
import StepFlow.Proofs.Decisions
import StepFlow.Proofs.Statuses
import StepFlow.Proofs.Course.Service
import StepFlow.Proofs.Delivery
import StepFlow.Proofs.Reordering
import StepFlow.Proofs.Spelling
import StepFlow.Proofs.Creation
import StepFlow.Proofs.Logs
import StepFlow.Proofs.Loading
