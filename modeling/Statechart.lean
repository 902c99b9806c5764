import Statechart.Main
import Statechart.Proofs.Building
import Statechart.Proofs.Planning
import Statechart.Proofs.Microsteps
import Statechart.Proofs.Legality
import Statechart.Proofs.Stabilization
import Statechart.Proofs.Extent
import Statechart.Proofs.RunToCompletion
import Statechart.Proofs.Lifecycle
import Statechart.Proofs.Register
import Statechart.Proofs.Calls
import Statechart.Proofs.Deliveries
import Statechart.Proofs.Registrations
import Statechart.Proofs.Trace
import Statechart.Proofs.Endings
import Statechart.Proofs.Budget
import Statechart.Proofs.Forks
import Statechart.Proofs.Arrivals
import Statechart.Proofs.Bare
import Statechart.Proofs.Independence
import Statechart.Proofs.Coordination
import Statechart.Proofs.Acceptance
import Statechart.Proofs.Reading
import Statechart.Proofs.Completion
import Statechart.Proofs.Blocks
import Statechart.Proofs.Accounting
import Statechart.Proofs.Compilation
import Statechart.Proofs.Records
import Statechart.Proofs.Parts
import Statechart.Proofs.RoundTrip
import Statechart.Proofs.Precedence
import Statechart.Proofs.Prospects
import Statechart.Proofs.Refusals
import Statechart.Proofs.Timeliness
import Statechart.Proofs.Announcements
import Statechart.Proofs.Preemption
import Statechart.Proofs.Ignoring
import Statechart.Proofs.Repeats
import Statechart.Proofs.Strictness
import Statechart.Proofs.Agreement
import Statechart.Proofs.Resolution
import Statechart.Proofs.Atomicity
import Statechart.Proofs.Spellings
import Statechart.Proofs.Lines
import Statechart.Proofs.Segments
import Statechart.Proofs.Bands
import Statechart.Proofs.Cursor
import Statechart.Proofs.Walks
