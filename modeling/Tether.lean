import Tether.Scalar.Rational
import Tether.Constraint.Text
import Tether.Solver.Call
import Tether.Stored.Touch
import Tether.Touch.Call
import Tether.Touch.Relay
import Tether.Proofs.Row.Symbols
import Tether.Proofs.Tableau.Slots
import Tether.Proofs.Outcome
import Tether.Proofs.Tableau.SolvedForm
import Tether.Proofs.Row.Choice
import Tether.Proofs.Solver.SolvedForm
import Tether.Proofs.Tableau.Journal
import Tether.Proofs.Solver.Drafting
import Tether.Proofs.Solver.Rejection
import Tether.Proofs.OrderedMap
import Tether.Proofs.Solver.Ledger
import Tether.Proofs.Solver.LedgerDrafting
import Tether.Proofs.Solver.LedgerInsertion
import Tether.Proofs.Solver.LedgerRemoval
import Tether.Proofs.Solver.Runs
import Tether.Proofs.Solver.LedgerRuns
import Tether.Proofs.Solver.Stability
import Tether.Proofs.Renumbering.Rows
import Tether.Proofs.Renumbering.Tableaus
import Tether.Proofs.Renumbering.Pivots
import Tether.Proofs.Renumbering.Insertion
import Tether.Proofs.Renumbering.Runs
import Tether.Proofs.Solver.Preference
import Tether.Proofs.Solver.NoTrace
import Tether.Proofs.Exact.Rows
import Tether.Proofs.Exact.Solutions
import Tether.Proofs.Exact.Tiers
import Tether.Proofs.Exact.Primal
import Tether.Proofs.Exact.Dual
import Tether.Proofs.Exact.Models
import Tether.Proofs.Exact.Forgetting
import Tether.Proofs.Exact.Removal
import Tether.Proofs.Exact.Releasing
import Tether.Proofs.Exact.Drafting
import Tether.Proofs.Exact.Hosting
import Tether.Proofs.Exact.Probing
import Tether.Proofs.Exact.Insertion
import Tether.Proofs.Exact.Shifting
import Tether.Proofs.Exact.Editing
import Tether.Proofs.Exact.Runs
import Tether.Proofs.Exact.Equations
import Tether.Proofs.Tableau.Counting
import Tether.Proofs.Solver.Intact
import Tether.Proofs.Exact.Absence
import Tether.Proofs.Exact.Independence
import Tether.Proofs.Exact.Loops
import Tether.Proofs.Solver.Contents
import Tether.Proofs.Solver.Effects
import Tether.Proofs.Touch.Hearing
import Tether.Proofs.Touch.Forms
import Tether.Proofs.Touch.Telling
import Tether.Proofs.Touch.Fitting
import Tether.Proofs.Touch.Replay
import Tether.Proofs.Touch.Relaying
import Tether.Proofs.Ending
import Tether.Proofs.Exact.Bases
import Tether.Proofs.Exact.Pivots
import Tether.Proofs.Exact.Undertaking
import Tether.Proofs.Exact.Cycling
import Tether.Proofs.Solver.Variables
import Tether.Proofs.Solver.Reports
import Tether.Proofs.Solver.References
import Tether.Proofs.Exact.Hierarchy
import Tether.Proofs.Solver.Presence
import Tether.Proofs.Touch.Listing
import Tether.Proofs.Solver.Holding
import Tether.Proofs.Solver.Membership
import Tether.Proofs.Touch.Keeping
import Tether.Proofs.Touch.Lifecycle
import Tether.Proofs.Constraint.Identity
import Tether.Proofs.Solver.Mentions
import Tether.Proofs.Solver.RoundTrip
import Tether.Proofs.Exact.RoundTrip
import Tether.Proofs.Exact.Standstill
import Tether.Proofs.Exact.Staying
import Tether.Proofs.Touch.Dragging
import Tether.Proofs.Tableau.Changes
import Tether.Proofs.Scalar.Binary64
import Tether.Proofs.Solver.Repeats
import Tether.Proofs.Touch.Onset
import Tether.Proofs.Drift.Runs
import Tether.Proofs.Scalar.Signs
import Tether.Proofs.Solver.Feasibility
import Tether.Proofs.Solver.Acceptance
import Tether.Proofs.Constraint.Grounding
import Tether.Proofs.Decimal.Numerals
import Tether.Proofs.Json.Quotes
import Tether.Proofs.Json.Scanning
import Tether.Proofs.Json.Reading
import Tether.Proofs.Stored.Shapes
import Tether.Proofs.Stored.RoundTrip
import Tether.Proofs.Exact.Confinement
import Tether.Proofs.Exact.Representing
import Tether.Proofs.Exact.Pairs
import Tether.Proofs.Exact.Redundancy
import Tether.Proofs.Row.Specks
import Tether.Proofs.Solver.Solving
import Tether.Proofs.Solver.Sifting
import Tether.Proofs.Solver.Specks
