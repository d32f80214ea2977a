import DataRace.PointsTo.Json
import DataRace.Program.Builder
import DataRace.Program.Json
import DataRace.Race.Detect
import DataRace.Settings.Document
import DataRace.Proofs.Order.Clock
import DataRace.Proofs.Trace.Growth
import DataRace.Proofs.Trace.Frame
import DataRace.Proofs.Trace.Forest
import DataRace.Proofs.Trace.Tree
import DataRace.Proofs.Order.Base
import DataRace.Proofs.Order.Joins
import DataRace.Proofs.Order.Groups
import DataRace.Proofs.Order.Members
import DataRace.Proofs.Order.Upward
import DataRace.Proofs.Order.Closure
import DataRace.Proofs.Rows
import DataRace.Proofs.SharedMemory
import DataRace.Proofs.Race.Detect
import DataRace.Proofs.Race.Sharing
import DataRace.Proofs.Locks.Held
import DataRace.Proofs.Locks.Classes
import DataRace.Proofs.Order.Stretches
import DataRace.Proofs.Thin.Links
import DataRace.Proofs.Thin.Groups
import DataRace.Proofs.Thin.Order
import DataRace.Proofs.Thin.Locks
import DataRace.Proofs.Thin.Races
import DataRace.Proofs.Classify.Extend
import DataRace.Proofs.Classify.Outline
import DataRace.Proofs.Classify.Teams
import DataRace.Proofs.Classify.Sources
import DataRace.Proofs.Trace.Timely
import DataRace.Proofs.Trace.Completed
import DataRace.Proofs.Trace.Tasks
import DataRace.Proofs.Trace.TeamJoins
import DataRace.Proofs.Order.Tasks
import DataRace.Proofs.Trace.Placed
import DataRace.Proofs.Dedup.Effects
import DataRace.Proofs.Dedup.Questions
import DataRace.Proofs.Dedup.Memo
import DataRace.Proofs.Dedup.Expansion
import DataRace.Proofs.Dedup.Paired
import DataRace.Proofs.Dedup.Steps
import DataRace.Proofs.Dedup.Quiet
import DataRace.Proofs.Dedup.Simulation
import DataRace.Proofs.Dedup.Agreement
import DataRace.Proofs.Order.Stages
import DataRace.Proofs.Race.Lookups
import DataRace.Proofs.Race.Severity
import DataRace.Proofs.Trace.Announced
import DataRace.Proofs.Trace.Harmless
import DataRace.Proofs.Trace.Frames
import DataRace.Proofs.Trace.CompanionJoins
import DataRace.Proofs.Trace.Reaches
import DataRace.Proofs.Dedup.Repeats
import DataRace.Proofs.Json.Scalars
import DataRace.Proofs.Json.RoundTrip
import DataRace.Proofs.Json.Views
import DataRace.Proofs.PointsTo.Documents
import DataRace.Proofs.Program.Built
import DataRace.Proofs.Program.Lookups
import DataRace.Proofs.Program.RoundTrip
import DataRace.Proofs.Workers.Bodies
import DataRace.Proofs.Workers.Threads
import DataRace.Proofs.Workers.Races
import DataRace.Proofs.Race.Backing
import DataRace.Proofs.Order.Layout
import DataRace.Proofs.Order.Counts
import DataRace.Proofs.Trace.Depth
import DataRace.Proofs.Trace.Tours
import DataRace.Proofs.Trace.Runs
import DataRace.Proofs.Trace.Openings
import DataRace.Proofs.Trace.Nesting
import DataRace.Proofs.Trace.Skips
import DataRace.Proofs.Classify.TeamCalls
import DataRace.Proofs.Trace.TeamNodes
import DataRace.Proofs.Trace.TeamRuns
import DataRace.Proofs.Order.Teams
import DataRace.Proofs.Trace.Executions
import DataRace.Proofs.Trace.Origins
import DataRace.Proofs.Order.Launches
import DataRace.Proofs.Trace.Lineage
import DataRace.Proofs.Trace.Limit
import DataRace.Proofs.Trace.Kernels
import DataRace.Proofs.Order.Kernels
import DataRace.Proofs.Program.Searches
import DataRace.Proofs.Classify.Stems
import DataRace.Proofs.Race.Recorded
import DataRace.Proofs.Yaml.Overlay
import DataRace.Proofs.Yaml.Neat
import DataRace.Proofs.Settings.Records
import DataRace.Proofs.Settings.Documents
import DataRace.Proofs.Order.ClockOrder
import DataRace.Proofs.Trace.Listing
import DataRace.Proofs.Trace.Queries
