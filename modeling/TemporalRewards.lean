import TemporalRewards.Episode.Basic
import TemporalRewards.Json.Codec
import TemporalRewards.Json.Reader
import TemporalRewards.Labelling.Clock
import TemporalRewards.Proofs.Formula.Operands
import TemporalRewards.Proofs.Formula.Satisfaction
import TemporalRewards.Proofs.Monitor.History
import TemporalRewards.Proofs.Monitor.Soundness
import TemporalRewards.Proofs.Formula.Normal
import TemporalRewards.Proofs.Formula.Progression
import TemporalRewards.Proofs.Formula.Settling
import TemporalRewards.Proofs.Formula.Closure
import TemporalRewards.Proofs.Formula.Layers
import TemporalRewards.Proofs.Monitor.Residuals
import TemporalRewards.Proofs.RewardScheme.Awards
import TemporalRewards.Proofs.RewardScheme.Evaluation
import TemporalRewards.Proofs.RewardScheme.Blueprint
import TemporalRewards.Proofs.RewardScheme.Runs
import TemporalRewards.Proofs.RewardScheme.Reference
import TemporalRewards.Proofs.Formula.Positions
import TemporalRewards.Proofs.Syntax.Readers
import TemporalRewards.Proofs.Syntax.Spelling
import TemporalRewards.Proofs.Syntax.Nesting
import TemporalRewards.Proofs.Syntax.RoundTrip
import TemporalRewards.Proofs.Monitor.Violation
import TemporalRewards.Proofs.Monitor.LastObservations
import TemporalRewards.Proofs.Labelling.Packing
import TemporalRewards.Proofs.Labelling.Sequential
import TemporalRewards.Proofs.Labelling.Building
import TemporalRewards.Proofs.Labelling.Calls
import TemporalRewards.Proofs.Labelling.Failures
import TemporalRewards.Proofs.Labelling.Validity
import TemporalRewards.Proofs.Labelling.FeedForward
import TemporalRewards.Proofs.RewardScheme.Attendance
import TemporalRewards.Proofs.RewardScheme.Punctuality
import TemporalRewards.Proofs.RewardScheme.Rewinding
import TemporalRewards.Proofs.Labelling.Bisimulation
import TemporalRewards.Proofs.Monitor.Offline
import TemporalRewards.Proofs.Formula.Polarity
import TemporalRewards.Proofs.Formula.Denial
import TemporalRewards.Proofs.Monitor.Discharge
import TemporalRewards.Proofs.Monitor.Presumption
import TemporalRewards.Proofs.Monitor.Spellings
import TemporalRewards.Proofs.Monitor.Unnested
import TemporalRewards.Proofs.Episode.Ticks
import TemporalRewards.Proofs.Monitor.Memoryless
import TemporalRewards.Proofs.Monitor.Response
import TemporalRewards.Proofs.Formula.Canonical
import TemporalRewards.Proofs.Formula.Duality
import TemporalRewards.Proofs.Formula.Recursion
import TemporalRewards.Proofs.Formula.Sorting
import TemporalRewards.Proofs.Monitor.Relevance
import TemporalRewards.Proofs.Syntax.Rounds
import TemporalRewards.Proofs.Syntax.Places
import TemporalRewards.Proofs.Syntax.Lexing
import TemporalRewards.Proofs.Syntax.Pending
import TemporalRewards.Proofs.Syntax.Refusals
import TemporalRewards.Proofs.Syntax.Locations
import TemporalRewards.Proofs.RewardScheme.Rechecks
import TemporalRewards.Proofs.Labelling.Views
import TemporalRewards.Proofs.RewardScheme.Suspension
import TemporalRewards.Proofs.Episode.Accounts
import TemporalRewards.Proofs.Episode.Updates
import TemporalRewards.Proofs.Observation.Slices
import TemporalRewards.Proofs.Json.ReadBack
import TemporalRewards.Proofs.Priority.Tenures
import TemporalRewards.Proofs.Monitor.Records
