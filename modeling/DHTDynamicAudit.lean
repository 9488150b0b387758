import DHTDynamicAudit.Core.Loop
import DHTDynamicAudit.Core.Run
import DHTDynamicAudit.Core.Throw
import DHTDynamicAudit.Core.Interleaving
import DHTDynamicAudit.Core.Logs
import DHTDynamicAudit.Core.Observer
import DHTDynamicAudit.Core.SparseIndex
import DHTDynamicAudit.Core.Deletions
import DHTDynamicAudit.Core.Insertions
import DHTDynamicAudit.Core.Positions
import DHTDynamicAudit.Core.Pairing
import DHTDynamicAudit.Core.Differences
import DHTDynamicAudit.Core.Coefficients
import DHTDynamicAudit.Core.Sampling
import DHTDynamicAudit.Core.Archive
import DHTDynamicAudit.Core.Cuts
import DHTDynamicAudit.Strategy.Metadata
import DHTDynamicAudit.Strategy.StateStore
import DHTDynamicAudit.Strategy.Crypto
import DHTDynamicAudit.Strategy.Common
import DHTDynamicAudit.Strategy.Keys
import DHTDynamicAudit.Strategy.Tags
import DHTDynamicAudit.Strategy.TagSteps
import DHTDynamicAudit.Strategy.Challenges
import DHTDynamicAudit.Strategy.ChallengeSteps
import DHTDynamicAudit.Strategy.Proofs
import DHTDynamicAudit.Strategy.Maintenance
import DHTDynamicAudit.Strategy.Requests
import DHTDynamicAudit.Strategy.Stages
import DHTDynamicAudit.Strategy.UpdateSteps
import DHTDynamicAudit.Strategy.MaintenanceSteps
import DHTDynamicAudit.Strategy.Wire
import DHTDynamicAudit.Strategy.Artifacts
import DHTDynamicAudit.Store.Rebuild
import DHTDynamicAudit.Store.Objects
import DHTDynamicAudit.Store.Positions
import DHTDynamicAudit.Store.FileLists
import DHTDynamicAudit.Store.Batches
import DHTDynamicAudit.Store.BatchDelete
import DHTDynamicAudit.Store.BatchInsert
import DHTDynamicAudit.Store.Changes
import DHTDynamicAudit.Store.Atomicity
import DHTDynamicAudit.Store.Density
import DHTDynamicAudit.Store.Freshness
import DHTDynamicAudit.Store.FileEvents
import DHTDynamicAudit.Store.JsonRequests
import DHTDynamicAudit.Store.SharedStore
import DHTDynamicAudit.Store.Aliasing
import DHTDynamicAudit.Audit.Tagging
import DHTDynamicAudit.Audit.TagRuns
import DHTDynamicAudit.Audit.TagInvariant
import DHTDynamicAudit.Audit.Selectors
import DHTDynamicAudit.Audit.Runs
import DHTDynamicAudit.Audit.Drawing
import DHTDynamicAudit.Audit.Equation
import DHTDynamicAudit.Audit.Segments
import DHTDynamicAudit.Audit.MaintenanceRuns
import DHTDynamicAudit.Audit.ConcurrentUpdates
import DHTDynamicAudit.Audit.Acceptance
import DHTDynamicAudit.Audit.Completeness
import DHTDynamicAudit.Audit.ChallengeForm
import DHTDynamicAudit.Audit.Reproducibility
import DHTDynamicAudit.Audit.Repositioning
import DHTDynamicAudit.Audit.Coverage
import DHTDynamicAudit.Audit.Gaps
import DHTDynamicAudit.Audit.Windows
import DHTDynamicAudit.Audit.FirstRegistration
import DHTDynamicAudit.Audit.DisjointWindows
import DHTDynamicAudit.Audit.WindowProofs
import DHTDynamicAudit.Audit.Rearrangement
import DHTDynamicAudit.Audit.Forgery
import DHTDynamicAudit.Audit.RoundTrip
import DHTDynamicAudit.Audit.ArtifactRoundTrip
import DHTDynamicAudit.Audit.StageRequests
import DHTDynamicAudit.Audit.Aggregation
import DHTDynamicAudit.Audit.Transcripts
import DHTDynamicAudit.Audit.Soundness
import DHTDynamicAudit.Audit.ReusedMetadata
import DHTDynamicAudit.Audit.Detection
import DHTDynamicAudit.Audit.ChallengeRuns
import DHTDynamicAudit.Audit.InFlight
import DHTDynamicAudit.Audit.Retagging
import DHTDynamicAudit.Audit.ConcurrentMaintenance
