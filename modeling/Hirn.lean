import Hirn.PolicyMerges
import Hirn.TokenAttenuation
import Hirn.TokenRevocation
import Hirn.TokenScope
import Hirn.SharedCopies
import Hirn.ReportScope
import Hirn.McfaDefense
import Hirn.AuditTampering
import Hirn.RollbackGuard
import Hirn.EventLogTampering
import Hirn.QueryBounds
import Hirn.QueryPolicies
import Hirn.RaftLeaseRuns
import Hirn.ClusterCoordinator
import Hirn.RaftLogStore
import Hirn.DynamoLeases
import Hirn.IdempotencyWaiters
import Hirn.LanceAppends
import Hirn.SkeletonOffsets
import Hirn.QueryParameters
import Hirn.EpochCacheRuns
import Hirn.ResourceDedup
import Hirn.ResourceRecovery
import Hirn.ResourcePurgeRuns
import Hirn.QuarantineRuns
import Hirn.EpisodeHeads
import Hirn.EpisodeAccesses
import Hirn.Snapshots
import Hirn.CircuitBreaker
import Hirn.Throttle
import Hirn.PageRank
import Hirn.GraphTraversal
import Hirn.FilterLaws
import Hirn.PlanCache
import Hirn.Temporal
