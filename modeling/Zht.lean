import Zht.Common.HashPolynomial
import Zht.Config.ConfText
import Zht.Storage.Appends
import Zht.Storage.Damaged
import Zht.Storage.EmptyKey
import Zht.Storage.LostWrites
import Zht.Storage.Removal
import Zht.Transport.CallRuns
import Zht.Transport.CallbackPolls
import Zht.Transport.ConcurrentMetrics
import Zht.Transport.ChunkHeaders
import Zht.Transport.ChunkPanic
import Zht.Transport.CompareSwap
import Zht.Transport.Datagrams
import Zht.Transport.FrameStream
import Zht.Transport.PoolGauge
import Zht.Transport.PoolRaces
import Zht.Transport.Reassembly
import Zht.Transport.RequestFrame
import Zht.Transport.Restarts
import Zht.Transport.Retries
import Zht.Transport.StoredText
import Zht.Transport.TcpAnswers
import Zht.Transport.TcpAttempts
import Zht.Transport.TcpServer
import Zht.Transport.Udp
import Zht.Transport.WorkerSums
import Zht.Cache.Inclusion
import Zht.Cache.Inserts
import Zht.Cache.StackDistance
import Zht.Client.Cluster
import Zht.Client.ClusterCalls
import Zht.Client.SwapResult
import Zht.Server.Cascade
import Zht.Server.Forwarding
import Zht.Server.HandoverProgress
import Zht.Server.HealthChecker
import Zht.Server.MemberCalls
import Zht.Server.MigrationPlan
import Zht.Server.MigrationRace
import Zht.Server.MigrationRouting
import Zht.Server.OneTable
import Zht.Server.Ownership
import Zht.Server.ReplicaConvergence
import Zht.Server.Isolation
import Zht.Server.ReplicaRing
import Zht.Server.ReplicaSync
