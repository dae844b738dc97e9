/-
`ZHTServer`: its parts as `new_with_store` wires them, and what a connection does with one request.
The worker is given a table of its own, so a server holds two: `store`, which `status` counts, the
migration reads and the shutdown flushes, and `worker.store`, on which requests are processed.
-/
import Zht.Proto.Codec
import Zht.Server.Migration
import Zht.Transport.Worker

namespace Zht

open Lib

structure ReplicationManager where
  numReplicas : UInt32
  replicationType : UInt32
  membership : MembershipManager
  deriving DecidableEq, Repr

/-! ## Metrics -/

structure ServerMetrics where
  connectionsTotal : UInt64 := 0
  connectionsActive : UInt64 := 0
  connectionsAccepted : UInt64 := 0
  connectionsRejected : UInt64 := 0
  bytesReceived : UInt64 := 0
  bytesSent : UInt64 := 0
  workerMetrics : HTWorkerMetrics := {}
  deriving DecidableEq, Repr

namespace ServerMetrics

def recordConnectionAccepted (m : ServerMetrics) : ServerMetrics :=
  { m with
    connectionsAccepted := m.connectionsAccepted + 1
    connectionsTotal := m.connectionsTotal + 1
    connectionsActive := m.connectionsActive + 1 }

def recordConnectionClosed (m : ServerMetrics) : ServerMetrics :=
  { m with connectionsActive := m.connectionsActive - 1 }

def recordBytesReceived (m : ServerMetrics) (n : Nat) : ServerMetrics :=
  { m with bytesReceived := m.bytesReceived + UInt64.ofNat n }

def recordBytesSent (m : ServerMetrics) (n : Nat) : ServerMetrics :=
  { m with bytesSent := m.bytesSent + UInt64.ofNat n }

def updateWorkerMetrics (m : ServerMetrics) (workerMetrics : HTWorkerMetrics) : ServerMetrics :=
  { m with workerMetrics }

end ServerMetrics

structure ServerMetricsSnapshot where
  metrics : ServerMetrics
  storageEntries : Nat
  memberCount : Nat
  aliveMembers : Nat
  deriving DecidableEq, Repr

/-! ## The server -/

structure ZHTServer where
  store : NoVoHT
  worker : HTWorker
  membership : MembershipManager
  replication : ReplicationManager
  migration : MigrationManager
  metrics : ServerMetrics

namespace ZHTServer

/-- `new_with_store` at the instant `now`. The worker gets an empty table, not `store`. -/
def newWithStore (now : Nat) (store : NoVoHT) (selfHost : HostEntity) (initialMembers : List HostEntity)
    (numReplicas replicationType : UInt32) (migrationEnabled : Bool) : ZHTServer :=
  let membership := MembershipManager.new now selfHost initialMembers
  { store
    worker := HTWorker.new NoVoHT.new
    membership
    replication := { numReplicas, replicationType, membership }
    migration := { membership, migrationEnabled, migrating := false }
    metrics := {} }

/-- One turn of `handle_connection_with_metrics`: the answer to a request it has read. -/
def handleRequest (c : Codec) (s : ZHTServer) (request : ZPack) : ZPack × ZHTServer :=
  let metrics := s.metrics.recordBytesReceived (4 + c.encodedLen request)
  let processed := s.worker.process request
  (processed.1, { s with worker := processed.2, metrics := metrics.recordBytesSent (4 + c.encodedLen processed.1) })

/-- `status`; it refreshes the worker's part of the metrics first. -/
def status (s : ZHTServer) : ServerMetricsSnapshot × ZHTServer :=
  let metrics := s.metrics.updateWorkerMetrics s.worker.metrics
  ({ metrics
     storageEntries := s.store.map.keys.card
     memberCount := s.membership.members.length
     aliveMembers := (s.membership.members.filter (·.state = .alive)).length },
    { s with metrics })

/-- The flush of `main` at shutdown. -/
def flushStore (s : ZHTServer) (ord : HashMap.Order String String) : ZhtResult Unit × ZHTServer :=
  let flushed := s.store.flush ord
  (flushed.1, { s with store := flushed.2 })

/-! ## What a request touches -/

@[simp] theorem handleRequest_store (c : Codec) (s : ZHTServer) (request : ZPack) :
    (s.handleRequest c request).2.store = s.store := rfl

theorem handleRequest_answer (c : Codec) (s : ZHTServer) (request : ZPack) :
    (s.handleRequest c request).1 = ((Command.ofRequest request).run s.worker.store.map).1.toZPack request :=
  s.worker.process_answer request

end ZHTServer

end Zht
