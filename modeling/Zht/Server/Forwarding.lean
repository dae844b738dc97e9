/-
What a server sends on of the writes that its connections bring. `ReplicatedHTWorker` would forward
each write it acknowledges to the nodes of its key (`ReplicatedHTWorker.forwards`), but
`ZHTServer::start` gives `handle_connection_with_metrics` the plain worker: a run forwards its writes
only where it has none to forward (`forwards_iff`).
-/
import Zht.Server.ReplicaWrites

namespace Zht

open Lib Lib.Utf8

/-- Each node of the request's key is sent one message, which asks it for the same. -/
def Forwarded (r : ReplicationManager) (request : ZPack) (sent : List Outgoing) : Prop :=
  ∀ host ∈ r.getReplicaNodes (fromUtf8Lossy request.key),
    ∃ z, messagesTo host sent = [z] ∧ Command.ofRequest z = Command.ofRequest request

/-- A write with a key, answered 000, is one that is forwarded. -/
theorem acknowledged_iff (w : HTWorker) (request : ZPack) :
    request.IsWrite ∧ fromUtf8Lossy request.key ≠ "" ∧ (w.process request).1.lease = utf8Bytes REC_SUCC ↔
      ¬(Command.ofRequest request).Unforwarded w.store.map := by
  rw [← and_assoc, ← Command.isWrite_iff, w.process_answer, ← Command.forwarded_eq_none_iff request.val]
  by_cases hwrite : (Command.ofRequest request).IsWrite
  · have hlease := Command.lease_of_isWrite hwrite w.store.map request.val
    rw [Reply.toZPack, hlease]
    cases (Command.ofRequest request).forwarded w.store.map request.val with
    | none =>
      refine iff_of_false (fun h => ?_) fun h => h rfl
      exact absurd (utf8Bytes_inj h.2) (by decide)
    | some z => exact iff_of_true ⟨hwrite, congrArg utf8Bytes (if_pos rfl)⟩ (Option.some_ne_none z)
  · exact iff_of_false (fun h => hwrite h.1) fun h => h (Command.forwarded_eq_none hwrite _ _)

/-- Behind the wrapper, a write that is acknowledged is forwarded where its key's nodes are distinct. -/
theorem ReplicatedHTWorker.forwards (w : ReplicatedHTWorker) (hon : w.replication.isReplicationEnabled = true)
    {request : ZPack} (hacked : ¬(Command.ofRequest request).Unforwarded w.inner.store.map)
    (hnodes : (w.replication.getReplicaNodes (fromUtf8Lossy request.key)).Nodup) :
    Forwarded w.replication request (w.sent request) := by
  intro host hlisted
  rw [← Command.forwarded_eq_none_iff request.val] at hacked
  obtain ⟨z, hz⟩ := Option.ne_none_iff_exists'.1 hacked
  refine ⟨z, ?_, Command.ofRequest_forwarded hz⟩
  rw [w.sent_eq, hz, Option.elim_some, messagesTo_replicate hon]
  unfold ReplicationManager.timesListed
  rw [List.count_eq_one_of_mem hnodes hlisted]
  rfl

/-! ## The server -/

namespace ZHTServer

/-- A turn of a connection, with the messages it sends to other nodes. The handler has `worker` and the
metrics, and no way to `replication`: it writes to its own stream only. -/
def connectionTurn (c : Codec) (s : ZHTServer) (request : ZPack) : (ZPack × List Outgoing) × ZHTServer :=
  let handled := s.handleRequest c request
  ((handled.1, []), handled.2)

/-- If the request is a write with a key that is answered 000, it is forwarded. -/
def Forwards (c : Codec) (s : ZHTServer) (request : ZPack) : Prop :=
  request.IsWrite ∧ fromUtf8Lossy request.key ≠ "" ∧
      (s.connectionTurn c request).1.1.lease = utf8Bytes REC_SUCC →
    Forwarded s.replication request (s.connectionTurn c request).1.2

/-- The request is no INSERT or APPEND with a key, and no REMOVE of a key that is there. -/
def NothingToForward (s : ZHTServer) (request : ZPack) : Prop :=
  (Command.ofRequest request).Unforwarded s.worker.store.map

theorem forwards_step_iff (c : Codec) {s : ZHTServer} (hon : s.replication.isReplicationEnabled = true)
    (halive : s.replication.membership.activeMembers ≠ []) (request : ZPack) :
    s.Forwards c request ↔ s.NothingToForward request := by
  have hanswered : request.IsWrite ∧ fromUtf8Lossy request.key ≠ "" ∧
      (s.connectionTurn c request).1.1.lease = utf8Bytes REC_SUCC ↔ ¬s.NothingToForward request :=
    acknowledged_iff s.worker request
  unfold Forwards
  rw [hanswered]
  refine ⟨fun h => ?_, fun h hwrite => absurd h hwrite⟩
  by_contra hwrite
  -- there is a node to send to, and nothing is sent
  have hlength := s.replication.length_getReplicaNodes (fromUtf8Lossy request.key)
  rw [if_neg halive] at hlength
  have hreplicas := ReplicationManager.numReplicas_pos hon
  obtain ⟨host, hlisted⟩ := List.exists_mem_of_length_pos (hlength ▸ hreplicas)
  obtain ⟨z, hsent, -⟩ := h hwrite host hlisted
  exact absurd hsent (List.cons_ne_nil z []).symm

end ZHTServer

/-- A server that replicates forwards the writes it acknowledges along a run exactly when the run brings
it none to forward. -/
theorem forwards_iff (c : Codec) (s : ZHTServer) (hon : s.replication.isReplicationEnabled = true)
    (halive : s.replication.membership.activeMembers ≠ []) (requests : List ZPack) :
    Machine.Along (ZHTServer.connectionTurn c) (ZHTServer.Forwards c) s requests ↔
      Machine.Along (ZHTServer.connectionTurn c) ZHTServer.NothingToForward s requests := by
  induction requests generalizing s with
  | nil => exact Iff.rfl
  | cons request requests ih =>
    rw [Machine.along_cons, Machine.along_cons, ZHTServer.forwards_step_iff c hon halive]
    exact and_congr_right fun _ => ih _ hon halive

/-- A server with one other member and one replica. -/
def serverBeside : ZHTServer := .newWithStore 0 NoVoHT.new ⟨"p", 1⟩ [⟨"r", 1⟩] 1 1 true

/-- A REMOVE of an absent key and a LOOKUP. -/
theorem forwards_two :
    Machine.Along (ZHTServer.connectionTurn .protobuf) (ZHTServer.Forwards .protobuf) serverBeside
      [{ opcode := utf8Bytes OPC_REMOVE, key := utf8Bytes "k" },
        { opcode := utf8Bytes OPC_LOOKUP, key := utf8Bytes "k" }] := by
  refine (forwards_iff .protobuf serverBeside (by decide) (by decide) _).2 ⟨?_, ?_, trivial⟩
  · show (Command.ofRequest _).Unforwarded _
    rw [command_remove (show "k" ≠ "" by decide)]
    rfl
  · show (Command.ofRequest _).Unforwarded _
    rw [command_lookup (show "k" ≠ "" by decide)]
    trivial

/-- An INSERT that is answered 000 and sent to nobody. -/
theorem insert_not_forwarded :
    let insert : ZPack := { opcode := utf8Bytes OPC_INSERT, key := utf8Bytes "k", val := utf8Bytes "v" }
    (serverBeside.connectionTurn .protobuf insert).1.1.lease = utf8Bytes REC_SUCC ∧
      serverBeside.replication.getReplicaNodes "k" = [⟨"r", 1⟩] ∧
      (serverBeside.connectionTurn .protobuf insert).1.2 = [] ∧
      ¬Machine.Along (ZHTServer.connectionTurn .protobuf) (ZHTServer.Forwards .protobuf) serverBeside [insert] := by
  refine ⟨by decide, by decide, rfl, ?_⟩
  rintro ⟨hforwards, -⟩
  obtain ⟨z, hsent, -⟩ := hforwards ⟨by decide, by decide, by decide⟩ ⟨"r", 1⟩ (by decide)
  exact absurd hsent (List.cons_ne_nil z []).symm

end Zht
