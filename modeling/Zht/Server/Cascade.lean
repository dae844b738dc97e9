/-
A cluster whose nodes all process what reaches them with replication, clients' requests and each
other's messages alike. Nothing marks a forwarded message, so a node forwards it again: a delivery
leads to no further message exactly when the node has no one to send to or the message is a REMOVE of
a key absent there. Along the runs whose deliveries are all of that kind, a write is sent to its
replicas once and reaches each of them once (`no_cascade`).
-/
import Zht.Server.ReplicaWrites

namespace Zht

open Lib Lib.Utf8

/-! ## The cluster -/

/-- A message on its way; `write` is the number of the client's request it goes back to. -/
structure Envelope where
  target : HostEntity
  message : ZPack
  write : Nat
  deriving DecidableEq, Repr

structure ReplicatedCluster where
  workers : HostEntity → ReplicatedHTWorker
  inFlight : List Envelope
  sent : List Envelope
  delivered : List Envelope
  writes : List (HostEntity × ZPack)

inductive ClusterEvent
  | client (node : HostEntity) (request : ZPack)
  /-- The message at the place `i` of those in flight reaches its target. -/
  | deliver (i : Nat)
  deriving DecidableEq, Repr

namespace ReplicatedCluster

/-- The messages that the processing of a request at a node leads to. -/
def spread (s : ReplicatedCluster) (node : HostEntity) (request : ZPack) (write : Nat) : List Envelope :=
  ((s.workers node).sent request).map fun m => ⟨m.1, m.2, write⟩

/-- The workers after a request was processed at a node. -/
def processedAt (s : ReplicatedCluster) (node : HostEntity) (request : ZPack) : HostEntity → ReplicatedHTWorker :=
  Function.update s.workers node ((s.workers node).processWithReplication request).2

/-- An event, with the messages it leads to. -/
def step (s : ReplicatedCluster) : ClusterEvent → List Envelope × ReplicatedCluster
  | .client node request =>
    let out := s.spread node request s.writes.length
    (out, { s with
      workers := s.processedAt node request
      inFlight := s.inFlight ++ out
      sent := s.sent ++ out
      writes := s.writes ++ [(node, request)] })
  | .deliver i =>
    match s.inFlight[i]? with
    | none => ([], s)
    | some e =>
      let out := s.spread e.target e.message e.write
      (out, { s with
        workers := s.processedAt e.target e.message
        inFlight := s.inFlight.eraseIdx i ++ out
        sent := s.sent ++ out
        delivered := s.delivered ++ [e] })

/-- A cluster before its first request. -/
structure Fresh (s : ReplicatedCluster) : Prop where
  inFlight : s.inFlight = []
  sent : s.sent = []
  delivered : s.delivered = []
  writes : s.writes = []

/-- Every node replicates. -/
def Replicating (s : ReplicatedCluster) : Prop := ∀ node, (s.workers node).replication.isReplicationEnabled = true

/-- A delivery leads to no further message. -/
def Silent (s : ReplicatedCluster) : ClusterEvent → Prop
  | .client _ _ => True
  | .deliver i => (s.step (.deliver i)).1 = []

/-- A message is delivered to a node that has no one to send to, or has nothing to forward there. -/
def Quiet (s : ReplicatedCluster) : ClusterEvent → Prop
  | .client _ _ => True
  | .deliver i => ∀ e, s.inFlight[i]? = some e →
    (s.workers e.target).replication.membership.activeMembers = [] ∨
      (Command.ofRequest e.message).Unforwarded (s.workers e.target).inner.store.map

/-! ## What an event leads to -/

/-- What a client's request leads to. -/
theorem step_client (s : ReplicatedCluster) (node : HostEntity) (request : ZPack) :
    s.step (.client node request) = (s.spread node request s.writes.length,
      { s with
        workers := s.processedAt node request
        inFlight := s.inFlight ++ s.spread node request s.writes.length
        sent := s.sent ++ s.spread node request s.writes.length
        writes := s.writes ++ [(node, request)] }) := rfl

theorem step_deliver_none {s : ReplicatedCluster} {i : Nat} (h : s.inFlight[i]? = none) :
    s.step (.deliver i) = ([], s) := by
  simp only [step, h]

theorem step_deliver {s : ReplicatedCluster} {i : Nat} {e : Envelope} (h : s.inFlight[i]? = some e) :
    s.step (.deliver i) = (s.spread e.target e.message e.write,
      { s with
        workers := s.processedAt e.target e.message
        inFlight := s.inFlight.eraseIdx i ++ s.spread e.target e.message e.write
        sent := s.sent ++ s.spread e.target e.message e.write
        delivered := s.delivered ++ [e] }) := by
  simp only [step, h]

theorem processedAt_replication (s : ReplicatedCluster) (node : HostEntity) (request : ZPack) (other : HostEntity) :
    (s.processedAt node request other).replication = (s.workers other).replication := by
  unfold processedAt
  by_cases h : other = node
  · subst h
    rw [Function.update_self, ReplicatedHTWorker.process_replication]
  · rw [Function.update_of_ne h]

theorem step_replication (s : ReplicatedCluster) (event : ClusterEvent) (node : HostEntity) :
    ((s.step event).2.workers node).replication = (s.workers node).replication := by
  cases event with
  | client n request => exact s.processedAt_replication n request node
  | deliver i =>
    cases h : s.inFlight[i]? with
    | none => rw [step_deliver_none h]
    | some e =>
      rw [step_deliver h]
      exact s.processedAt_replication e.target e.message node

theorem spread_eq_nil_iff {s : ReplicatedCluster} (hon : s.Replicating) (node : HostEntity) (request : ZPack)
    (write : Nat) :
    s.spread node request write = [] ↔
      (s.workers node).replication.membership.activeMembers = [] ∨
        (Command.ofRequest request).Unforwarded (s.workers node).inner.store.map := by
  unfold spread
  rw [List.map_eq_nil_iff, ReplicatedHTWorker.sent_eq, ← Command.forwarded_eq_none_iff request.val]
  cases (Command.ofRequest request).forwarded (s.workers node).inner.store.map request.val with
  | none => exact iff_of_true rfl (.inr rfl)
  | some z =>
    rw [Option.elim_some, ReplicationManager.replicate_eq (hon node), List.map_eq_nil_iff,
      ReplicationManager.getReplicaNodes_eq_nil_iff (hon node)]
    exact (or_iff_left (Option.some_ne_none z)).symm

/-! ## Runs -/

theorem silent_iff_quiet {s : ReplicatedCluster} (h : s.Replicating) (event : ClusterEvent) :
    s.Silent event ↔ s.Quiet event := by
  cases event with
  | client => exact Iff.rfl
  | deliver i =>
    show (s.step (.deliver i)).1 = [] ↔ ∀ e, s.inFlight[i]? = some e → _
    cases hi : s.inFlight[i]? with
    | none =>
      rw [step_deliver_none hi]
      refine iff_of_true rfl fun e he => ?_
      cases he
    | some e =>
      rw [step_deliver hi, spread_eq_nil_iff h]
      constructor
      · rintro hquiet d hd
        obtain rfl := Option.some.inj hd
        exact hquiet
      · exact fun hquiet => hquiet e rfl

/-- What quiet runs keep, beside the cluster they start from: each request has been sent to the nodes
of its key, if at all, and each message sent is in flight or was delivered. -/
structure Tracked (start s : ReplicatedCluster) : Prop where
  replication : ∀ node, (s.workers node).replication = (start.workers node).replication
  accounted : (s.inFlight ++ s.delivered).Perm s.sent
  numbered : ∀ e ∈ s.sent, e.write < s.writes.length
  spread : ∀ i node request, s.writes[i]? = some (node, request) → ∃ map : Table,
    s.sent.filter (·.write = i) =
      (((Command.ofRequest request).forwarded map request.val).elim []
        ((start.workers node).replication.replicate (fromUtf8Lossy request.key))).map fun m => ⟨m.1, m.2, i⟩

theorem write_of_mem_spread {s : ReplicatedCluster} {node : HostEntity} {request : ZPack} {write : Nat} {e : Envelope}
    (h : e ∈ s.spread node request write) : e.write = write := by
  obtain ⟨m, -, rfl⟩ := List.mem_map.1 h
  rfl

/-- The messages a request leads to go back to that request alone. -/
theorem filter_spread (s : ReplicatedCluster) (node : HostEntity) (request : ZPack) (write i : Nat) :
    (s.spread node request write).filter (·.write = i) = if i = write then s.spread node request write else [] := by
  split
  · next hi =>
    refine List.filter_eq_self.2 fun e he => ?_
    simpa [hi] using write_of_mem_spread he
  · next hi =>
    refine List.filter_eq_nil_iff.2 fun e he => ?_
    rw [write_of_mem_spread he]
    simpa using Ne.symm hi

theorem Tracked.client {start s : ReplicatedCluster} (h : Tracked start s) (node : HostEntity) (request : ZPack) :
    Tracked start (s.step (.client node request)).2 := by
  refine ⟨fun n => by rw [step_replication]; exact h.replication n, ?_, ?_, ?_⟩
  · rw [step_client]
    show (s.inFlight ++ _ ++ s.delivered).Perm (s.sent ++ _)
    refine List.Perm.trans ?_ (h.accounted.append_right _)
    rw [List.append_assoc, List.append_assoc]
    exact List.perm_append_comm.append_left _
  · rw [step_client]
    intro e he
    show e.write < (s.writes ++ [(node, request)]).length
    rw [List.length_append, List.length_singleton]
    rcases List.mem_append.1 he with he | he
    · exact Nat.lt_succ_of_lt (h.numbered e he)
    · exact write_of_mem_spread he ▸ Nat.lt_succ_self _
  · rw [step_client]
    intro i n z hi
    show ∃ map : Table, (s.sent ++ s.spread node request s.writes.length).filter (·.write = i) = _
    rw [List.filter_append, filter_spread]
    rcases Nat.lt_trichotomy i s.writes.length with hlt | rfl | hgt
    · rw [List.getElem?_append_left hlt] at hi
      rw [if_neg (Nat.ne_of_lt hlt), List.append_nil]
      exact h.spread i n z hi
    · -- the request just handled
      rw [List.getElem?_concat_length] at hi
      obtain ⟨rfl, rfl⟩ := Prod.mk.inj (Option.some.inj hi)
      have hbefore : s.sent.filter (·.write = s.writes.length) = [] := by
        refine List.filter_eq_nil_iff.2 fun e he => ?_
        simpa using Nat.ne_of_lt (h.numbered e he)
      rw [hbefore, if_pos rfl, List.nil_append, ← h.replication node]
      refine ⟨(s.workers node).inner.store.map, ?_⟩
      unfold ReplicatedCluster.spread
      rw [ReplicatedHTWorker.sent_eq]
    · have hnone : (s.writes ++ [(node, request)])[i]? = none := by
        refine List.getElem?_eq_none ?_
        rw [List.length_append, List.length_singleton]
        exact hgt
      rw [hnone] at hi
      cases hi

theorem Tracked.deliver {start s : ReplicatedCluster} (h : Tracked start s) {i : Nat}
    (hsilent : s.Silent (.deliver i)) :
    Tracked start (s.step (.deliver i)).2 := by
  cases hi : s.inFlight[i]? with
  | none =>
    rw [step_deliver_none hi]
    exact h
  | some e =>
    have hout : s.spread e.target e.message e.write = [] := by
      simpa [Silent, step_deliver hi] using hsilent
    have hsent : (s.step (.deliver i)).2.sent = s.sent := by
      rw [step_deliver hi, hout]
      exact List.append_nil _
    have hwrites : (s.step (.deliver i)).2.writes = s.writes := by
      rw [step_deliver hi]
    refine ⟨fun n => by rw [step_replication]; exact h.replication n, ?_, ?_, ?_⟩
    · rw [hsent, step_deliver hi, hout]
      show (s.inFlight.eraseIdx i ++ [] ++ (s.delivered ++ [e])).Perm s.sent
      rw [List.append_nil, ← List.append_assoc]
      obtain ⟨hlt, rfl⟩ := List.getElem?_eq_some_iff.1 hi
      refine List.Perm.trans ?_ h.accounted
      refine List.Perm.trans ?_ ((List.getElem_cons_eraseIdx_perm hlt).append_right _)
      exact List.perm_append_singleton _ _
    · rw [hsent, hwrites]
      exact h.numbered
    · rw [hsent, hwrites]
      exact h.spread

/-- From a fresh cluster. -/
theorem tracked_after {start : ReplicatedCluster} (hfresh : start.Fresh) (hon : start.Replicating)
    {events : List ClusterEvent} (hquiet : Machine.Along step Quiet start events) :
    Tracked start (Machine.after step start events) := by
  have hstart : Tracked start start := by
    refine ⟨fun _ => rfl, ?_, ?_, ?_⟩
    · rw [hfresh.inFlight, hfresh.delivered, hfresh.sent, List.append_nil]
    · rw [hfresh.sent]
      intro e he
      cases he
    · rw [hfresh.writes]
      intro i node request hi
      cases hi
  have hkept := Machine.after_invariant (I := fun s => s.Replicating ∧ Tracked start s) (P := Quiet)
    (fun s event hs hq => ?_) ⟨hon, hstart⟩ hquiet
  · exact hkept.2
  · obtain ⟨hrep, htracked⟩ := hs
    refine ⟨fun node => by rw [step_replication]; exact hrep node, ?_⟩
    cases event with
    | client node request => exact htracked.client node request
    | deliver i => exact htracked.deliver ((silent_iff_quiet hrep _).2 hq)

variable {start : ReplicatedCluster} {events : List ClusterEvent} {i : Nat} {node : HostEntity} {request : ZPack}

/-- Along a quiet run a request is sent on no more often than its node has replicas. -/
theorem sent_le (hfresh : start.Fresh) (hon : start.Replicating) (hquiet : Machine.Along step Quiet start events)
    (hi : (Machine.after step start events).writes[i]? = some (node, request)) :
    ((Machine.after step start events).sent.filter (·.write = i)).length ≤
      (start.workers node).replication.numReplicas.toNat := by
  obtain ⟨map, hsent⟩ := (tracked_after hfresh hon hquiet).spread i node request hi
  rw [hsent, List.length_map]
  cases (Command.ofRequest request).forwarded map request.val with
  | none => exact Nat.zero_le _
  | some z =>
    rw [Option.elim_some, ReplicationManager.replicate_eq (hon node), List.length_map,
      ReplicationManager.length_getReplicaNodes]
    split
    · exact Nat.zero_le _
    · exact Nat.le_refl _

/-- Along a quiet run an APPEND, once none of its messages is in flight any more, has reached each of its
key's nodes once. -/
theorem delivered_once (hfresh : start.Fresh) (hon : start.Replicating)
    (hquiet : Machine.Along step Quiet start events)
    (hi : (Machine.after step start events).writes[i]? = some (node, request)) {key value : String}
    (happend : Command.ofRequest request = .append key value)
    (hnodes : ((start.workers node).replication.getReplicaNodes key).Nodup)
    (hdone : ∀ e ∈ (Machine.after step start events).inFlight, e.write ≠ i) {host : HostEntity}
    (hlisted : host ∈ (start.workers node).replication.getReplicaNodes key) :
    ∃ e, (Machine.after step start events).delivered.filter (fun e => e.write = i ∧ e.target = host) = [e] ∧
      Command.ofRequest e.message = .append key value := by
  have htracked := tracked_after hfresh hon hquiet
  obtain ⟨map, hsent⟩ := htracked.spread i node request hi
  have hkey : key = fromUtf8Lossy request.key := Command.key_ofRequest (by rw [happend]; rfl)
  subst hkey
  generalize Machine.after step start events = s at htracked hsent hdone ⊢
  have hz : (Command.ofRequest request).forwarded map request.val = some
      { opcode := utf8Bytes OPC_APPEND, key := utf8Bytes (fromUtf8Lossy request.key), val := request.val } := by
    rw [happend]
    rfl
  rw [hz, Option.elim_some, ReplicationManager.replicate_eq (hon node), List.map_map] at hsent
  have hasks := Command.ofRequest_forwarded hz
  generalize ({ opcode := _, key := _, val := _ } : ZPack) = z at hsent hasks
  refine ⟨⟨host, z, i⟩, ?_, hasks.trans happend⟩
  have hdelivered : (s.delivered.filter fun e => e.write = i).Perm (s.sent.filter fun e => e.write = i) := by
    have hfiltered := htracked.accounted.filter fun e => e.write = i
    have hnone : (s.inFlight.filter fun e => e.write = i) = [] := by
      refine List.filter_eq_nil_iff.2 fun e he => ?_
      simpa using hdone e he
    rwa [List.filter_append, hnone, List.nil_append] at hfiltered
  have htarget := hdelivered.filter fun e => e.target = host
  have hone : (s.sent.filter fun e => e.write = i).filter (fun e => e.target = host) = [⟨host, z, i⟩] := by
    rw [hsent, List.filter_map]
    have hnode : ((start.workers node).replication.getReplicaNodes (fromUtf8Lossy request.key)).filter (· = host) =
        [host] := by
      rw [List.filter_eq, List.count_eq_one_of_mem hnodes hlisted]
      rfl
    exact congrArg (List.map _) hnode
  rw [hone, List.filter_filter] at htarget
  rw [← List.perm_singleton.1 htarget]
  refine List.filter_congr fun e _ => ?_
  rw [← Bool.decide_and]
  exact decide_eq_decide.2 and_comm

end ReplicatedCluster

/-- In a fresh cluster whose nodes replicate, deliveries lead to no further messages along a run exactly
when each finds a node with no one to send to or with nothing to forward. Along such a run a request is
sent on to no more nodes than its node has replicas, and an APPEND under a key with distinct nodes
reaches each of them once. -/
theorem no_cascade (start : ReplicatedCluster) (hfresh : start.Fresh) (hon : start.Replicating)
    (events : List ClusterEvent) :
    (Machine.Along ReplicatedCluster.step ReplicatedCluster.Silent start events ↔
        Machine.Along ReplicatedCluster.step ReplicatedCluster.Quiet start events) ∧
      (Machine.Along ReplicatedCluster.step ReplicatedCluster.Quiet start events →
        ∀ i node request, (Machine.after ReplicatedCluster.step start events).writes[i]? = some (node, request) →
          ((Machine.after ReplicatedCluster.step start events).sent.filter (·.write = i)).length ≤
              (start.workers node).replication.numReplicas.toNat ∧
            ∀ key value, Command.ofRequest request = .append key value →
              ((start.workers node).replication.getReplicaNodes key).Nodup →
              (∀ e ∈ (Machine.after ReplicatedCluster.step start events).inFlight, e.write ≠ i) →
              ∀ host ∈ (start.workers node).replication.getReplicaNodes key,
                ∃ e, (Machine.after ReplicatedCluster.step start events).delivered.filter
                    (fun e => e.write = i ∧ e.target = host) = [e] ∧
                  Command.ofRequest e.message = .append key value) := by
  have hrep : ∀ s : ReplicatedCluster, ∀ event, s.Replicating → (s.step event).2.Replicating := by
    intro s event h node
    rw [ReplicatedCluster.step_replication]
    exact h node
  refine ⟨⟨?_, ?_⟩, ?_⟩
  · exact Machine.along_of_invariant (fun s event h _ => hrep s event h)
      (fun s event h => (ReplicatedCluster.silent_iff_quiet h event).1) hon
  · exact Machine.along_of_invariant (fun s event h _ => hrep s event h)
      (fun s event h => (ReplicatedCluster.silent_iff_quiet h event).2) hon
  · intro hquiet i node request hi
    refine ⟨ReplicatedCluster.sent_le hfresh hon hquiet hi, fun key value happend hnodes hdone host hlisted => ?_⟩
    exact ReplicatedCluster.delivered_once hfresh hon hquiet hi happend hnodes hdone hlisted

/-- A fresh cluster with one replica, whose nodes list others as given. -/
def freshCluster (others : HostEntity → List HostEntity) : ReplicatedCluster where
  workers node :=
    { inner := HTWorker.new NoVoHT.new
      replication :=
        { numReplicas := 1, replicationType := 1, membership := MembershipManager.new 0 node (others node) } }
  inFlight := []
  sent := []
  delivered := []
  writes := []

/-- An APPEND at `p`, whose replica `r` lists no other node. -/
theorem no_cascade_example :
    let start := freshCluster fun node => if node = ⟨"p", 1⟩ then [⟨"r", 1⟩] else []
    let append : ZPack := { opcode := utf8Bytes OPC_APPEND, key := utf8Bytes "k", val := utf8Bytes "v" }
    Machine.Along ReplicatedCluster.step ReplicatedCluster.Silent start [.client ⟨"p", 1⟩ append, .deliver 0] := by
  intro start append
  have hfresh : start.Fresh := ⟨rfl, rfl, rfl, rfl⟩
  refine (no_cascade start hfresh (fun _ => rfl) _).1.2 ⟨trivial, ?_, trivial⟩
  have htarget : ((start.step (.client ⟨"p", 1⟩ append)).2.inFlight[0]?.map (·.target)) = some ⟨"r", 1⟩ := by
    decide
  intro e (he : (start.step (.client ⟨"p", 1⟩ append)).2.inFlight[0]? = some e)
  rw [he] at htarget
  replace htarget : e.target = ⟨"r", 1⟩ := Option.some.inj htarget
  left
  rw [ReplicatedCluster.step_replication, htarget]
  rfl

/-- Two nodes that list each other pass an APPEND to and fro, and apply it over and over. -/
theorem append_cascades :
    let start := freshCluster fun _ => [⟨"p", 1⟩, ⟨"r", 1⟩]
    let append : ZPack := { opcode := utf8Bytes OPC_APPEND, key := utf8Bytes "k", val := utf8Bytes "v" }
    let events : List ClusterEvent := [.client ⟨"p", 1⟩ append, .deliver 0, .deliver 0, .deliver 0]
    ¬Machine.Along ReplicatedCluster.step ReplicatedCluster.Silent start events ∧
      ((Machine.after ReplicatedCluster.step start events).sent.filter (·.write = 0)).length = 4 ∧
      ((Machine.after ReplicatedCluster.step start events).workers ⟨"r", 1⟩).inner.store.map.lookup "k" =
        some "v:v" := by
  refine ⟨?_, by decide, by decide⟩
  rintro ⟨-, hsilent, -⟩
  exact absurd (show (ReplicatedCluster.step _ (.deliver 0)).1 = [] from hsilent) (by decide)

end Zht
