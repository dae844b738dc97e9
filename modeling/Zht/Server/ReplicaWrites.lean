/-
Forwarded messages as writes on the value under a key: what a worker's run of requests does to one key
is the writes on that key, one after the other, and what a replica is sent for one write is as many
copies of it as the primary lists the replica among the nodes of the key.
-/
import Zht.Server.ReplicaOrder
import Zht.Server.Replication

namespace Zht

open Lib Lib.Utf8

/-! ## Commands as writes on a key -/

/-- What a command does to the value under `k`, where that does not depend on the value. -/
def Command.writeOn (k : String) : Command → Option Write
  | insert key value => if key = k then some (.insert value) else none
  | remove key => if key = k then some .remove else none
  | append key value => if key = k then some (.append value) else none
  | emptyKey | lookup _ | compareSwap _ _ _ | stateChangeCallback _ _ _ | unrecognized => none

/-- A command that looks at no value before it writes: any but a COMPARE_SWAP. -/
def Command.Plain : Command → Prop
  | compareSwap _ _ _ => False
  | emptyKey | lookup _ | insert _ _ | remove _ | append _ _ | stateChangeCallback _ _ _ | unrecognized => True

theorem Command.writeOn_eq_none {command : Command} (h : ¬command.IsWrite) (k : String) : command.writeOn k = none := by
  cases command with
  | insert | remove | append => exact absurd trivial h
  | emptyKey | lookup | compareSwap | stateChangeCallback | unrecognized => rfl

theorem Command.plain_of_isWrite {request : ZPack} (h : request.IsWrite) : (ofRequest request).Plain := by
  have hasks := asks_ofRequest request
  generalize ofRequest request = command at hasks ⊢
  cases hasks with
  | emptyKey | insert | remove | append => trivial
  | other hop _ => exact absurd h hop

/-- The writes of a list of requests on a key. -/
def writesOn (k : String) (requests : List ZPack) : List Write :=
  requests.filterMap fun z => (Command.ofRequest z).writeOn k

theorem writesOn_cons (k : String) (z : ZPack) (requests : List ZPack) :
    writesOn k (z :: requests) = ((Command.ofRequest z).writeOn k).toList ++ writesOn k requests := by
  unfold writesOn
  rw [List.filterMap_cons]
  cases (Command.ofRequest z).writeOn k <;> rfl

theorem writesOn_append (k : String) (xs ys : List ZPack) :
    writesOn k (xs ++ ys) = writesOn k xs ++ writesOn k ys := List.filterMap_append

theorem writesOn_replicate (k : String) (n : Nat) (z : ZPack) :
    writesOn k (List.replicate n z) = Write.copies n ((Command.ofRequest z).writeOn k).toList := by
  induction n with
  | zero =>
    cases (Command.ofRequest z).writeOn k <;> rfl
  | succ n ih =>
    rw [List.replicate_succ, writesOn_cons, ih]
    cases (Command.ofRequest z).writeOn k with
    | none => rfl
    | some write => simp [Write.copies, List.replicate_succ]

theorem Command.run_plain {command : Command} (h : command.Plain) (map : Table) (k : String) :
    (command.run map).2.lookup k = (command.writeOn k).elim (map.lookup k) (Write.apply (map.lookup k)) := by
  by_cases hk : command.key = some k
  · cases command with
    | insert key value =>
      obtain rfl := Option.some.inj hk
      simp [run, writeOn, Write.apply]
    | remove key =>
      obtain rfl := Option.some.inj hk
      simp only [run, writeOn, ↓reduceIte, Option.elim_some, Write.apply]
      cases hl : map.lookup key with
      | none => exact hl
      | some value => exact Finmap.lookup_erase _ _
    | append key value =>
      obtain rfl := Option.some.inj hk
      simp only [run, writeOn, ↓reduceIte, Option.elim_some, Finmap.lookup_insert, NoVoHT.appendValue, Write.apply]
      cases map.lookup key <;> rfl
    | lookup key =>
      simp only [run, writeOn, Option.elim_none]
      cases map.lookup key <;> rfl
    | compareSwap => exact absurd h id
    | emptyKey | stateChangeCallback | unrecognized => rfl
  · rw [command.run_frame map hk]
    cases command with
    | insert key _ | remove key | append key _ =>
      have hne : key ≠ k := fun e => hk (congrArg some e)
      simp [writeOn, hne]
    | emptyKey | lookup | compareSwap | stateChangeCallback | unrecognized => rfl

/-- A run of plain requests applies the writes on a key. -/
theorem after_lookup (w : HTWorker) {requests : List ZPack} (h : ∀ z ∈ requests, (Command.ofRequest z).Plain)
    (k : String) :
    (Machine.after HTWorker.process w requests).store.map.lookup k =
      Write.applyAll (w.store.map.lookup k) (writesOn k requests) := by
  induction requests generalizing w with
  | nil => rfl
  | cons z requests ih =>
    rw [Machine.after_cons, ih _ fun y hy => h y (List.mem_cons_of_mem _ hy), w.process_map,
      Command.run_plain (h z List.mem_cons_self), writesOn_cons]
    cases (Command.ofRequest z).writeOn k <;> rfl

/-! ## Deliveries -/

/-- The messages for one node, in the order they were sent. -/
def messagesTo (host : HostEntity) (sent : List Outgoing) : List ZPack :=
  sent.filterMap fun m => if m.1 = host then some m.2 else none

theorem messagesTo_append (host : HostEntity) (xs ys : List Outgoing) :
    messagesTo host (xs ++ ys) = messagesTo host xs ++ messagesTo host ys := List.filterMap_append

/-- How often a manager lists the node for a key. -/
def ReplicationManager.timesListed (r : ReplicationManager) (host : HostEntity) (key : String) : Nat :=
  (r.getReplicaNodes key).count host

theorem ReplicationManager.timesListed_pos {r : ReplicationManager} {host : HostEntity} {key : String} :
    0 < r.timesListed host key ↔ host ∈ r.getReplicaNodes key := List.count_pos_iff

/-- A node gets a message as often as it is listed. -/
theorem messagesTo_replicate {r : ReplicationManager} (hon : r.isReplicationEnabled = true) (host : HostEntity)
    (key : String) (z : ZPack) :
    messagesTo host (r.replicate key z) = List.replicate (r.timesListed host key) z := by
  have hmap : ∀ hosts : List HostEntity,
      messagesTo host (hosts.map fun h => (h, z)) = List.replicate (hosts.count host) z := by
    intro hosts
    induction hosts with
    | nil => rfl
    | cons h hosts ih =>
      unfold messagesTo at ih ⊢
      rw [List.map_cons]
      by_cases he : h = host
      · rw [List.filterMap_cons_some (b := z) (by simp [he]), ih, he, List.count_cons_self, List.replicate_succ]
      · rw [List.filterMap_cons_none (by simp [he]), ih, List.count_cons_of_ne he]
  rw [ReplicationManager.replicate_eq hon]
  exact hmap _

/-- Only plain commands are forwarded. -/
theorem Command.plain_of_forwarded {command : Command} {map : Table} {val : Bytes} {z : ZPack}
    (h : command.forwarded map val = some z) : command.Plain := by
  cases command with
  | compareSwap => cases h
  | emptyKey | lookup | insert | remove | append | stateChangeCallback | unrecognized => trivial

/-- A primary whose one other member `r` is every key's replica, `numReplicas` times. -/
def primaryBeside (numReplicas : UInt32) : ReplicatedHTWorker where
  inner := HTWorker.new NoVoHT.new
  replication :=
    { numReplicas, replicationType := 1, membership := MembershipManager.new 0 ⟨"p", 1⟩ [⟨"p", 1⟩, ⟨"r", 1⟩] }

end Zht
