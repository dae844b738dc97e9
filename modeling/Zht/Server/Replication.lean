/-
`ReplicationManager` and `ReplicatedHTWorker`: the replica nodes of a key, the messages a write is
forwarded as, and the worker that spawns a task to forward a write it has acknowledged. A spawned task
does nothing but send its messages one after the other; when it does is up to the scheduler.
`sent_eq` says what is forwarded, in terms of the command a request comes to.
-/
import Mathlib.Data.String.Basic
import Zht.Lib.Machine
import Zht.Server.Server

namespace Zht

open Lib Lib.Utf8

/-! ## The manager -/

/-- A message for a node. -/
abbrev Outgoing := HostEntity × ZPack

namespace ReplicationManager

def isReplicationEnabled (r : ReplicationManager) : Bool := 0 < r.replicationType ∧ 0 < r.numReplicas

/-- The nodes after the primary in the list of alive members, around its end and as often as there are
replicas to find. -/
def getReplicaNodes (r : ReplicationManager) (key : String) : List HostEntity :=
  let alive := r.membership.activeMembers
  if alive = [] ∨ r.numReplicas = 0 then []
  else
    let primaryIndex := (genHashStr key).toNat % alive.length
    (List.range' 1 r.numReplicas.toNat).filterMap fun offset => alive[(primaryIndex + offset) % alive.length]?

/-- The loop over the replica nodes. -/
def replicate (r : ReplicationManager) (key : String) (request : ZPack) : List Outgoing :=
  if r.isReplicationEnabled = false then [] else (r.getReplicaNodes key).map fun host => (host, request)

def replicateInsert (r : ReplicationManager) (key : String) (value : Bytes) : List Outgoing :=
  r.replicate key { opcode := utf8Bytes OPC_INSERT, key := utf8Bytes key, val := value }

def replicateRemove (r : ReplicationManager) (key : String) : List Outgoing :=
  r.replicate key { opcode := utf8Bytes OPC_REMOVE, key := utf8Bytes key }

def replicateAppend (r : ReplicationManager) (key : String) (value : Bytes) : List Outgoing :=
  r.replicate key { opcode := utf8Bytes OPC_APPEND, key := utf8Bytes key, val := value }

/-- A manager looks for as many nodes as it has replicas, unless it knows no alive member. -/
theorem length_getReplicaNodes (r : ReplicationManager) (key : String) :
    (r.getReplicaNodes key).length = if r.membership.activeMembers = [] then 0 else r.numReplicas.toNat := by
  unfold getReplicaNodes
  simp only
  by_cases hempty : r.membership.activeMembers = []
  · rw [if_pos (.inl hempty), if_pos hempty]
    rfl
  · have hpos := List.length_pos_iff.2 hempty
    rw [if_neg hempty]
    by_cases hzero : r.numReplicas = 0
    · rw [if_pos (.inr hzero), hzero]
      rfl
    · rw [if_neg (not_or.2 ⟨hempty, hzero⟩)]
      -- every index is below the number of members
      rw [List.length_filterMap_eq_countP, List.countP_eq_length.2, List.length_range']
      intro offset _
      rw [List.getElem?_eq_getElem (Nat.mod_lt _ hpos)]
      rfl

theorem numReplicas_pos {r : ReplicationManager} (hon : r.isReplicationEnabled = true) : 0 < r.numReplicas.toNat :=
  UInt32.lt_iff_toNat_lt.1 (of_decide_eq_true hon).2

theorem getReplicaNodes_eq_nil_iff {r : ReplicationManager} (hon : r.isReplicationEnabled = true) (key : String) :
    r.getReplicaNodes key = [] ↔ r.membership.activeMembers = [] := by
  have hlength := r.length_getReplicaNodes key
  have hpos := numReplicas_pos hon
  rw [← List.length_eq_zero_iff, hlength]
  split
  · next hempty => exact iff_of_true rfl hempty
  · next hsome => exact iff_of_false (Nat.ne_of_gt hpos) hsome

theorem replicate_eq {r : ReplicationManager} (hon : r.isReplicationEnabled = true) (key : String) (request : ZPack) :
    r.replicate key request = (r.getReplicaNodes key).map fun host => (host, request) := by
  rw [replicate, hon]
  rfl

end ReplicationManager

/-! ## The worker -/

/-- What the spawned block captures. -/
structure ReplicationTask where
  opcode : String
  key : String
  val : Bytes
  deriving DecidableEq, Repr

/-- What a task sends. -/
def ReplicationTask.messages (r : ReplicationManager) (task : ReplicationTask) : List Outgoing :=
  if task.opcode = OPC_INSERT then r.replicateInsert task.key task.val
  else if task.opcode = OPC_REMOVE then r.replicateRemove task.key
  else if task.opcode = OPC_APPEND then r.replicateAppend task.key task.val
  else []

structure ReplicatedHTWorker where
  inner : HTWorker
  replication : ReplicationManager

namespace ReplicatedHTWorker

/-- The answer, and the task spawned in the background if any. -/
def processWithReplication (w : ReplicatedHTWorker) (request : ZPack) :
    (ZPack × Option ReplicationTask) × ReplicatedHTWorker :=
  let processed := w.inner.process request
  let w := { w with inner := processed.2 }
  if acknowledges processed.1 = false then ((processed.1, none), w)
  else
    let key := fromUtf8Lossy request.key
    if key = "" then ((processed.1, none), w)
    else ((processed.1, some { opcode := fromUtf8Lossy request.opcode, key, val := request.val }), w)

/-- The messages that the processing of a request leads to. -/
def sent (w : ReplicatedHTWorker) (request : ZPack) : List Outgoing :=
  ((w.processWithReplication request).1.2.map (·.messages w.replication)).getD []

/-- Whatever is spawned, the answer and the worker are those of the inner one. -/
theorem processWithReplication_eq (w : ReplicatedHTWorker) (request : ZPack) :
    ∃ task, w.processWithReplication request =
      (((w.inner.process request).1, task), { w with inner := (w.inner.process request).2 }) := by
  unfold processWithReplication
  simp only
  split
  · exact ⟨_, rfl⟩
  · split <;> exact ⟨_, rfl⟩

theorem process_inner (w : ReplicatedHTWorker) (request : ZPack) :
    (w.processWithReplication request).2.inner = (w.inner.process request).2 := by
  obtain ⟨task, h⟩ := w.processWithReplication_eq request
  rw [h]

@[simp] theorem process_replication (w : ReplicatedHTWorker) (request : ZPack) :
    (w.processWithReplication request).2.replication = w.replication := by
  obtain ⟨task, h⟩ := w.processWithReplication_eq request
  rw [h]

theorem processWithReplication_map (w : ReplicatedHTWorker) (request : ZPack) :
    (w.processWithReplication request).2.inner.store.map =
      ((Command.ofRequest request).run w.inner.store.map).2 := by
  rw [process_inner, HTWorker.process_map]

end ReplicatedHTWorker

/-! ## What is forwarded -/

/-- An INSERT, a REMOVE or an APPEND. -/
def ZPack.IsWrite (z : ZPack) : Prop := fromUtf8Lossy z.opcode ∈ [OPC_INSERT, OPC_REMOVE, OPC_APPEND]

instance : DecidablePred ZPack.IsWrite := fun z =>
  inferInstanceAs (Decidable (fromUtf8Lossy z.opcode ∈ [OPC_INSERT, OPC_REMOVE, OPC_APPEND]))

namespace Command

def IsWrite : Command → Prop
  | insert _ _ | remove _ | append _ _ => True
  | emptyKey | lookup _ | compareSwap _ _ _ | stateChangeCallback _ _ _ | unrecognized => False

/-- A request beside its command, by the opcodes that a task looks at. -/
inductive Asks (request : ZPack) : Command → Prop
  | emptyKey (hkey : fromUtf8Lossy request.key = "") : Asks request .emptyKey
  | insert (hkey : fromUtf8Lossy request.key ≠ "") (hop : fromUtf8Lossy request.opcode = OPC_INSERT) :
    Asks request (.insert (fromUtf8Lossy request.key) (fromUtf8Lossy request.val))
  | remove (hkey : fromUtf8Lossy request.key ≠ "") (hop : fromUtf8Lossy request.opcode = OPC_REMOVE) :
    Asks request (.remove (fromUtf8Lossy request.key))
  | append (hkey : fromUtf8Lossy request.key ≠ "") (hop : fromUtf8Lossy request.opcode = OPC_APPEND) :
    Asks request (.append (fromUtf8Lossy request.key) (fromUtf8Lossy request.val))
  | other {command : Command} (hop : ¬request.IsWrite) (h : ¬command.IsWrite) : Asks request command

theorem asks_ofRequest (request : ZPack) : Asks request (ofRequest request) := by
  by_cases hkey : fromUtf8Lossy request.key = ""
  · rw [ofRequest_emptyKey hkey]
    exact .emptyKey hkey
  by_cases hinsert : fromUtf8Lossy request.opcode = OPC_INSERT
  · rw [ofRequest_insert hkey hinsert]
    exact .insert hkey hinsert
  by_cases hremove : fromUtf8Lossy request.opcode = OPC_REMOVE
  · rw [ofRequest_remove hkey hremove]
    exact .remove hkey hremove
  by_cases happend : fromUtf8Lossy request.opcode = OPC_APPEND
  · rw [ofRequest_append hkey happend]
    exact .append hkey happend
  apply Asks.other
  · simp only [ZPack.IsWrite, List.mem_cons, List.not_mem_nil, or_false]
    rintro (h | h | h)
    · exact hinsert h
    · exact hremove h
    · exact happend h
  · unfold ofRequest
    simp only [hkey, hinsert, hremove, happend, ↓reduceIte]
    repeat' split
    all_goals exact id

theorem isWrite_iff (request : ZPack) :
    (ofRequest request).IsWrite ↔ request.IsWrite ∧ fromUtf8Lossy request.key ≠ "" := by
  have hasks := asks_ofRequest request
  generalize ofRequest request = command at hasks ⊢
  cases hasks with
  | emptyKey hkey => exact iff_of_false id fun h => h.2 hkey
  | insert hkey hop | remove hkey hop | append hkey hop =>
    refine iff_of_true trivial ⟨?_, hkey⟩
    rw [ZPack.IsWrite, hop]
    decide
  | other hop h => exact iff_of_false h fun h => hop h.1

/-- The message a command is forwarded as, `val` being the value of its request: an INSERT and an
APPEND as they came, a REMOVE if there was something to remove, and nothing else. -/
def forwarded (map : Table) (val : Bytes) : Command → Option ZPack
  | insert key _ => some { opcode := utf8Bytes OPC_INSERT, key := utf8Bytes key, val }
  | append key _ => some { opcode := utf8Bytes OPC_APPEND, key := utf8Bytes key, val }
  | remove key =>
    match map.lookup key with
    | some _ => some { opcode := utf8Bytes OPC_REMOVE, key := utf8Bytes key }
    | none => none
  | emptyKey | lookup _ | compareSwap _ _ _ | stateChangeCallback _ _ _ | unrecognized => none

theorem forwarded_eq_none {command : Command} (h : ¬command.IsWrite) (map : Table) (val : Bytes) :
    command.forwarded map val = none := by
  cases command with
  | insert | remove | append => exact absurd trivial h
  | emptyKey | lookup | compareSwap | stateChangeCallback | unrecognized => rfl

/-- A command with nothing to forward: no INSERT, no APPEND and no REMOVE of a key that is there. -/
def Unforwarded (map : Table) : Command → Prop
  | insert _ _ | append _ _ => False
  | remove key => map.lookup key = none
  | emptyKey | lookup _ | compareSwap _ _ _ | stateChangeCallback _ _ _ | unrecognized => True

theorem forwarded_eq_none_iff {command : Command} {map : Table} (val : Bytes) :
    command.forwarded map val = none ↔ command.Unforwarded map := by
  cases command with
  | remove key =>
    simp only [forwarded, Unforwarded]
    cases map.lookup key <;> simp
  | insert | append => simp [forwarded, Unforwarded]
  | emptyKey | lookup | compareSwap | stateChangeCallback | unrecognized => exact iff_of_true rfl trivial

/-- A write is answered 000 where it is forwarded. -/
theorem lease_of_isWrite {command : Command} (h : command.IsWrite) (map : Table) (val : Bytes) :
    (command.run map).1.lease = if (command.forwarded map val).isSome then REC_SUCC else REC_NONEXISTKEY := by
  cases command with
  | insert | append => rfl
  | remove key =>
    cases hl : map.lookup key <;> simp [run, forwarded, hl]
  | emptyKey | lookup | compareSwap | stateChangeCallback | unrecognized => exact absurd h id

end Command

theorem acknowledges_toZPack (reply : Reply) (request : ZPack) :
    acknowledges (reply.toZPack request) = REC_SUCC.toList.isPrefixOf reply.lease.toList := by
  simp only [acknowledges, Reply.toZPack, fromUtf8Lossy_utf8Bytes]

theorem Command.acknowledges_write {command : Command} (h : command.IsWrite) (map : Table) (request : ZPack) :
    acknowledges ((command.run map).1.toZPack request) = (command.forwarded map request.val).isSome := by
  rw [acknowledges_toZPack, command.lease_of_isWrite h map request.val]
  cases (command.forwarded map request.val).isSome <;> decide

namespace ReplicatedHTWorker

/-- The task a request spawns, by its command. -/
theorem task_eq (w : ReplicatedHTWorker) (request : ZPack) :
    (w.processWithReplication request).1.2 =
      if acknowledges (w.inner.process request).1 = true ∧ fromUtf8Lossy request.key ≠ "" then
        some { opcode := fromUtf8Lossy request.opcode, key := fromUtf8Lossy request.key, val := request.val }
      else none := by
  unfold processWithReplication
  simp only
  by_cases hack : acknowledges (w.inner.process request).1 = false
  · simp [hack]
  · rw [if_neg hack]
    by_cases hkey : fromUtf8Lossy request.key = ""
    · simp [hkey]
    · simp [hkey, Bool.eq_true_of_not_eq_false hack]

/-- A write spawns a task where it is forwarded. -/
theorem task_of_isWrite (w : ReplicatedHTWorker) {request : ZPack} (h : (Command.ofRequest request).IsWrite) :
    (w.processWithReplication request).1.2 =
      ((Command.ofRequest request).forwarded w.inner.store.map request.val).map fun _ =>
        { opcode := fromUtf8Lossy request.opcode, key := fromUtf8Lossy request.key, val := request.val } := by
  have hkey := ((Command.isWrite_iff request).1 h).2
  rw [task_eq, HTWorker.process_answer, Command.acknowledges_write h]
  cases (Command.ofRequest request).forwarded w.inner.store.map request.val with
  | none => rw [if_neg fun hspawn => absurd hspawn.1 (by decide), Option.map_none]
  | some z => rw [if_pos ⟨rfl, hkey⟩, Option.map_some]

/-- The task of any other request is of no use. -/
theorem task_of_not_isWrite {w : ReplicatedHTWorker} {request : ZPack} (h : ¬(Command.ofRequest request).IsWrite)
    {task : ReplicationTask} (htask : (w.processWithReplication request).1.2 = some task) :
    task.opcode ∉ [OPC_INSERT, OPC_REMOVE, OPC_APPEND] := by
  rw [task_eq] at htask
  split at htask
  · next hspawn =>
    obtain rfl := Option.some.inj htask
    have hasks := Command.asks_ofRequest request
    generalize Command.ofRequest request = command at h hasks
    cases hasks with
    | emptyKey hkey => exact absurd hkey hspawn.2
    | insert | remove | append => exact absurd trivial h
    | other hop _ => exact hop
  · cases htask

end ReplicatedHTWorker

theorem ReplicationTask.messages_eq_nil {task : ReplicationTask}
    (h : task.opcode ∉ [OPC_INSERT, OPC_REMOVE, OPC_APPEND]) (r : ReplicationManager) : task.messages r = [] := by
  simp only [List.mem_cons, List.not_mem_nil, or_false, not_or] at h
  simp only [messages, h, ↓reduceIte]

/-- A task for a forwarded request sends the message. -/
theorem ReplicationTask.messages_of_forwarded {request z : ZPack} {map : Table}
    (h : (Command.ofRequest request).forwarded map request.val = some z) (r : ReplicationManager) :
    ReplicationTask.messages r
        { opcode := fromUtf8Lossy request.opcode, key := fromUtf8Lossy request.key, val := request.val } =
      r.replicate (fromUtf8Lossy request.key) z := by
  have hasks := Command.asks_ofRequest request
  generalize Command.ofRequest request = command at h hasks
  cases hasks with
  | emptyKey => cases h
  | insert _ hop =>
    obtain rfl := Option.some.inj h
    rw [hop]
    rfl
  | remove _ hop =>
    simp only [Command.forwarded] at h
    split at h
    · obtain rfl := Option.some.inj h
      rw [hop]
      rfl
    · cases h
  | append _ hop =>
    obtain rfl := Option.some.inj h
    rw [hop]
    rfl
  | other _ hother =>
    rw [Command.forwarded_eq_none hother] at h
    cases h

/-- A request is forwarded as its command says, to the replica nodes of its key. -/
theorem ReplicatedHTWorker.sent_eq (w : ReplicatedHTWorker) (request : ZPack) :
    w.sent request =
      ((Command.ofRequest request).forwarded w.inner.store.map request.val).elim []
        (w.replication.replicate (fromUtf8Lossy request.key)) := by
  unfold sent
  by_cases hwrite : (Command.ofRequest request).IsWrite
  · rw [w.task_of_isWrite hwrite]
    cases hz : (Command.ofRequest request).forwarded w.inner.store.map request.val with
    | none => rfl
    | some z => exact ReplicationTask.messages_of_forwarded hz w.replication
  · rw [Command.forwarded_eq_none hwrite]
    cases htask : (w.processWithReplication request).1.2 with
    | none => rfl
    | some task => exact ReplicationTask.messages_eq_nil (task_of_not_isWrite hwrite htask) w.replication

/-- The value of an INSERT or an APPEND is that of its request. -/
theorem Command.value_ofRequest {request : ZPack} {key value : String}
    (h : ofRequest request = insert key value ∨ ofRequest request = append key value) :
    value = fromUtf8Lossy request.val := by
  unfold ofRequest at h
  simp only at h
  repeat' split at h
  all_goals rcases h with h | h <;> first
    | exact (Command.insert.inj h).2.symm
    | exact (Command.append.inj h).2.symm
    | cases h

theorem Command.key_ne_empty {request : ZPack} {key : String} (h : (ofRequest request).key = some key) : key ≠ "" := by
  rintro rfl
  have hempty := (key_ofRequest h).symm
  simp only [ofRequest, hempty, ↓reduceIte] at h
  cases h

/-- A forwarded message asks a replica for what the request asked the primary for. -/
theorem Command.ofRequest_forwarded {request z : ZPack} {map : Table}
    (h : (ofRequest request).forwarded map request.val = some z) : ofRequest z = ofRequest request := by
  cases hc : ofRequest request with
  | insert key value =>
    have hkey : key ≠ "" := key_ne_empty (by rw [hc]; rfl)
    rw [hc] at h
    obtain rfl := Option.some.inj h
    rw [command_insert hkey, ← value_ofRequest (.inl hc)]
  | append key value =>
    have hkey : key ≠ "" := key_ne_empty (by rw [hc]; rfl)
    rw [hc] at h
    obtain rfl := Option.some.inj h
    rw [command_append hkey, ← value_ofRequest (.inr hc)]
  | remove key =>
    have hkey : key ≠ "" := key_ne_empty (by rw [hc]; rfl)
    rw [hc] at h
    simp only [forwarded] at h
    split at h
    · obtain rfl := Option.some.inj h
      exact command_remove hkey
    · cases h
  | emptyKey | lookup _ | compareSwap _ _ _ | stateChangeCallback _ _ _ | unrecognized =>
    rw [hc] at h
    cases h

end Zht
