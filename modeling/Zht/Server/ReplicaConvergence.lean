/-
A replica that the spawned tasks keep up to date in their own time: the primary processes a list of
INSERTs, REMOVEs and APPENDs, each acknowledged write spawns a task, and the tasks send their messages
under some schedule. Once all of them are delivered the replica holds the primary's values under every
schedule exactly when, for each key it is a node of, the writes that took effect commute, and none of
them is an APPEND if the replica is listed more than once (`replicas_converge_iff`).
-/
import Zht.Lib.Interleaving
import Zht.Server.ReplicaWrites

namespace Zht

open Lib Lib.Utf8 Lib.Interleaving

/-! ## The writes that take effect -/

namespace Write

/-- The writes but for the removals where there is nothing to remove. -/
def effective (current : Option String) : List Write → List Write
  | [] => []
  | w :: ws =>
    if w = remove ∧ current = none then effective current ws else w :: effective (w.apply current) ws

theorem effective_cons (current : Option String) (w : Write) (ws : List Write) :
    effective current (w :: ws) =
      if w = remove ∧ current = none then effective current ws else w :: effective (w.apply current) ws := rfl

theorem applyAll_effective (current : Option String) (ws : List Write) :
    applyAll current (effective current ws) = applyAll current ws := by
  induction ws generalizing current with
  | nil => rfl
  | cons w ws ih =>
    rw [effective_cons]
    by_cases hidle : w = remove ∧ current = none
    · obtain ⟨rfl, rfl⟩ := hidle
      rw [if_pos ⟨rfl, rfl⟩, ih]
      rfl
    · rw [if_neg hidle]
      exact ih (w.apply current)

end Write

/-! ## The tasks of a run -/

/-- What a task asks a replica to do to the value under `k`. -/
def ReplicationTask.writeOn (k : String) (task : ReplicationTask) : Option Write :=
  if task.key = k then
    if task.opcode = OPC_INSERT then some (.insert (fromUtf8Lossy task.val))
    else if task.opcode = OPC_REMOVE then some .remove
    else if task.opcode = OPC_APPEND then some (.append (fromUtf8Lossy task.val))
    else none
  else none

theorem ReplicationTask.writeOn_eq_none {task : ReplicationTask}
    (h : task.opcode ∉ [OPC_INSERT, OPC_REMOVE, OPC_APPEND]) (k : String) : task.writeOn k = none := by
  simp only [List.mem_cons, List.not_mem_nil, or_false, not_or] at h
  simp only [writeOn, h, ↓reduceIte, ite_self]

/-- A task sends its key's nodes one and the same message, or nothing. -/
theorem ReplicationTask.messages_cases (r : ReplicationManager) {task : ReplicationTask} (hkey : task.key ≠ "") :
    (task.messages r = [] ∧ ∀ k, task.writeOn k = none) ∨
      ∃ z, task.messages r = r.replicate task.key z ∧ (Command.ofRequest z).Plain ∧
        ∀ k, (Command.ofRequest z).writeOn k = task.writeOn k := by
  unfold messages writeOn
  by_cases hinsert : task.opcode = OPC_INSERT
  · right
    refine ⟨{ opcode := utf8Bytes OPC_INSERT, key := utf8Bytes task.key, val := task.val }, if_pos hinsert, ?_⟩
    rw [command_insert hkey]
    exact ⟨trivial, fun k => by simp only [Command.writeOn, hinsert, ↓reduceIte]⟩
  by_cases hremove : task.opcode = OPC_REMOVE
  · right
    refine ⟨{ opcode := utf8Bytes OPC_REMOVE, key := utf8Bytes task.key }, ?_, ?_⟩
    · rw [if_neg hinsert, if_pos hremove]
      rfl
    · rw [command_remove hkey]
      have hne : OPC_REMOVE ≠ OPC_INSERT := by decide
      exact ⟨trivial, fun k => by simp only [Command.writeOn, hremove, hne, ↓reduceIte]⟩
  by_cases happend : task.opcode = OPC_APPEND
  · right
    refine ⟨{ opcode := utf8Bytes OPC_APPEND, key := utf8Bytes task.key, val := task.val }, ?_, ?_⟩
    · rw [if_neg hinsert, if_neg hremove, if_pos happend]
      rfl
    · rw [command_append hkey]
      have hne : OPC_APPEND ≠ OPC_INSERT ∧ OPC_APPEND ≠ OPC_REMOVE := by decide
      exact ⟨trivial, fun k => by simp only [Command.writeOn, happend, hne.1, hne.2, ↓reduceIte]⟩
  have hnone : task.opcode ∉ [OPC_INSERT, OPC_REMOVE, OPC_APPEND] := by
    simp [hinsert, hremove, happend]
  exact .inl ⟨messages_eq_nil hnone r, writeOn_eq_none hnone⟩

namespace ReplicatedHTWorker

/-- The tasks that a run of requests spawns, in the order it spawns them. -/
def spawned (w : ReplicatedHTWorker) (requests : List ZPack) : List ReplicationTask :=
  (Machine.outputs processWithReplication w requests).filterMap Prod.snd

theorem spawned_cons (w : ReplicatedHTWorker) (request : ZPack) (requests : List ZPack) :
    w.spawned (request :: requests) =
      (w.processWithReplication request).1.2.toList ++ (w.processWithReplication request).2.spawned requests := by
  unfold spawned
  rw [Machine.outputs_cons, List.filterMap_cons]
  cases (w.processWithReplication request).1.2 <;> rfl

/-- Only a request with a key spawns a task. -/
theorem key_of_spawned {w : ReplicatedHTWorker} {requests : List ZPack} {task : ReplicationTask}
    (h : task ∈ w.spawned requests) : task.key ≠ "" := by
  induction requests generalizing w with
  | nil => cases h
  | cons request requests ih =>
    rw [spawned_cons] at h
    rcases List.mem_append.1 h with h | h
    · rw [task_eq, Option.mem_toList] at h
      split at h
      · next hspawn =>
        obtain rfl := Option.some.inj h
        exact hspawn.2
      · cases h
    · exact ih h

/-- The task of a request asks a replica for what the request asked for, unless that was to remove an
absent key. -/
theorem task_writeOn (w : ReplicatedHTWorker) (request : ZPack) (k : String) :
    (w.processWithReplication request).1.2.bind (·.writeOn k) =
      if (Command.ofRequest request).writeOn k = some .remove ∧ w.inner.store.map.lookup k = none then none
      else (Command.ofRequest request).writeOn k := by
  by_cases hwrite : (Command.ofRequest request).IsWrite
  · rw [w.task_of_isWrite hwrite]
    have hasks := Command.asks_ofRequest request
    generalize Command.ofRequest request = command at hwrite hasks ⊢
    cases hasks with
    | emptyKey => exact absurd hwrite id
    | insert _ hop | append _ hop =>
      have hne : OPC_APPEND ≠ OPC_INSERT ∧ OPC_APPEND ≠ OPC_REMOVE := by decide
      simp [Command.forwarded, ReplicationTask.writeOn, Command.writeOn, hop, hne]
    | remove _ hop =>
      have hne : OPC_REMOVE ≠ OPC_INSERT := by decide
      by_cases hk : fromUtf8Lossy request.key = k
      · subst hk
        cases hl : w.inner.store.map.lookup (fromUtf8Lossy request.key) <;>
          simp [Command.forwarded, ReplicationTask.writeOn, Command.writeOn, hop, hne, hl]
      · cases hl : w.inner.store.map.lookup (fromUtf8Lossy request.key) <;>
          simp [Command.forwarded, ReplicationTask.writeOn, Command.writeOn, hk, hl]
    | other _ hother => exact absurd hwrite hother
  · rw [Command.writeOn_eq_none hwrite, ite_self]
    cases htask : (w.processWithReplication request).1.2 with
    | none => rfl
    | some task => exact ReplicationTask.writeOn_eq_none (task_of_not_isWrite hwrite htask) k

/-- What the tasks ask for is what took effect. -/
theorem spawned_writes (w : ReplicatedHTWorker) {requests : List ZPack}
    (h : ∀ z ∈ requests, (Command.ofRequest z).Plain) (k : String) :
    (w.spawned requests).filterMap (·.writeOn k) =
      Write.effective (w.inner.store.map.lookup k) (writesOn k requests) := by
  induction requests generalizing w with
  | nil => rfl
  | cons request requests ih =>
    have htask : ((w.processWithReplication request).1.2.toList.filterMap (·.writeOn k)) =
        ((w.processWithReplication request).1.2.bind (·.writeOn k)).toList := by
      cases (w.processWithReplication request).1.2 with
      | none => rfl
      | some task =>
        show (List.filterMap _ [task]) = (task.writeOn k).toList
        cases hw : task.writeOn k <;> simp [hw]
    rw [spawned_cons, writesOn_cons, List.filterMap_append, ih _ fun z hz => h z (List.mem_cons_of_mem _ hz),
      processWithReplication_map, Command.run_plain (h request List.mem_cons_self), htask, task_writeOn]
    cases (Command.ofRequest request).writeOn k with
    | none => rfl
    | some write =>
      rw [Option.toList_some, List.singleton_append, Write.effective_cons, Option.elim_some]
      by_cases hidle : write = .remove ∧ w.inner.store.map.lookup k = none
      · obtain ⟨rfl, hnone⟩ := hidle
        rw [if_pos ⟨rfl, hnone⟩, if_pos ⟨rfl, hnone⟩, hnone]
        rfl
      · rw [if_neg fun e => hidle ⟨Option.some.inj e.1, e.2⟩, if_neg hidle]
        rfl

end ReplicatedHTWorker

/-! ## What the replica is sent -/

theorem plain_messagesTo (r : ReplicationManager) (host : HostEntity) {tasks : List ReplicationTask}
    (h : ∀ task ∈ tasks, task.key ≠ "") {sent : List Outgoing}
    (hsent : sent.Perm (tasks.map (·.messages r)).flatten) :
    ∀ z ∈ messagesTo host sent, (Command.ofRequest z).Plain := by
  intro z hz
  obtain ⟨m, hm, hto⟩ := List.mem_filterMap.1 hz
  obtain ⟨_, htask, hm⟩ := List.mem_flatten.1 (hsent.subset hm)
  obtain ⟨task, hmem, rfl⟩ := List.mem_map.1 htask
  rcases task.messages_cases r (h task hmem) with ⟨hnone, -⟩ | ⟨y, hmessages, hplain, -⟩
  · rw [hnone] at hm
    cases hm
  · rw [hmessages] at hm
    unfold ReplicationManager.replicate at hm
    split at hm
    · cases hm
    · obtain ⟨node, -, rfl⟩ := List.mem_map.1 hm
      split at hto
      · obtain rfl := Option.some.inj hto
        exact hplain
      · cases hto

/-- Sent one task after the other, the replica's messages are the tasks' writes, each as often as the
replica is listed. -/
theorem writesOn_tasks {r : ReplicationManager} (hon : r.isReplicationEnabled = true) (host : HostEntity)
    {tasks : List ReplicationTask} (h : ∀ task ∈ tasks, task.key ≠ "") (k : String) :
    writesOn k (messagesTo host (tasks.map (·.messages r)).flatten) =
      Write.copies (r.timesListed host k) (tasks.filterMap (·.writeOn k)) := by
  induction tasks with
  | nil => rfl
  | cons task tasks ih =>
    have hrest := ih fun t ht => h t (List.mem_cons_of_mem _ ht)
    have hhead : writesOn k (messagesTo host (task.messages r)) =
        Write.copies (r.timesListed host k) (task.writeOn k).toList := by
      rcases task.messages_cases r (h task List.mem_cons_self) with ⟨hnone, hwrite⟩ | ⟨z, hmessages, -, hwrite⟩
      · rw [hnone, hwrite]
        rfl
      · rw [hmessages, messagesTo_replicate hon, writesOn_replicate, hwrite]
        by_cases hk : task.key = k
        · rw [hk]
        · have hnone : task.writeOn k = none := if_neg hk
          rw [hnone]
          rfl
    rw [List.map_cons, List.flatten_cons, messagesTo_append, writesOn_append, hhead, hrest]
    cases hw : task.writeOn k with
    | none =>
      rw [List.filterMap_cons_none hw]
      rfl
    | some write =>
      rw [List.filterMap_cons_some hw]
      exact (Write.copies_append _ [write] _).symm

/-! ## Convergence -/

namespace ReplicatedHTWorker

/-- Whatever the schedule of the tasks, the replica on `host` ends with the primary's values under the
keys it is a node of. -/
def Converges (host : HostEntity) (w : ReplicatedHTWorker) (replica : HTWorker) (requests : List ZPack) : Prop :=
  ∀ sent, Interleaves ((w.spawned requests).map (·.messages w.replication)) sent →
    ∀ k, host ∈ w.replication.getReplicaNodes k →
      (Machine.after HTWorker.process replica (messagesTo host sent)).store.map.lookup k =
        (Machine.after processWithReplication w requests).inner.store.map.lookup k

theorem after_inner (w : ReplicatedHTWorker) (requests : List ZPack) :
    (Machine.after processWithReplication w requests).inner = Machine.after HTWorker.process w.inner requests := by
  induction requests generalizing w with
  | nil => rfl
  | cons request requests ih => rw [Machine.after_cons, ih, process_inner, Machine.after_cons]

variable {w : ReplicatedHTWorker} {host : HostEntity} {replica : HTWorker} {requests : List ZPack}

/-- What the replica holds under a key is what the writes leave, in the order it gets them. -/
theorem replica_lookup (hsame : replica.store.map = w.inner.store.map) {sent : List Outgoing}
    (hsent : sent.Perm ((w.spawned requests).map (·.messages w.replication)).flatten) (k : String) :
    (Machine.after HTWorker.process replica (messagesTo host sent)).store.map.lookup k =
      Write.applyAll (w.inner.store.map.lookup k) (writesOn k (messagesTo host sent)) := by
  rw [after_lookup replica (plain_messagesTo w.replication host (fun _ ht => key_of_spawned ht) hsent), hsame]

/-- It converges exactly when, for each of its keys, the order of the writes that took effect does not
matter. -/
theorem converges_iff_orderFree (hon : w.replication.isReplicationEnabled = true)
    (hsame : replica.store.map = w.inner.store.map) (hplain : ∀ z ∈ requests, (Command.ofRequest z).Plain) :
    w.Converges host replica requests ↔
      ∀ k, host ∈ w.replication.getReplicaNodes k →
        Write.OrderFree (w.replication.timesListed host k)
          (Write.effective (w.inner.store.map.lookup k) (writesOn k requests)) (w.inner.store.map.lookup k) := by
  have hkeys : ∀ task ∈ w.spawned requests, task.key ≠ "" := fun _ => key_of_spawned
  have hprimary : ∀ k, (Machine.after processWithReplication w requests).inner.store.map.lookup k =
      Write.applyAll (w.inner.store.map.lookup k)
        (Write.effective (w.inner.store.map.lookup k) (writesOn k requests)) := by
    intro k
    rw [after_inner, after_lookup w.inner hplain, Write.applyAll_effective]
  constructor
  · -- an order of the writes is an order of the tasks, which may run one after the other
    intro h k hlisted order horder
    rw [← spawned_writes w hplain] at horder
    obtain ⟨tasks, hperm, rfl⟩ := exists_perm_filterMap horder
    have hschedule := interleaves_flatten (hperm.map (·.messages w.replication))
    have hend := h _ hschedule k hlisted
    rw [replica_lookup hsame hschedule.perm, hprimary,
      writesOn_tasks hon host fun task ht => hkeys task (hperm.subset ht)] at hend
    exact hend
  · intro h sent hsent k hlisted
    have hpos := ReplicationManager.timesListed_pos.2 hlisted
    obtain ⟨hcomm, hgrow⟩ := (Write.orderFree_iff hpos _ _).1 (h k hlisted)
    rw [replica_lookup hsame hsent.perm, hprimary]
    refine Write.applyAll_of_perm hpos hcomm hgrow ?_ _
    rw [← spawned_writes w hplain, ← writesOn_tasks hon host hkeys]
    exact (hsent.perm.filterMap _).filterMap _

end ReplicatedHTWorker

/-- A replica that starts with the primary's table ends with the primary's values under every schedule
exactly when, for each key it is a node of, any two of the writes that took effect commute, and none of
them is an APPEND if the key's nodes list the replica more than once. -/
theorem replicas_converge_iff (host : HostEntity) (w : ReplicatedHTWorker)
    (hon : w.replication.isReplicationEnabled = true) (replica : HTWorker)
    (hsame : replica.store.map = w.inner.store.map) (requests : List ZPack) (hwrites : ∀ z ∈ requests, z.IsWrite) :
    w.Converges host replica requests ↔
      ∀ k, host ∈ w.replication.getReplicaNodes k →
        let ws := Write.effective (w.inner.store.map.lookup k) (writesOn k requests)
        ws.Pairwise Write.Commute ∧ (w.replication.timesListed host k ≠ 1 → ∀ write ∈ ws, ¬write.Grows) := by
  rw [ReplicatedHTWorker.converges_iff_orderFree hon hsame fun z hz => Command.plain_of_isWrite (hwrites z hz)]
  refine forall_congr' fun k => forall_congr' fun hlisted => ?_
  exact Write.orderFree_iff (ReplicationManager.timesListed_pos.2 hlisted) _ _

/-- Two APPENDs of one value, in whatever order. -/
theorem replicas_converge_two :
    (primaryBeside 1).Converges ⟨"r", 1⟩ (HTWorker.new NoVoHT.new)
      [{ opcode := utf8Bytes OPC_APPEND, key := utf8Bytes "k", val := utf8Bytes "v" },
        { opcode := utf8Bytes OPC_APPEND, key := utf8Bytes "k", val := utf8Bytes "v" }] := by
  refine (replicas_converge_iff ⟨"r", 1⟩ (primaryBeside 1) (by decide) (HTWorker.new NoVoHT.new) rfl _ ?_).2 ?_
  · intro z hz
    rcases List.mem_cons.1 hz with rfl | hz
    · decide
    · rw [List.mem_singleton.1 hz]
      decide
  · intro k hlisted
    have hpos := ReplicationManager.timesListed_pos.2 hlisted
    have hlength : ((primaryBeside 1).replication.getReplicaNodes k).length = 1 :=
      (primaryBeside 1).replication.length_getReplicaNodes k
    have hone : (primaryBeside 1).replication.timesListed ⟨"r", 1⟩ k = 1 := by
      have hle : (primaryBeside 1).replication.timesListed ⟨"r", 1⟩ k ≤ 1 := hlength ▸ List.count_le_length
      omega
    refine ⟨?_, fun hmany => absurd hone hmany⟩
    simp only [writesOn_cons, command_append (show "k" ≠ "" by decide), Command.writeOn]
    by_cases hk : "k" = k
    · subst hk
      decide
    · simp only [if_neg hk]
      exact List.Pairwise.nil

/-- Two INSERTs under one key, whose tasks run last to first. -/
theorem replica_diverges :
    ¬(primaryBeside 1).Converges ⟨"r", 1⟩ (HTWorker.new NoVoHT.new)
      [{ opcode := utf8Bytes OPC_INSERT, key := utf8Bytes "k", val := utf8Bytes "v" },
        { opcode := utf8Bytes OPC_INSERT, key := utf8Bytes "k", val := utf8Bytes "w" }] := by
  intro h
  have hend := h _ (interleaves_flatten (List.reverse_perm _)) "k" (by decide)
  exact absurd hend (by decide)

end Zht
