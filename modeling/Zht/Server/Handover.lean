/-
A cluster of servers that migrate. Each node serves clients from its worker's table, and any number of
calls of `check_and_migrate` work through the table of its server, two of them at once where both found the
flag down; what they send travels as requests to other nodes' workers and may be lost, delayed or repeated on
the way, while the members' tables change under any calls. A check removes a key only behind an answer to its
INSERT, so as long as every answer is taken for the request it belongs to, no key that clients leave alone is
lost and none gets a value that no node had for it (`handover_conserves`).
-/
import Zht.Server.HealthChecker
import Zht.Server.MigrationRace

namespace Zht

open Lib Lib.Utf8

/-! ## The cluster -/

/-- Where a call of `check_and_migrate` stands. -/
inductive CheckPhase
  | entered
  /-- It saw that no check was running; it lists the keys and says that one is running only then, so two calls
  may both come this far. -/
  | passed
  | running (task : MigrationTask)
  deriving DecidableEq, Repr

/-- A server with the calls of `check_and_migrate` made on it. -/
structure ClusterNode where
  server : ZHTServer
  checks : List CheckPhase

/-- What becomes of one exchange of a migration. Up to two attempts are made at it, and a request given up
may still arrive; `copies` of it stay on their way. -/
inductive Fate
  /-- The target processes the request and its answer comes back. -/
  | answered (copies : Nat)
  /-- The answer to an earlier request, left on the connection, is taken for this one's. -/
  | mistaken (copies : Nat)
  | failed (copies : Nat)
  deriving DecidableEq, Repr

structure ServerCluster where
  nodes : HostEntity → ClusterNode
  inFlight : List Outgoing

inductive HandoverEvent
  | task (n : HostEntity) (t : ZHTServer.ServerTask)
  | member (n : HostEntity) (call : MemberCall)
  | beginCheck (n : HostEntity)
  /-- The `i`-th check of the node takes its next step. -/
  | check (n : HostEntity) (i : Nat) (ords : MigrationOrders) (fate : Fate)
  | arrive (i : Nat)
  | lose (i : Nat)

/-- What a check does next: something at its own node, or an exchange and the step after it. -/
inductive CheckMove
  | stays (phase : CheckPhase) (server : ZHTServer)
  | sends (target : HostEntity) (key value : String) (onOk onError : CheckPhase)

def ZHTServer.setMigrating (s : ZHTServer) (migrating : Bool) : ZHTServer :=
  { s with migration := { s.migration with migrating } }

/-- The first failure ends the group, and its keys stay. -/
def MigrationTask.giveUp : MigrationTask → MigrationTask
  | sending _ _ _ _ later => groups later
  | task => task

/-- The next step of `check_and_migrate`. -/
def CheckPhase.next (ords : MigrationOrders) (server : ZHTServer) : CheckPhase → CheckMove
  | entered =>
    if server.migration.migrationEnabled = false ∨ server.migration.migrating then .stays (running .finished) server
    else .stays passed server
  | passed =>
    match server.migration.groups ords server.store with
    | [] => .stays (running .finished) server
    | g :: later => .stays (running (.groups (g :: later))) (server.setMigrating true)
  | running task =>
    match task.next server.migration ords server.store with
    | .advance next => .stays (running next) (if task = .groups [] then server.setMigrating false else server)
    | .send target key value next => .sends target key value (running next) (running next.giveUp)
    | .remove _ key next => .stays (running next) { server with store := (server.store.remove key).2 }

namespace ServerCluster

def setNode (s : ServerCluster) (n : HostEntity) (node : ClusterNode) : ServerCluster :=
  { s with nodes := Function.update s.nodes n node }

def setServer (s : ServerCluster) (n : HostEntity) (server : ZHTServer) : ServerCluster :=
  s.setNode n { s.nodes n with server }

def setCheck (s : ServerCluster) (n : HostEntity) (i : Nat) (phase : CheckPhase) : ServerCluster :=
  s.setNode n { s.nodes n with checks := (s.nodes n).checks.set i phase }

def post (s : ServerCluster) (m : Outgoing) (copies : Nat) : ServerCluster :=
  { s with inFlight := s.inFlight ++ List.replicate copies m }

/-- The target's connection handler reads the request. -/
def receive (c : Codec) (s : ServerCluster) (m : Outgoing) : ServerCluster :=
  s.setServer m.1 ((s.nodes m.1).server.handleRequest c m.2).2

def move (c : Codec) (s : ServerCluster) (n : HostEntity) (i : Nat) (fate : Fate) : CheckMove → ServerCluster
  | .stays phase server => (s.setServer n server).setCheck n i phase
  | .sends target key value onOk onError =>
    let m : Outgoing := (target, migrationRequest key value)
    match fate with
    | .answered copies => ((s.post m copies).receive c m).setCheck n i onOk
    | .mistaken copies => (s.post m copies).setCheck n i onOk
    | .failed copies => (s.post m copies).setCheck n i onError

def step (c : Codec) (timeout : Nat) (s : ServerCluster) : HandoverEvent → Unit × ServerCluster
  | .task n t => ((), s.setServer n ((s.nodes n).server.runTask c timeout t).2)
  | .member n call => ((), s.setServer n ((s.nodes n).server.withMembership (call.exec (s.nodes n).server.membership)))
  | .beginCheck n => ((), s.setNode n { s.nodes n with checks := (s.nodes n).checks ++ [.entered] })
  | .check n i ords fate =>
    match (s.nodes n).checks[i]? with
    | none => ((), s)
    | some phase => ((), s.move c n i fate (phase.next ords (s.nodes n).server))
  | .arrive i =>
    match s.inFlight[i]? with
    | none => ((), s)
    | some m => ((), { s with inFlight := s.inFlight.eraseIdx i }.receive c m)
  | .lose i => ((), { s with inFlight := s.inFlight.eraseIdx i })

/-- What the node's server has of the key, beside its clients. -/
def stored (s : ServerCluster) (n : HostEntity) (k : String) : Option String :=
  (s.nodes n).server.store.map.lookup k

/-- What the node serves under the key. -/
def served (s : ServerCluster) (n : HostEntity) (k : String) : Option String :=
  (s.nodes n).server.worker.store.map.lookup k

/-- The node that the migration of `n` takes for the owner of the key. -/
def ownerOf (s : ServerCluster) (n : HostEntity) (k : String) : Option HostEntity :=
  ownerAmong k (s.nodes n).server.migration.membership.activeMembers

end ServerCluster

/-- No client writes to the key, and no answer is taken for another one. -/
def HandoverEvent.Spares (k : String) : HandoverEvent → Prop
  | task _ (.request z) => (Command.ofRequest z).Spares k
  | check _ _ _ (.mistaken _) => False
  | task _ _ | member _ _ | beginCheck _ | check _ _ _ _ | arrive _ | lose _ => True

/-! ## What the parts of an event touch -/

namespace ServerCluster

section Frames

variable (c : Codec) (s : ServerCluster) (n m : HostEntity) (k : String)

theorem nodes_setNode (node : ClusterNode) : (s.setNode n node).nodes m = if m = n then node else s.nodes m := by
  unfold setNode
  by_cases h : m = n
  · subst h
    simp only [Function.update_self, if_true]
  · simp only [Function.update_of_ne h, if_neg h]

theorem server_setServer (server : ZHTServer) :
    ((s.setServer n server).nodes m).server = if m = n then server else (s.nodes m).server := by
  unfold setServer
  rw [nodes_setNode]
  split <;> rfl

theorem checks_setServer (server : ZHTServer) : ((s.setServer n server).nodes m).checks = (s.nodes m).checks := by
  unfold setServer
  rw [nodes_setNode]
  split
  · next h => rw [h]
  · rfl

theorem server_setCheck (i : Nat) (phase : CheckPhase) :
    ((s.setCheck n i phase).nodes m).server = (s.nodes m).server := by
  unfold setCheck
  rw [nodes_setNode]
  split
  · next h => rw [h]
  · rfl

theorem checks_setCheck (i : Nat) (phase : CheckPhase) :
    ((s.setCheck n i phase).nodes m).checks =
      if m = n then (s.nodes n).checks.set i phase else (s.nodes m).checks := by
  unfold setCheck
  rw [nodes_setNode]
  split <;> rfl

/-- A message leaves what the servers keep beside their clients. -/
theorem stored_receive (msg : Outgoing) : (s.receive c msg).stored n k = s.stored n k := by
  unfold receive stored
  rw [server_setServer]
  split
  · next h => rw [h, ZHTServer.handleRequest_store]
  · rfl

theorem served_receive (msg : Outgoing) :
    (s.receive c msg).served n k =
      if n = msg.1 then ((Command.ofRequest msg.2).run (s.nodes msg.1).server.worker.store.map).2.lookup k
      else s.served n k := by
  unfold receive served
  rw [server_setServer]
  split
  · next h => exact congrArg (Finmap.lookup k) ((s.nodes msg.1).server.worker.process_map msg.2)
  · rfl

theorem served_receive_of_spares {msg : Outgoing} (h : (Command.ofRequest msg.2).Spares k) :
    (s.receive c msg).served n k = s.served n k := by
  rw [served_receive]
  split
  · next hn => rw [Command.run_spares h, hn, served]
  · rfl

end Frames

end ServerCluster

/-- A pair under another key does not touch this one. -/
theorem migrationRequest_spares {key k : String} (hne : key ≠ k) (value : String) :
    (Command.ofRequest (migrationRequest key value)).Spares k := by
  by_cases hkey : key = ""
  · have hempty : Command.ofRequest (migrationRequest key value) = .emptyKey :=
      Command.ofRequest_emptyKey (by rw [migrationRequest, fromUtf8Lossy_utf8Bytes, hkey])
    rw [hempty]
    exact trivial
  · rw [migrationRequest, command_insert hkey]
    exact hne

theorem command_migrationRequest {key : String} (hkey : key ≠ "") (value : String) :
    Command.ofRequest (migrationRequest key value) = .insert key value := by
  rw [migrationRequest, command_insert hkey, fromUtf8Lossy_utf8Bytes]

theorem ServerCluster.served_receive_pair (c : Codec) (s : ServerCluster) (n target : HostEntity) (key value : String)
    {k : String} (hk : k ≠ "") :
    (s.receive c (target, migrationRequest key value)).served n k =
      if n = target ∧ key = k then some value else s.served n k := by
  by_cases hkey : key = k
  · subst hkey
    rw [served_receive]
    by_cases hn : n = target
    · rw [if_pos hn, if_pos ⟨hn, rfl⟩]
      show ((Command.ofRequest (migrationRequest key value)).run _).2.lookup key = _
      rw [command_migrationRequest hk]
      exact Finmap.lookup_insert _
    · rw [if_neg hn, if_neg fun hc => hn hc.1]
  · have hspares : (Command.ofRequest (target, migrationRequest key value).2).Spares k :=
      migrationRequest_spares hkey value
    rw [served_receive_of_spares c s n k hspares, if_neg fun hc => hkey hc.2]

/-! ## What is kept of one key -/

/-- The key's group is one for a node that owns it. -/
def GroupsOwned (k : String) (owned : HostEntity → Prop) (groups : List (String × HostEntity × List String)) :
    Prop :=
  ∀ g ∈ groups, k ∈ g.2.2 → owned g.2.1

/-- A check with the key in hand is about to send it, or its target serves it, unless another check of the
node was faster; `stored` is what the node has of the key now, `first` what it had at first. -/
def MigrationTask.Sound (k : String) (owned held : HostEntity → Prop) (stored first : Option String) :
    MigrationTask → Prop
  | start | finished => True
  | groups later => GroupsOwned k owned later
  | sending target keys _ rest later =>
    (k ∈ keys → owned target ∧ (stored = none ∨ held target ∨ ∃ value, (k, value) ∈ rest)) ∧
      (∀ value, (k, value) ∈ rest → first = some value) ∧ GroupsOwned k owned later
  | removing target _ left later =>
    (k ∈ left → owned target ∧ (stored = none ∨ held target)) ∧ GroupsOwned k owned later

theorem MigrationTask.Sound.mono {k : String} {owned held held' : HostEntity → Prop}
    {stored stored' first : Option String} {task : MigrationTask} (h : task.Sound k owned held stored first)
    (hheld : ∀ n, held n → held' n) (hstored : stored = none → stored' = none) :
    task.Sound k owned held' stored' first := by
  cases task with
  | start => trivial
  | finished => trivial
  | groups later => exact h
  | sending target keys snapshot rest later =>
    obtain ⟨hkeys, hrest, hlater⟩ := h
    refine ⟨fun hk => ?_, hrest, hlater⟩
    obtain ⟨howned, hgone | hheld' | hleft⟩ := hkeys hk
    · exact ⟨howned, .inl (hstored hgone)⟩
    · exact ⟨howned, .inr (.inl (hheld _ hheld'))⟩
    · exact ⟨howned, .inr (.inr hleft)⟩
  | removing target snapshot left later =>
    obtain ⟨hleft, hlater⟩ := h
    refine ⟨fun hk => ?_, hlater⟩
    obtain ⟨howned, hgone | hheld'⟩ := hleft hk
    · exact ⟨howned, .inl (hstored hgone)⟩
    · exact ⟨howned, .inr (hheld _ hheld')⟩

/-- A call that has no keys yet is sound. -/
def CheckPhase.Sound (k : String) (owned held : HostEntity → Prop) (stored first : Option String) : CheckPhase → Prop
  | entered | passed => True
  | running task => task.Sound k owned held stored first

theorem CheckPhase.Sound.mono {k : String} {owned held held' : HostEntity → Prop}
    {stored stored' first : Option String} {phase : CheckPhase} (h : phase.Sound k owned held stored first)
    (hheld : ∀ n, held n → held' n) (hstored : stored = none → stored' = none) :
    phase.Sound k owned held' stored' first := by
  cases phase with
  | entered => trivial
  | passed => trivial
  | running task => exact MigrationTask.Sound.mono h hheld hstored

section Key

variable (k : String) (owned : HostEntity → HostEntity → Prop) (start : ServerCluster)

/-- The node served the value at first, or one that takes it for the key's owner had it. -/
def Origin (h : HostEntity) (value : String) : Prop :=
  start.served h k = some value ∨ ∃ n, owned n h ∧ start.stored n k = some value

/-- The node serves the key. -/
def Held (s : ServerCluster) (h : HostEntity) : Prop := s.served h k ≠ none

/-- Of the key, every node has what it had at first or has handed it over, and serves no value but one of
the first ones; `owned` relates a node to those it has taken for the key's owner. -/
structure Conserves (s : ServerCluster) : Prop where
  stored : ∀ n value, s.stored n k = some value → start.stored n k = some value
  kept : ∀ n value, start.stored n k = some value →
    s.stored n k = some value ∨ s.stored n k = none ∧ ∃ h, owned n h ∧ Held k s h
  served : ∀ h value, s.served h k = some value → Origin k owned start h value
  inFlight : ∀ m ∈ s.inFlight, ∃ key value, m.2 = migrationRequest key value ∧
    (key = k → Origin k owned start m.1 value)
  checks : ∀ n, ∀ phase ∈ (s.nodes n).checks, phase.Sound k (owned n) (Held k s) (s.stored n k) (start.stored n k)

end Key

namespace Conserves

variable {k : String} {owned : HostEntity → HostEntity → Prop} {start s s' : ServerCluster}

theorem of_quiet (hflight : start.inFlight = []) (hchecks : ∀ n, (start.nodes n).checks = []) :
    Conserves k owned start start where
  stored n value h := h
  kept n value h := .inl h
  served h value hv := .inl hv
  inFlight m hm := by
    rw [hflight] at hm
    cases hm
  checks n phase hphase := by
    rw [hchecks n] at hphase
    cases hphase

/-- What matters of a state are the key's values, the messages and the checks. -/
theorem congr (h : Conserves k owned start s) (hstored : ∀ n, s'.stored n k = s.stored n k)
    (hserved : ∀ n, s'.served n k = s.served n k) (hflight : ∀ m ∈ s'.inFlight, m ∈ s.inFlight)
    (hchecks : ∀ n, ∀ phase ∈ (s'.nodes n).checks, phase ∈ (s.nodes n).checks ∨ phase = .entered) :
    Conserves k owned start s' where
  stored n value hv := h.stored n value (hstored n ▸ hv)
  kept n value hv := by
    rcases h.kept n value hv with hkept | ⟨hgone, target, howned, hheld⟩
    · exact .inl ((hstored n).trans hkept)
    · refine .inr ⟨(hstored n).trans hgone, target, howned, ?_⟩
      unfold Held
      rwa [hserved]
  served n value hv := h.served n value (hserved n ▸ hv)
  inFlight m hm := h.inFlight m (hflight m hm)
  checks n phase hphase := by
    rcases hchecks n phase hphase with hold | rfl
    · refine (h.checks n phase hold).mono (fun m hheld => ?_) fun hgone => (hstored n).trans hgone
      unfold Held
      rwa [hserved]
    · trivial

/-- A pair reaches a node. -/
theorem receive (h : Conserves k owned start s) (hk : k ≠ "") (c : Codec) {target : HostEntity} {key value : String}
    (horigin : key = k → Origin k owned start target value) :
    Conserves k owned start (s.receive c (target, migrationRequest key value)) := by
  have hserved := fun n => s.served_receive_pair c n target key value hk
  have hheld : ∀ n, Held k s n → Held k (s.receive c (target, migrationRequest key value)) n := by
    intro n hn
    unfold Held
    rw [hserved]
    split
    · exact Option.some_ne_none _
    · exact hn
  constructor
  · intro n v hv
    rw [ServerCluster.stored_receive] at hv
    exact h.stored n v hv
  · intro n v hv
    rw [ServerCluster.stored_receive]
    rcases h.kept n v hv with hkept | ⟨hgone, m, howned, hm⟩
    · exact .inl hkept
    · exact .inr ⟨hgone, m, howned, hheld m hm⟩
  · intro n v hv
    rw [hserved] at hv
    split at hv
    · next hc =>
      obtain ⟨rfl, hkey⟩ := hc
      obtain rfl := Option.some.inj hv
      exact horigin hkey
    · exact h.served n v hv
  · intro m hm
    exact h.inFlight m hm
  · intro n phase hphase
    rw [ServerCluster.stored_receive]
    unfold ServerCluster.receive at hphase
    rw [ServerCluster.checks_setServer] at hphase
    exact (h.checks n phase hphase).mono hheld id

end Conserves

/-! ## The steps of a check -/

/-- A sound step of a check: it removes the key only where it was handed over or is gone, and sends it with its
value to an owner, behind which it is sound if the target then serves the key. -/
def MigrationMove.Sound (k : String) (owned held : HostEntity → Prop) (stored first : Option String) :
    MigrationMove → Prop
  | advance task => task.Sound k owned held stored first
  | send target key value task =>
    (key = k → owned target ∧ first = some value) ∧ task.giveUp.Sound k owned held stored first ∧
      ∀ held' : HostEntity → Prop, (∀ h, held h → held' h) → (key = k → held' target) →
        task.Sound k owned held' stored first
  | remove _ key task =>
    (k = key → stored = none ∨ ∃ h, owned h ∧ held h) ∧
      task.Sound k owned held (if k = key then none else stored) first

/-- The same, at a server. -/
def CheckMove.Sound (k : String) (owned held : HostEntity → Prop) (server : ZHTServer) (first : Option String) :
    CheckMove → Prop
  | stays phase server' =>
    let stored := server.store.map.lookup k
    let stored' := server'.store.map.lookup k
    server'.worker = server.worker ∧
      (stored' = stored ∨ stored' = none ∧ (stored = none ∨ ∃ h, owned h ∧ held h)) ∧
      phase.Sound k owned held stored' first
  | sends target key value onOk onError =>
    (key = k → owned target ∧ first = some value) ∧
      onError.Sound k owned held (server.store.map.lookup k) first ∧
      ∀ held' : HostEntity → Prop, (∀ h, held h → held' h) → (key = k → held' target) →
        onOk.Sound k owned held' (server.store.map.lookup k) first

theorem GroupsOwned.tail {k : String} {owned : HostEntity → Prop} {g : String × HostEntity × List String}
    {later : List (String × HostEntity × List String)} (h : GroupsOwned k owned (g :: later)) :
    GroupsOwned k owned later := by
  intro g' hg' hk
  exact h g' (List.mem_cons_of_mem _ hg') hk

section Next

variable {k : String} {owned held : HostEntity → Prop} {first : Option String}

theorem MigrationTask.Sound.next {task : MigrationTask} {store : NoVoHT}
    (h : task.Sound k owned held (store.map.lookup k) first) (m : MigrationManager) (ords : MigrationOrders)
    (howner : ∀ target, ownerAmong k m.membership.activeMembers = some target → owned target)
    (hfirst : ∀ value, store.map.lookup k = some value → first = some value) :
    (task.next m ords store).Sound k owned held (store.map.lookup k) first := by
  cases task with
  | start =>
    simp only [MigrationTask.next]
    split
    · trivial
    · intro g hg hk
      obtain ⟨value, hmoves⟩ := (MigrationManager.mem_group_keys hg).1 hk
      exact howner _ hmoves.owner
  | groups later =>
    cases later with
    | nil => trivial
    | cons g later =>
      obtain ⟨addr, target, keys⟩ := g
      simp only [MigrationTask.next]
      split
      · exact h.tail
      · refine ⟨fun hk => ⟨h _ List.mem_cons_self hk, ?_⟩, fun value hmem => ?_, h.tail⟩
        -- the snapshot has the key if the store has it
        · cases hv : store.map.lookup k with
          | none => exact .inl rfl
          | some value => exact .inr (.inr ⟨value, (ords.entries.mem _ _ _).2 hv⟩)
        · exact hfirst value ((ords.entries.mem _ _ _).1 hmem)
  | sending target keys snapshot rest later =>
    obtain ⟨hkeys, hrest, hlater⟩ := h
    cases rest with
    | nil =>
      refine ⟨fun hk => ?_, hlater⟩
      obtain ⟨howned, hgone | hheld | ⟨value, hmem⟩⟩ := hkeys hk
      · exact ⟨howned, .inl hgone⟩
      · exact ⟨howned, .inr hheld⟩
      · cases hmem
    | cons pair rest =>
      obtain ⟨key, value⟩ := pair
      have hrest' : ∀ v, (k, v) ∈ rest → first = some v := fun v hmem => hrest v (List.mem_cons_of_mem _ hmem)
      simp only [MigrationTask.next]
      split
      · next hskip =>
        refine ⟨fun hk => ?_, hrest', hlater⟩
        obtain ⟨howned, hgone | hheld | ⟨v, hmem⟩⟩ := hkeys hk
        · exact ⟨howned, .inl hgone⟩
        · exact ⟨howned, .inr (.inl hheld)⟩
        · rcases List.mem_cons.1 hmem with heq | hmem
          -- the pair at hand is not the key's
          · cases heq
            exact absurd hk hskip
          · exact ⟨howned, .inr (.inr ⟨v, hmem⟩)⟩
      · next hsend =>
        rw [not_not] at hsend
        refine ⟨?_, hlater, fun held' hmono hnew => ⟨fun hk => ?_, hrest', hlater⟩⟩
        · rintro rfl
          exact ⟨(hkeys hsend).1, hrest value List.mem_cons_self⟩
        · obtain ⟨howned, hgone | hheld | ⟨v, hmem⟩⟩ := hkeys hk
          · exact ⟨howned, .inl hgone⟩
          · exact ⟨howned, .inr (.inl (hmono _ hheld))⟩
          · rcases List.mem_cons.1 hmem with heq | hmem
            · exact ⟨howned, .inr (.inl (hnew (congrArg Prod.fst heq).symm))⟩
            · exact ⟨howned, .inr (.inr ⟨v, hmem⟩)⟩
  | removing target snapshot left later =>
    obtain ⟨hleft, hlater⟩ := h
    cases left with
    | nil => exact hlater
    | cons key left =>
      constructor
      · rintro rfl
        obtain ⟨howned, hgone | hheld⟩ := hleft List.mem_cons_self
        · exact .inl hgone
        · exact .inr ⟨target, howned, hheld⟩
      · refine ⟨fun hk => ?_, hlater⟩
        obtain ⟨howned, hdone⟩ := hleft (List.mem_cons_of_mem _ hk)
        split
        · exact ⟨howned, .inl rfl⟩
        · exact ⟨howned, hdone⟩
  | finished => trivial

theorem CheckPhase.Sound.next {phase : CheckPhase} {server : ZHTServer}
    (h : phase.Sound k owned held (server.store.map.lookup k) first) (ords : MigrationOrders)
    (howner : ∀ target, ownerAmong k server.migration.membership.activeMembers = some target → owned target)
    (hfirst : ∀ value, server.store.map.lookup k = some value → first = some value) :
    (phase.next ords server).Sound k owned held server first := by
  cases phase with
  | entered =>
    simp only [CheckPhase.next]
    split <;> exact ⟨rfl, .inl rfl, trivial⟩
  | passed =>
    simp only [CheckPhase.next]
    split
    · exact ⟨rfl, .inl rfl, trivial⟩
    · next g later hgroups =>
      refine ⟨rfl, .inl rfl, fun g' hg' hk => ?_⟩
      rw [← hgroups] at hg'
      obtain ⟨value, hmoves⟩ := (MigrationManager.mem_group_keys hg').1 hk
      exact howner _ hmoves.owner
  | running task =>
    have hmove := MigrationTask.Sound.next h server.migration ords howner hfirst
    simp only [CheckPhase.next]
    generalize task.next server.migration ords server.store = move at hmove ⊢
    cases move with
    | advance next =>
      simp only
      split <;> exact ⟨rfl, .inl rfl, hmove⟩
    | send target key value next => exact hmove
    | remove target key next =>
      obtain ⟨hgone, hnext⟩ := hmove
      have hlookup := remove_lookup server.store key k
      refine ⟨rfl, ?_, hlookup.symm ▸ hnext⟩
      by_cases hkey : k = key
      · rw [if_pos hkey] at hlookup
        exact .inr ⟨hlookup, hgone hkey⟩
      · rw [if_neg hkey] at hlookup
        exact .inl hlookup

end Next

/-! ## What an event keeps -/

namespace Conserves

variable {k : String} {owned : HostEntity → HostEntity → Prop} {start s : ServerCluster}

theorem post (h : Conserves k owned start s) {target : HostEntity} {key value : String}
    (horigin : key = k → Origin k owned start target value) (copies : Nat) :
    Conserves k owned start (s.post (target, migrationRequest key value) copies) where
  stored := h.stored
  kept := h.kept
  served := h.served
  inFlight m hm := by
    rcases List.mem_append.1 hm with hold | hnew
    · exact h.inFlight m hold
    · obtain rfl := List.eq_of_mem_replicate hnew
      exact ⟨key, value, rfl, horigin⟩
  checks := h.checks

theorem setCheck (h : Conserves k owned start s) {n : HostEntity} {phase : CheckPhase}
    (hphase : phase.Sound k (owned n) (Held k s) (s.stored n k) (start.stored n k)) (i : Nat) :
    Conserves k owned start (s.setCheck n i phase) := by
  have hstored : ∀ m, (s.setCheck n i phase).stored m k = s.stored m k := fun m => by
    rw [ServerCluster.stored, ServerCluster.server_setCheck, ServerCluster.stored]
  have hserved : ∀ m, (s.setCheck n i phase).served m k = s.served m k := fun m => by
    rw [ServerCluster.served, ServerCluster.server_setCheck, ServerCluster.served]
  have hheld : ∀ m, Held k s m → Held k (s.setCheck n i phase) m := fun m hm => by
    unfold Held
    rwa [hserved]
  constructor
  · intro m v hv
    exact h.stored m v (hstored m ▸ hv)
  · intro m v hv
    rw [hstored]
    rcases h.kept m v hv with hkept | ⟨hgone, target, howned, ht⟩
    · exact .inl hkept
    · exact .inr ⟨hgone, target, howned, hheld target ht⟩
  · intro m v hv
    exact h.served m v (hserved m ▸ hv)
  · exact h.inFlight
  · intro m t ht
    rw [ServerCluster.checks_setCheck] at ht
    rw [hstored]
    split at ht
    · next hm =>
      subst hm
      rcases List.mem_or_eq_of_mem_set ht with hold | rfl
      · exact (h.checks m t hold).mono hheld id
      · exact hphase.mono hheld id
    · exact (h.checks m t ht).mono hheld id

/-- A node's server changes, and gives the key away at most where it may. -/
theorem setServer (h : Conserves k owned start s) {n : HostEntity} {server : ZHTServer}
    (hworker : server.worker = (s.nodes n).server.worker)
    (hstore : server.store.map.lookup k = s.stored n k ∨
      server.store.map.lookup k = none ∧ (s.stored n k = none ∨ ∃ h, owned n h ∧ Held k s h)) :
    Conserves k owned start (s.setServer n server) := by
  have hserved : ∀ m, (s.setServer n server).served m k = s.served m k := fun m => by
    unfold ServerCluster.served
    rw [ServerCluster.server_setServer]
    split
    · next hm => rw [hworker, hm]
    · rfl
  have hheld : ∀ m, Held k s m → Held k (s.setServer n server) m := fun m hm => by
    unfold Held
    rwa [hserved]
  have hstored : ∀ m, (s.setServer n server).stored m k = s.stored m k ∨
      (s.setServer n server).stored m k = none ∧ (s.stored m k = none ∨ ∃ h, owned m h ∧ Held k s h) := by
    intro m
    unfold ServerCluster.stored
    rw [ServerCluster.server_setServer]
    split
    · next hm =>
      subst hm
      exact hstore
    · exact .inl rfl
  constructor
  · intro m v hv
    rcases hstored m with hsame | ⟨hnone, -⟩
    · exact h.stored m v (hsame ▸ hv)
    · rw [hnone] at hv
      cases hv
  · intro m v hv
    have hbefore : s.stored m k = some v ∨
        s.stored m k = none ∧ ∃ h, owned m h ∧ Held k (s.setServer n server) h := by
      rcases h.kept m v hv with hkept | ⟨hgone, target, howned, ht⟩
      · exact .inl hkept
      · exact .inr ⟨hgone, target, howned, hheld target ht⟩
    rcases hstored m with hsame | ⟨hnone, hgone | ⟨target, howned, ht⟩⟩
    · rwa [hsame]
    · rcases hbefore with hkept | ⟨-, hhanded⟩
      · rw [hgone] at hkept
        cases hkept
      · exact .inr ⟨hnone, hhanded⟩
    · exact .inr ⟨hnone, target, howned, hheld target ht⟩
  · intro m v hv
    exact h.served m v (hserved m ▸ hv)
  · exact h.inFlight
  · intro m t ht
    rw [ServerCluster.checks_setServer] at ht
    refine (h.checks m t ht).mono hheld fun hgone => ?_
    rcases hstored m with hsame | ⟨hnone, -⟩
    · exact hsame.trans hgone
    · exact hnone

/-- A check takes its next step. -/
theorem move (h : Conserves k owned start s) (hk : k ≠ "") (c : Codec) {n : HostEntity} {move : CheckMove}
    (hmove : move.Sound k (owned n) (Held k s) (s.nodes n).server (start.stored n k)) (i : Nat) {fate : Fate}
    (hfate : ∀ copies, fate ≠ .mistaken copies) : Conserves k owned start (s.move c n i fate move) := by
  cases move with
  | stays phase server =>
    obtain ⟨hworker, hstore, hphase⟩ := hmove
    have hserver := h.setServer hworker hstore
    refine hserver.setCheck (hphase.mono (fun m hm => ?_) fun hgone => ?_) i
    · unfold Held ServerCluster.served at hm ⊢
      rw [ServerCluster.server_setServer]
      split
      · next hmn => rwa [hworker, ← hmn]
      · exact hm
    · rw [ServerCluster.stored, ServerCluster.server_setServer, if_pos rfl]
      exact hgone
  | sends target key value onOk onError =>
    obtain ⟨hpair, herror, hok⟩ := hmove
    have horigin : key = k → Origin k owned start target value := fun hkey =>
      .inr ⟨n, hpair hkey⟩
    cases fate with
    | answered copies =>
      have hreceived := (h.post horigin copies).receive hk c horigin
      have hserved := fun m =>
        (s.post (target, migrationRequest key value) copies).served_receive_pair c m target key value hk
      refine hreceived.setCheck ?_ i
      rw [ServerCluster.stored_receive]
      refine hok _ (fun m hm => ?_) fun hkey => ?_
      · unfold Held
        rw [hserved]
        split
        · exact Option.some_ne_none _
        · exact hm
      · unfold Held
        rw [hserved, if_pos ⟨rfl, hkey⟩]
        exact Option.some_ne_none _
    | mistaken copies => exact absurd rfl (hfate copies)
    | failed copies => exact (h.post horigin copies).setCheck herror i

/-- A message is no longer on its way. -/
theorem erase (h : Conserves k owned start s) (i : Nat) :
    Conserves k owned start { s with inFlight := s.inFlight.eraseIdx i } :=
  h.congr (fun _ => rfl) (fun _ => rfl) (fun _ hm => List.mem_of_mem_eraseIdx hm) fun _ _ ht => .inl ht

/-- A client's request that does not write to the key. -/
theorem receive_of_spares (h : Conserves k owned start s) (c : Codec) {m : Outgoing}
    (hm : (Command.ofRequest m.2).Spares k) : Conserves k owned start (s.receive c m) := by
  refine h.congr (fun n => s.stored_receive c n k m) (fun n => s.served_receive_of_spares c n k hm)
    (fun _ hmem => hmem) fun n phase hphase => .inl ?_
  unfold ServerCluster.receive at hphase
  rwa [ServerCluster.checks_setServer] at hphase

theorem step (h : Conserves k owned start s) (hk : k ≠ "") (c : Codec) (timeout : Nat) {e : HandoverEvent}
    (he : e.Spares k) (howned : ∀ n target, s.ownerOf n k = some target → owned n target) :
    Conserves k owned start (s.step c timeout e).2 := by
  cases e with
  | task n t =>
    cases t with
    | request z => exact h.receive_of_spares (m := (n, z)) c he
    | tick now => exact h.setServer rfl (.inl rfl)
    | status => exact h.setServer rfl (.inl rfl)
    | flush ord => exact h.setServer rfl (.inl (congrArg (Finmap.lookup k) (NoVoHT.flush_map _ ord)))
  | member n call => exact h.setServer rfl (.inl rfl)
  | beginCheck n =>
    have hnode : ∀ m, ((s.step c timeout (.beginCheck n)).2.nodes m).server = (s.nodes m).server := fun m => by
      unfold ServerCluster.step
      rw [ServerCluster.nodes_setNode]
      split
      · next hm => rw [hm]
      · rfl
    refine h.congr (fun m => ?_) (fun m => ?_) (fun _ hm => hm) fun m phase hphase => ?_
    · rw [ServerCluster.stored, hnode, ServerCluster.stored]
    · rw [ServerCluster.served, hnode, ServerCluster.served]
    · unfold ServerCluster.step at hphase
      rw [ServerCluster.nodes_setNode] at hphase
      split at hphase
      · next hm =>
        rcases List.mem_append.1 hphase with hold | hnew
        · exact .inl (hm ▸ hold)
        · exact .inr (List.mem_singleton.1 hnew)
      · exact .inl hphase
  | check n i ords fate =>
    unfold ServerCluster.step
    simp only
    cases hi : (s.nodes n).checks[i]? with
    | none => exact h
    | some phase =>
      refine h.move hk c (((h.checks n phase (List.mem_of_getElem? hi)).next ords (howned n)) (h.stored n)) i ?_
      rintro copies rfl
      exact he
  | arrive i =>
    unfold ServerCluster.step
    simp only
    cases hi : s.inFlight[i]? with
    | none => exact h
    | some m =>
      obtain ⟨key, value, hm, horigin⟩ := h.inFlight m (List.mem_of_getElem? hi)
      obtain ⟨target, request⟩ := m
      obtain rfl : request = migrationRequest key value := hm
      exact (h.erase i).receive hk c horigin
  | lose i => exact h.erase i

end Conserves

/-! ## Runs -/

/-- At some point of the run the node takes the other one for the owner of the key. -/
def OwnedDuring (c : Codec) (timeout : Nat) (start : ServerCluster) (events : List HandoverEvent) (k : String)
    (n h : HostEntity) : Prop :=
  ∃ before, before <+: events ∧ (Machine.after (ServerCluster.step c timeout) start before).ownerOf n k = some h

theorem Conserves.run {k : String} (hk : k ≠ "") {owned : HostEntity → HostEntity → Prop} (c : Codec)
    (timeout : Nat) {start : ServerCluster} (hstart : Conserves k owned start start) {events : List HandoverEvent}
    (hevents : ∀ e ∈ events, e.Spares k)
    (howned : ∀ n h, OwnedDuring c timeout start events k n h → owned n h) :
    Conserves k owned start (Machine.after (ServerCluster.step c timeout) start events) := by
  induction events using List.reverseRecOn with
  | nil => exact hstart
  | append_singleton events e ih =>
    have hpast := ih (fun e' he' => hevents e' (List.mem_append_left _ he')) fun n h hn => by
      obtain ⟨before, hprefix, howner⟩ := hn
      exact howned n h ⟨before, hprefix.trans (List.prefix_append _ _), howner⟩
    rw [Machine.after_append]
    refine hpast.step hk c timeout (hevents e (List.mem_append_right _ List.mem_cons_self)) fun n target howner => ?_
    exact howned n target ⟨events, List.prefix_append _ _, howner⟩

/-- Every run of a cluster in which migrations run, requests are lost, repeated and delayed, and members come
and go: a key that no client writes to stays in every server that had it until a node that was taken for its
owner serves it; no server gains it; and a node serves it only with a value it served at first, or that a
server which took the node for the owner had. -/
theorem handover_conserves (c : Codec) (timeout : Nat) {start : ServerCluster} (hflight : start.inFlight = [])
    (hchecks : ∀ n, (start.nodes n).checks = []) {k : String} (hk : k ≠ "") {events : List HandoverEvent}
    (hevents : ∀ e ∈ events, e.Spares k) :
    let s := Machine.after (ServerCluster.step c timeout) start events
    (∀ n value, start.stored n k = some value → s.stored n k = some value ∨
      s.stored n k = none ∧ ∃ h value', OwnedDuring c timeout start events k n h ∧ s.served h k = some value') ∧
    (∀ n value, s.stored n k = some value → start.stored n k = some value) ∧
    (∀ h value, s.served h k = some value → start.served h k = some value ∨
      ∃ n, OwnedDuring c timeout start events k n h ∧ start.stored n k = some value) := by
  have hstart : Conserves k (OwnedDuring c timeout start events k) start start := .of_quiet hflight hchecks
  have h := hstart.run hk c timeout hevents fun n h hn => hn
  refine ⟨fun n value hv => ?_, h.stored, h.served⟩
  rcases h.kept n value hv with hkept | ⟨hgone, target, howned, hheld⟩
  · exact .inl hkept
  · obtain ⟨value', hvalue⟩ := Option.ne_none_iff_exists'.1 hheld
    exact .inr ⟨hgone, target, value', howned, hvalue⟩

section Runs

/-- Node `a` has a key that its only member `b` owns. -/
def handingOver : ServerCluster where
  nodes n :=
    { server := .newWithStore 0 (if n = ⟨"a", 1⟩ then (NoVoHT.new.put "k" "v").2 else .new) n
        (if n = ⟨"a", 1⟩ then [⟨"b", 2⟩] else []) 0 0 true
      checks := [] }
  inFlight := []

def sortedOrders : MigrationOrders :=
  ⟨HashMap.Order.sorted, HashMap.Order.sorted, HashMap.Order.sorted, HashMap.Order.sorted⟩

/-- A check of `a` takes as many steps, its exchange going as told. -/
def checkOfA (i times : Nat) (fate : Fate) : List HandoverEvent :=
  List.replicate times (.check ⟨"a", 1⟩ i sortedOrders fate)

/-- The first check gives up on the exchange, the second one goes through, and the request of the first comes
late, behind a client's write of another key. -/
def lateRun : List HandoverEvent :=
  .beginCheck ⟨"a", 1⟩ :: checkOfA 0 5 (.failed 1) ++ .beginCheck ⟨"a", 1⟩ :: checkOfA 1 8 (.answered 0) ++
    [.task ⟨"b", 2⟩ (.request { opcode := utf8Bytes OPC_INSERT, key := utf8Bytes "x" }), .arrive 0]

theorem checkOfA_spares {i times : Nat} {fate : Fate} (hfate : ∀ copies, fate ≠ .mistaken copies) :
    ∀ e ∈ checkOfA i times fate, e.Spares "k" := by
  intro e he
  obtain rfl := List.eq_of_mem_replicate he
  cases fate with
  | answered copies => trivial
  | mistaken copies => exact hfate copies rfl
  | failed copies => trivial

theorem handover_conserves_late :
    let s := Machine.after (ServerCluster.step Codec.protobuf 60) handingOver lateRun
    (∀ value, s.served ⟨"b", 2⟩ "k" = some value →
      handingOver.served ⟨"b", 2⟩ "k" = some value ∨ ∃ n, handingOver.stored n "k" = some value) ∧
    s.stored ⟨"a", 1⟩ "k" = none ∧ s.served ⟨"b", 2⟩ "k" = some "v" := by
  have hquiet : handingOver.inFlight = [] := rfl
  have hevents : ∀ e ∈ lateRun, e.Spares "k" := by
    have hwrite : (Command.ofRequest { opcode := utf8Bytes OPC_INSERT, key := utf8Bytes "x" }).Spares "k" := by
      rw [command_insert (by decide)]
      exact (by decide : "x" ≠ "k")
    rw [lateRun, List.forall_mem_append, List.forall_mem_append, List.forall_mem_cons, List.forall_mem_cons]
    refine ⟨⟨⟨trivial, checkOfA_spares fun _ => Fate.noConfusion⟩, trivial,
      checkOfA_spares fun _ => Fate.noConfusion⟩, ?_⟩
    rintro e he
    rcases List.mem_cons.1 he with rfl | he
    · exact hwrite
    · obtain rfl := List.mem_singleton.1 he
      trivial
  refine ⟨fun value hv => ?_, by decide +kernel, by decide +kernel⟩
  rcases (handover_conserves Codec.protobuf 60 hquiet (fun _ => rfl) (by decide) hevents).2.2 ⟨"b", 2⟩ value hv with
    hfirst | ⟨n, -, hn⟩
  · exact .inl hfirst
  · exact .inr ⟨n, hn⟩

/-- An answer that is taken for another one's: the key is removed behind it and never arrives. -/
example :
    let s := Machine.after (ServerCluster.step Codec.protobuf 60) handingOver
      (.beginCheck ⟨"a", 1⟩ :: checkOfA 0 7 (.mistaken 1) ++ [.lose 0])
    s.stored ⟨"a", 1⟩ "k" = none ∧ s.served ⟨"b", 2⟩ "k" = none := by
  decide +kernel

end Runs

end Zht
