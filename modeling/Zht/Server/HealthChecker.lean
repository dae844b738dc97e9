/-
`ZHTServer::spawn_health_checker` beside the requests a server answers. Of all the calls on the members'
table a running server makes those of its health checker only, so that no heartbeat ever reaches an entry:
every check that comes in time leaves the table as it was built, and from the first late one on no member
is alive. `health_checker_isolates` says so of every run, and what then becomes of routing, replication
and migration.
-/
import Zht.Lib.Machine
import Zht.Server.MemberHealth
import Zht.Server.Replication

namespace Zht

open Lib

namespace ZHTServer

/-! ## The server's tasks -/

/-- `health_check`: some member is alive, or there is none. -/
def healthCheck (s : ZHTServer) : Bool := 0 < s.membership.memberCount ∨ s.membership.members = []

/-- The table of members is one that the server shares with its replication and its migration. -/
def withMembership (s : ZHTServer) (m : MembershipManager) : ZHTServer :=
  { s with
    membership := m
    replication := { s.replication with membership := m }
    migration := { s.migration with membership := m } }

/-- One tick of the task that `spawn_health_checker` spawns. -/
def healthTick (timeout now : Nat) (s : ZHTServer) : ZHTServer :=
  s.withMembership (s.membership.checkHealth now timeout)

/-- What a running server does: it answers a request, checks the members, reports, flushes. -/
inductive ServerTask
  | request (r : ZPack)
  | tick (now : Nat)
  | status
  | flush (ord : HashMap.Order String String)

/-- One task; a request is answered. -/
def runTask (c : Codec) (timeout : Nat) (s : ZHTServer) : ServerTask → Option ZPack × ZHTServer
  | .request r => Prod.map some id (s.handleRequest c r)
  | .tick now => (none, s.healthTick timeout now)
  | .status => (none, s.status.2)
  | .flush ord => (none, (s.flushStore ord).2)

/-- The instants at which the members were checked. -/
def ticks (tasks : List ServerTask) : List Nat :=
  tasks.filterMap fun
    | .tick now => some now
    | _ => none

/-! ## Late and timely checks -/

/-- Nobody is alive: no key has an owner or a replica node, and nothing migrates. -/
structure Isolated (s : ZHTServer) : Prop where
  active : s.membership.activeMembers = []
  owner : ∀ key, s.membership.resolveNode key = none
  replicas : ∀ key, s.replication.getReplicaNodes key = []
  migration : ∀ peers ords store, s.migration.checkAndMigrate peers ords store = (0, store, [])
  status : s.status.1.aliveMembers = 0

/-- The three parts of a server have one table of members. -/
structure Shares (s : ZHTServer) (m : MembershipManager) : Prop where
  membership : s.membership = m
  replication : s.replication.membership = m
  migration : s.migration.membership = m

theorem Shares.runTask {s : ZHTServer} {m : MembershipManager} (h : s.Shares m) (c : Codec) (timeout : Nat)
    (task : ServerTask) :
    (s.runTask c timeout task).2.Shares ((ticks [task]).foldl (fun m now => m.checkHealth now timeout) m) := by
  cases task with
  | request r => exact ⟨h.membership, h.replication, h.migration⟩
  | tick now =>
    have hm : s.membership.checkHealth now timeout = m.checkHealth now timeout := by rw [h.membership]
    exact ⟨hm, hm, hm⟩
  | status => exact ⟨h.membership, h.replication, h.migration⟩
  | flush ord => exact ⟨h.membership, h.replication, h.migration⟩

/-- Of a run only the ticks reach the members. -/
theorem Shares.run {s : ZHTServer} {m : MembershipManager} (h : s.Shares m) (c : Codec) (timeout : Nat)
    (tasks : List ServerTask) :
    (Machine.after (ZHTServer.runTask c timeout) s tasks).Shares
      ((ticks tasks).foldl (fun m now => m.checkHealth now timeout) m) := by
  induction tasks generalizing s m with
  | nil => exact h
  | cons task tasks ih =>
    have hticks : ticks (task :: tasks) = ticks [task] ++ ticks tasks := by
      unfold ticks
      rw [← List.filterMap_append, List.singleton_append]
    rw [Machine.after_cons, hticks, List.foldl_append]
    exact ih (h.runTask c timeout task)

end ZHTServer

namespace MembershipManager

/-- All entries were heard of last at one instant, and are in one state that is alive or suspect. -/
structure Uniform (m : MembershipManager) (created : Nat) (state : NodeState) (hosts : List HostEntity) : Prop where
  heard : ∀ e ∈ m.members, e.lastHeartbeat = created
  state : ∀ e ∈ m.members, e.state = state
  hosts : m.hosts = hosts

theorem Uniform.activeMembers_alive {m : MembershipManager} {created : Nat} {hosts : List HostEntity}
    (h : m.Uniform created .alive hosts) : m.activeMembers = hosts := by
  have hall : m.members.filter (·.state = .alive) = m.members :=
    List.filter_eq_self.2 fun e he => by simpa using h.state e he
  rw [activeMembers, hall, ← h.hosts]
  rfl

theorem Uniform.filter_suspect {m : MembershipManager} {created : Nat} {hosts : List HostEntity}
    (h : m.Uniform created .suspect hosts) : m.members.filter (·.state = .alive) = [] := by
  rw [List.filter_eq_nil_iff]
  intro e he
  simp [h.state e he]

/-- A check within the timeout changes nothing. -/
theorem Uniform.checkHealth_timely {m : MembershipManager} {created : Nat} {state : NodeState}
    {hosts : List HostEntity} (h : m.Uniform created state hosts) {now timeout : Nat} (hnow : now ≤ created + timeout) :
    m.checkHealth now timeout = m := by
  have hmap : m.members.map (fun e => if e.state = .alive ∧ timeout < now - e.lastHeartbeat
      then { e with state := .suspect } else e) = m.members := by
    conv_rhs => rw [← List.map_id m.members]
    apply List.map_congr_left
    intro e he
    rw [if_neg]
    · rfl
    · rintro ⟨-, hlate⟩
      rw [h.heard e he] at hlate
      omega
  unfold checkHealth
  rw [hmap]

/-- A check after the timeout leaves nobody alive, whatever came before. -/
theorem Uniform.checkHealth_late {m : MembershipManager} {created : Nat} {state : NodeState}
    {hosts : List HostEntity} (h : m.Uniform created state hosts) (hstate : state = .alive ∨ state = .suspect)
    {now timeout : Nat} (hnow : created + timeout < now) :
    (m.checkHealth now timeout).Uniform created .suspect hosts := by
  have hentry : ∀ e ∈ (m.checkHealth now timeout).members, e.lastHeartbeat = created ∧ e.state = .suspect := by
    intro e he
    obtain ⟨e₀, he₀, rfl⟩ := List.mem_map.1 he
    have hheard := h.heard e₀ he₀
    have hlate : timeout < now - e₀.lastHeartbeat := by omega
    rcases hstate with rfl | rfl
    · rw [if_pos ⟨h.state e₀ he₀, hlate⟩]
      exact ⟨hheard, rfl⟩
    · rw [if_neg fun hc => by simp [h.state e₀ he₀] at hc]
      exact ⟨hheard, h.state e₀ he₀⟩
  refine ⟨fun e he => (hentry e he).1, fun e he => (hentry e he).2, ?_⟩
  rw [hosts_checkHealth, h.hosts]

theorem Uniform.new (created : Nat) (selfHost : HostEntity) (initialMembers : List HostEntity) :
    (new created selfHost initialMembers).Uniform created .alive (initialMembers.filter (· ≠ selfHost)) where
  heard e he := by
    obtain ⟨host, -, rfl⟩ := List.mem_map.1 he
    rfl
  state e he := by
    obtain ⟨host, -, rfl⟩ := List.mem_map.1 he
    rfl
  hosts := hosts_new created selfHost initialMembers

/-- Checks in time, in any number. -/
theorem Uniform.checks_timely {m : MembershipManager} {created timeout : Nat} {state : NodeState}
    {hosts : List HostEntity} (h : m.Uniform created state hosts) {nows : List Nat}
    (hnows : ∀ now ∈ nows, now ≤ created + timeout) :
    nows.foldl (fun m now => m.checkHealth now timeout) m = m := by
  induction nows with
  | nil => rfl
  | cons now nows ih =>
    obtain ⟨hnow, hrest⟩ := List.forall_mem_cons.1 hnows
    rw [List.foldl_cons, h.checkHealth_timely hnow, ih hrest]

/-- One late check, with any before and behind it. -/
theorem Uniform.checks_late {m : MembershipManager} {created timeout : Nat} {state : NodeState}
    {hosts : List HostEntity} (h : m.Uniform created state hosts) (hstate : state = .alive ∨ state = .suspect)
    {nows : List Nat} (hnows : ∃ now ∈ nows, created + timeout < now) :
    (nows.foldl (fun m now => m.checkHealth now timeout) m).Uniform created .suspect hosts := by
  -- once suspect, entries stay so
  have hstays : ∀ (nows : List Nat) (m : MembershipManager), m.Uniform created .suspect hosts →
      (nows.foldl (fun m now => m.checkHealth now timeout) m).Uniform created .suspect hosts := by
    intro nows
    induction nows with
    | nil => exact fun m hm => hm
    | cons now nows ih =>
      intro m hm
      rw [List.foldl_cons]
      apply ih
      rcases Nat.lt_or_ge (created + timeout) now with hlate | hin
      · exact hm.checkHealth_late (.inr rfl) hlate
      · rwa [hm.checkHealth_timely hin]
  induction nows with
  | nil => simp at hnows
  | cons now nows ih =>
    rw [List.foldl_cons]
    rcases Nat.lt_or_ge (created + timeout) now with hlate | hin
    · exact hstays nows _ (h.checkHealth_late hstate hlate)
    · rw [h.checkHealth_timely hin]
      obtain ⟨late, hmem, hlate⟩ := hnows
      rcases List.mem_cons.1 hmem with rfl | hmem
      · omega
      · exact ih ⟨late, hmem, hlate⟩

end MembershipManager

namespace ZHTServer

theorem Shares.isolated {s : ZHTServer} {m : MembershipManager} (h : s.Shares m) {created : Nat}
    {hosts : List HostEntity} (hm : m.Uniform created .suspect hosts) : s.Isolated := by
  have hactive : m.activeMembers = [] := by rw [MembershipManager.activeMembers, hm.filter_suspect, List.map_nil]
  refine ⟨?_, fun key => ?_, fun key => ?_, fun peers ords store => ?_, ?_⟩
  · rw [h.membership, hactive]
  · rw [h.membership, MembershipManager.resolveNode, hactive]
    rfl
  · rw [ReplicationManager.getReplicaNodes, h.replication, hactive]
    rfl
  · have hkeys : ∀ keys, s.migration.keysToMigrate keys = ∅ := by
      intro keys
      unfold MigrationManager.keysToMigrate
      rw [h.migration, hactive]
      show keys.foldl (fun acc _ => acc) ∅ = _
      induction keys with
      | nil => rfl
      | cons key keys ih => exact ih
    unfold MigrationManager.checkAndMigrate
    simp only [hkeys, if_true]
    split <;> rfl
  · show (s.membership.members.filter (·.state = .alive)).length = 0
    rw [h.membership, hm.filter_suspect, List.length_nil]

/-- Every run of a server: as long as its checks come within the timeout of its creation, the members are as
they were built; from the first later one on it is isolated for good, and healthy only if it had no
neighbours. With a check at every interval that is so after one more check than the timeout has intervals. -/
theorem health_checker_isolates (c : Codec) (created timeout : Nat) (store : NoVoHT) (selfHost : HostEntity)
    (initialMembers : List HostEntity) (numReplicas replicationType : UInt32) (migrationEnabled : Bool)
    (tasks : List ServerTask) :
    let start := newWithStore created store selfHost initialMembers numReplicas replicationType migrationEnabled
    let s := Machine.after (runTask c timeout) start tasks
    ((∀ now ∈ ticks tasks, now ≤ created + timeout) →
        s.Shares start.membership ∧ s.membership.activeMembers = initialMembers.filter (· ≠ selfHost)) ∧
      ((∃ now ∈ ticks tasks, created + timeout < now) →
        s.Isolated ∧ (s.healthCheck = true ↔ ∀ h ∈ initialMembers, h = selfHost)) ∧
      ∀ started interval, created ≤ started →
        (∀ k now, (ticks tasks)[k]? = some now → started + k * interval ≤ now) →
        timeout < ((ticks tasks).length - 1) * interval → s.Isolated := by
  intro start s
  have hshares : s.Shares ((ticks tasks).foldl (fun m now => m.checkHealth now timeout) start.membership) :=
    Shares.run ⟨rfl, rfl, rfl⟩ c timeout tasks
  have hnew := MembershipManager.Uniform.new created selfHost initialMembers
  have hlate : (∃ now ∈ ticks tasks, created + timeout < now) →
      ((ticks tasks).foldl (fun m now => m.checkHealth now timeout) start.membership).Uniform created .suspect
        (initialMembers.filter (· ≠ selfHost)) :=
    fun h => MembershipManager.Uniform.checks_late hnew (.inl rfl) h
  refine ⟨fun hin => ?_, fun h => ⟨hshares.isolated (hlate h), ?_⟩, ?_⟩
  · have hsame := MembershipManager.Uniform.checks_timely hnew hin
    have hstart : s.Shares start.membership := by
      have heq : (ticks tasks).foldl (fun m now => m.checkHealth now timeout) start.membership = start.membership :=
        hsame
      rwa [heq] at hshares
    exact ⟨hstart, by rw [hstart.membership]; exact hnew.activeMembers_alive⟩
  · have hm := hlate h
    have hempty : s.membership.members = [] ↔ ∀ h ∈ initialMembers, h = selfHost := by
      have hhosts : s.membership.hosts = initialMembers.filter (· ≠ selfHost) := by
        rw [hshares.membership, hm.hosts]
      rw [← List.map_eq_nil_iff (f := (·.host))]
      show s.membership.hosts = [] ↔ _
      rw [hhosts, List.filter_eq_nil_iff]
      simp
    rw [healthCheck, MembershipManager.memberCount, hshares.membership, hm.filter_suspect, ← hempty, hshares.membership]
    simp
  · intro started interval hstarted hevery hmany
    refine hshares.isolated (hlate ?_)
    have hpos : 0 < (ticks tasks).length := by
      rcases Nat.eq_zero_or_pos (ticks tasks).length with hzero | hpos
      · rw [hzero, Nat.zero_sub, Nat.zero_mul] at hmany
        omega
      · exact hpos
    have hlast := List.getElem?_eq_getElem (l := ticks tasks) (i := (ticks tasks).length - 1) (by omega)
    refine ⟨_, List.mem_of_getElem? hlast, ?_⟩
    have hbound := hevery _ _ hlast
    omega

end ZHTServer

end Zht
