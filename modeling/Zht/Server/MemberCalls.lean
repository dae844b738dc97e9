/-
The membership table over any calls. The marking calls change the first entry of a node and liveness
asks for any, so a node that is listed twice stays alive and routed to after it is marked. `addMember`
keeps duplicates out and the constructor does not: `members_sound_iff` says which histories leave a
table without them.
-/
import Zht.Server.Membership
import Mathlib.Data.List.Nodup

namespace Zht

/-- A call on the manager, with the reading of the clock that it makes. -/
inductive MemberCall
  | addMember (now : Nat) (host : HostEntity)
  | removeMember (host : String) (port : UInt16)
  | markAlive (now : Nat) (host : String) (port : UInt16)
  | markSuspect (now : Nat) (host : String) (port : UInt16)
  | markDead (host : String) (port : UInt16)
  | checkHealth (now timeout : Nat)
  deriving DecidableEq, Repr

def MemberCall.exec (m : MembershipManager) : MemberCall → MembershipManager
  | addMember now host => m.addMember now host
  | removeMember host port => m.removeMember host port
  | markAlive now host port => m.markAlive now host port
  | markSuspect now host port => m.markSuspect now host port
  | markDead host port => m.markDead host port
  | checkHealth now timeout => m.checkHealth now timeout

namespace MembershipManager

/-- The manager after the calls. -/
def run (m : MembershipManager) (calls : List MemberCall) : MembershipManager := calls.foldl MemberCall.exec m

/-- The nodes of the entries. -/
def hosts (m : MembershipManager) : List HostEntity := m.members.map (·.host)

/-- The node is neither alive nor the owner of any key. -/
def Excludes (m : MembershipManager) (host : String) (port : UInt16) : Prop :=
  m.isAlive host port = false ∧ ∀ key, m.resolveNode key ≠ some ⟨host, port⟩

/-- No node twice, self not listed, and a node that is marked is no longer routed to. -/
structure Sound (m : MembershipManager) : Prop where
  distinct : m.hosts.Nodup
  notSelf : m.selfNode ∉ m.hosts
  dead : ∀ host port, (m.markDead host port).Excludes host port
  suspect : ∀ now host port, (m.markSuspect now host port).Excludes host port

variable {m : MembershipManager}

/-! ## What a call does to the nodes -/

theorem names_iff {e : MembershipEntry} {host : String} {port : UInt16} :
    e.names host port = true ↔ e.host = ⟨host, port⟩ := by
  obtain ⟨⟨h, p⟩, -, -, -⟩ := e
  simp [MembershipEntry.names]

theorem map_host_updateFirst (p : MembershipEntry → Bool) {f : MembershipEntry → MembershipEntry}
    (hf : ∀ e, (f e).host = e.host) (es : List MembershipEntry) :
    (updateFirst p f es).map (·.host) = es.map (·.host) := by
  induction es with
  | nil => rfl
  | cons e es ih =>
    unfold updateFirst
    by_cases he : p e = true
    · rw [if_pos he, List.map_cons, List.map_cons, hf]
    · rw [if_neg he, List.map_cons, List.map_cons, ih]

theorem hosts_mark (m : MembershipManager) (host : String) (port : UInt16) {f : MembershipEntry → MembershipEntry}
    (hf : ∀ e, (f e).host = e.host) : (m.mark host port f).hosts = m.hosts :=
  map_host_updateFirst _ hf m.members

theorem hosts_checkHealth (m : MembershipManager) (now timeout : Nat) :
    (m.checkHealth now timeout).hosts = m.hosts := by
  unfold hosts checkHealth
  rw [List.map_map]
  apply List.map_congr_left
  intro e _
  show (if _ then _ else _ : MembershipEntry).host = e.host
  split <;> rfl

theorem hosts_removeMember (m : MembershipManager) (host : String) (port : UInt16) :
    (m.removeMember host port).hosts = m.hosts.filter (· ≠ ⟨host, port⟩) := by
  unfold hosts removeMember
  rw [List.filter_map]
  congr 1
  apply List.filter_congr
  intro e _
  rw [Function.comp_apply, Bool.eq_iff_iff, Bool.not_eq_true', ← Bool.not_eq_true, names_iff]
  simp

/-- A new node that is not self is appended; any other changes nothing. -/
theorem hosts_addMember (m : MembershipManager) (now : Nat) (host : HostEntity) :
    (m.addMember now host).hosts = if host = m.selfNode ∨ host ∈ m.hosts then m.hosts else m.hosts ++ [host] := by
  have hany : m.members.any (·.host = host) = true ↔ host ∈ m.hosts := by simp [hosts]
  unfold addMember
  by_cases hs : host = m.selfNode
  · rw [if_pos hs, if_pos (.inl hs)]
  · rw [if_neg hs]
    by_cases hm : host ∈ m.hosts
    · rw [if_pos (hany.2 hm), if_pos (.inr hm)]
    · rw [if_neg fun h => hm (hany.1 h), if_neg (by rintro (h | h); exacts [hs h, hm h])]
      exact List.map_append

/-- A call other than an add or a remove keeps the nodes. -/
theorem hosts_exec (m : MembershipManager) (c : MemberCall) :
    (∃ now host, c = .addMember now host) ∨ (∃ host port, c = .removeMember host port) ∨
      (c.exec m).hosts = m.hosts := by
  cases c with
  | addMember now host => exact .inl ⟨now, host, rfl⟩
  | removeMember host port => exact .inr (.inl ⟨host, port, rfl⟩)
  | markAlive now host port => exact .inr (.inr (hosts_mark m host port fun _ => rfl))
  | markSuspect now host port => exact .inr (.inr (hosts_mark m host port fun _ => rfl))
  | markDead host port => exact .inr (.inr (hosts_mark m host port fun _ => rfl))
  | checkHealth now timeout => exact .inr (.inr (hosts_checkHealth m now timeout))

theorem selfNode_exec (m : MembershipManager) (c : MemberCall) : (c.exec m).selfNode = m.selfNode := by
  cases c with
  | addMember now host =>
    show (m.addMember now host).selfNode = _
    unfold addMember
    split
    · rfl
    · split <;> rfl
  | _ => rfl

/-- Self does not come into the table. -/
theorem notSelf_exec (h : m.selfNode ∉ m.hosts) (c : MemberCall) : (c.exec m).selfNode ∉ (c.exec m).hosts := by
  rw [selfNode_exec]
  rcases hosts_exec m c with ⟨now, host, rfl⟩ | ⟨host, port, rfl⟩ | he
  · show _ ∉ (m.addMember now host).hosts
    rw [hosts_addMember]
    split
    · exact h
    · rename_i hno
      rw [List.mem_append, List.mem_singleton]
      rintro (hm | rfl)
      · exact h hm
      · exact hno (.inl rfl)
  · show _ ∉ (m.removeMember host port).hosts
    rw [hosts_removeMember]
    exact fun hm => h (List.mem_of_mem_filter hm)
  · rwa [he]

/-- How often a node is listed: only removing it brings more than once down to once. -/
theorem count_exec (m : MembershipManager) (c : MemberCall) (h : HostEntity) :
    (c.exec m).hosts.count h ≤ 1 ↔ m.hosts.count h ≤ 1 ∨ c = .removeMember h.host h.port := by
  rcases hosts_exec m c with ⟨now, host, rfl⟩ | ⟨host, port, rfl⟩ | he
  · show (m.addMember now host).hosts.count h ≤ 1 ↔ _
    rw [hosts_addMember]
    split
    · simp
    · rename_i hno
      rw [List.count_append, List.count_singleton]
      by_cases hh : host = h
      · have hzero : m.hosts.count h = 0 := List.count_eq_zero.2 fun hm => hno (.inr (hh ▸ hm))
        simp [hh, hzero]
      · simp [hh]
  · show (m.removeMember host port).hosts.count h ≤ 1 ↔ _
    rw [hosts_removeMember]
    by_cases hh : h = ⟨host, port⟩
    · have hzero : (m.hosts.filter (· ≠ (⟨host, port⟩ : HostEntity))).count h = 0 :=
        List.count_eq_zero.2 fun hm => by simpa [hh] using List.of_mem_filter hm
      rw [hzero]
      simp [hh]
    · rw [List.count_filter (by simpa using hh)]
      constructor
      · exact .inl
      · rintro (hle | heq)
        · exact hle
        · cases heq
          exact absurd rfl hh
  · rw [he]
    constructor
    · exact .inl
    · rintro (hle | rfl)
      · exact hle
      · rw [← he]
        show (m.removeMember h.host h.port).hosts.count h ≤ 1
        rw [hosts_removeMember, List.count_eq_zero.2 fun hm => by simpa using List.of_mem_filter hm]
        exact Nat.zero_le 1

/-! ## Marked nodes -/

/-- Without duplicates the first entry of a node is its only one. -/
theorem mem_updateFirst {host : String} {port : UInt16} {f : MembershipEntry → MembershipEntry}
    {es : List MembershipEntry} (hnd : (es.map (·.host)).Nodup) {e : MembershipEntry}
    (he : e ∈ updateFirst (·.names host port) f es) (hhost : e.host = ⟨host, port⟩) : ∃ e₀, e = f e₀ := by
  induction es with
  | nil => cases he
  | cons e₁ es ih =>
    rw [List.map_cons, List.nodup_cons] at hnd
    unfold updateFirst at he
    by_cases h₁ : e₁.names host port = true
    · rw [if_pos h₁] at he
      rcases List.mem_cons.1 he with rfl | he
      · exact ⟨e₁, rfl⟩
      · -- another entry of the node would be a duplicate
        have hsame : e₁.host = e.host := (names_iff.1 h₁).trans hhost.symm
        exact absurd (List.mem_map.2 ⟨e, he, hsame.symm⟩) hnd.1
    · rw [if_neg h₁] at he
      rcases List.mem_cons.1 he with rfl | he
      · exact absurd (names_iff.2 hhost) h₁
      · exact ih hnd.2 he

/-- A node whose entries are not alive is not routed to. -/
theorem excludes_of_not_alive {host : String} {port : UInt16}
    (h : ∀ e ∈ m.members, e.host = ⟨host, port⟩ → e.state ≠ .alive) : m.Excludes host port := by
  constructor
  · rw [← Bool.not_eq_true, isAlive, List.any_eq_true]
    rintro ⟨e, he, hb⟩
    rw [Bool.and_eq_true, names_iff, decide_eq_true_iff] at hb
    exact h e he hb.1 hb.2
  · intro key hkey
    obtain ⟨e, he, hhost⟩ := List.mem_map.1 (List.mem_of_getElem? hkey)
    rw [List.mem_filter, decide_eq_true_iff] at he
    exact h e he.1 hhost he.2

theorem excludes_mark (hnd : m.hosts.Nodup) {host : String} {port : UInt16} {f : MembershipEntry → MembershipEntry}
    (hstate : ∀ e, (f e).state ≠ .alive) :
    (m.mark host port f).Excludes host port := by
  apply excludes_of_not_alive
  intro e he hhost
  obtain ⟨e₀, rfl⟩ := mem_updateFirst hnd he hhost
  exact hstate e₀

theorem sound_of_distinct (hnd : m.hosts.Nodup) (hself : m.selfNode ∉ m.hosts) : m.Sound where
  distinct := hnd
  notSelf := hself
  dead _ _ := excludes_mark hnd fun _ h => by cases h
  suspect _ _ _ := excludes_mark hnd fun _ h => by cases h

/-! ## Runs -/

theorem notSelf_run (h : m.selfNode ∉ m.hosts) (calls : List MemberCall) :
    (m.run calls).selfNode ∉ (m.run calls).hosts := by
  induction calls generalizing m with
  | nil => exact h
  | cons c calls ih => exact ih (notSelf_exec h c)

theorem count_run (m : MembershipManager) (calls : List MemberCall) (h : HostEntity) :
    (m.run calls).hosts.count h ≤ 1 ↔ m.hosts.count h ≤ 1 ∨ .removeMember h.host h.port ∈ calls := by
  induction calls generalizing m with
  | nil => simp [run]
  | cons c calls ih =>
    have hrun : (m.run (c :: calls)).hosts.count h ≤ 1 ↔ _ := ih (c.exec m)
    rw [hrun, count_exec, List.mem_cons, or_assoc, eq_comm]

theorem hosts_new (now : Nat) (selfHost : HostEntity) (initialMembers : List HostEntity) :
    (new now selfHost initialMembers).hosts = initialMembers.filter (· ≠ selfHost) := by
  unfold hosts new
  rw [List.map_map]
  exact List.map_id _

/-- The table is without duplicates and without self, and a node marked dead or suspect is neither
alive nor routed to, exactly if each node other than self that the initial list names more than once
was removed in between. -/
theorem members_sound_iff (now : Nat) (selfHost : HostEntity) (initialMembers : List HostEntity)
    (calls : List MemberCall) :
    ((new now selfHost initialMembers).run calls).Sound ↔
      ∀ h, h ≠ selfHost → initialMembers.count h ≤ 1 ∨ .removeMember h.host h.port ∈ calls := by
  have hself : (new now selfHost initialMembers).selfNode ∉ (new now selfHost initialMembers).hosts := by
    rw [hosts_new]
    exact fun hm => by simpa [new] using List.of_mem_filter hm
  have hcount : ∀ h, h ≠ selfHost → (new now selfHost initialMembers).hosts.count h = initialMembers.count h := by
    intro h hne
    rw [hosts_new, List.count_filter (by simpa using hne)]
  constructor
  · intro hs h hne
    rw [← hcount h hne, ← count_run]
    exact List.nodup_iff_count_le_one.1 hs.distinct h
  · intro hall
    refine sound_of_distinct (List.nodup_iff_count_le_one.2 fun h => ?_) (notSelf_run hself calls)
    rw [count_run]
    by_cases hh : h = selfHost
    · left
      rw [hosts_new, List.count_eq_zero.2 fun hm => by simpa [hh] using List.of_mem_filter hm]
      exact Nat.zero_le 1
    · rw [hcount h hh]
      exact hall h hh

/-- A neighbour list that names `b` twice: after `b` is marked dead it is alive and owns every key. -/
theorem marked_dead_stays_alive :
    let m := ((new 0 ⟨"a", 1⟩ [⟨"b", 2⟩, ⟨"b", 2⟩]).run []).markDead "b" 2
    m.isAlive "b" 2 = true ∧ m.resolveNode "k" = some ⟨"b", 2⟩ ∧
      ¬ ((new 0 ⟨"a", 1⟩ [⟨"b", 2⟩, ⟨"b", 2⟩]).run []).Sound := by
  refine ⟨by decide, by decide, fun h => ?_⟩
  exact absurd h.distinct (by decide)

end MembershipManager

end Zht
