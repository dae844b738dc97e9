/-
The health of a member over any calls. What the table says of one node moves by the calls about that
node and by the health checks alone; `alive_iff` says when it is alive: its last placement or heartbeat
came after every mark and removal, and every check since then was made in time.
-/
import Zht.Server.MemberCalls

namespace Zht

namespace MembershipManager

variable {m : MembershipManager} {h : HostEntity}

/-! ## One node -/

/-- What the table says of a node: its state and the instant of its last heartbeat. -/
def health (m : MembershipManager) (h : HostEntity) : Option (NodeState × Nat) :=
  (m.members.find? (·.host = h)).map fun e => (e.state, e.lastHeartbeat)

/-- What a call makes of that. -/
def lifeStep (self h : HostEntity) : Option (NodeState × Nat) → MemberCall → Option (NodeState × Nat)
  | life, .addMember now host => if host = h ∧ h ≠ self ∧ life = none then some (.alive, now) else life
  | life, .removeMember host port => if h = ⟨host, port⟩ then none else life
  | life, .markAlive now host port => if h = ⟨host, port⟩ then life.map fun _ => (.alive, now) else life
  | life, .markSuspect now host port => if h = ⟨host, port⟩ then life.map fun _ => (.suspect, now) else life
  | life, .markDead host port => if h = ⟨host, port⟩ then life.map fun l => (.dead, l.2) else life
  | life, .checkHealth now timeout =>
    life.map fun l => if l.1 = .alive ∧ timeout < now - l.2 then (.suspect, l.2) else l

/-- The first entry of a node is the one found. -/
theorem find_updateFirst {host : String} {port : UInt16} {f : MembershipEntry → MembershipEntry}
    (hf : ∀ e, (f e).host = e.host) (h : HostEntity) (es : List MembershipEntry) :
    (updateFirst (·.names host port) f es).find? (·.host = h) =
      if h = ⟨host, port⟩ then (es.find? (·.host = h)).map f else es.find? (·.host = h) := by
  induction es with
  | nil =>
    show none = _
    split <;> rfl
  | cons e es ih =>
    unfold updateFirst
    by_cases hn : e.names host port = true
    · have hhost := names_iff.1 hn
      rw [if_pos hn]
      by_cases hh : h = ⟨host, port⟩
      · rw [if_pos hh, List.find?_cons_of_pos (by simp [hf, hhost, hh]), List.find?_cons_of_pos (by simp [hhost, hh])]
        rfl
      · have hne : e.host ≠ h := fun he => hh (he.symm.trans hhost)
        rw [if_neg hh, List.find?_cons_of_neg (by simp [hf, hne]), List.find?_cons_of_neg (by simp [hne])]
    · rw [if_neg hn]
      by_cases he : e.host = h
      · have hh : h ≠ ⟨host, port⟩ := fun hh => hn (names_iff.2 (he.trans hh))
        rw [List.find?_cons_of_pos (by simp [he]), List.find?_cons_of_pos (by simp [he]), if_neg hh]
      · rw [List.find?_cons_of_neg (by simp [he]), List.find?_cons_of_neg (by simp [he]), ih]

theorem health_mark {host : String} {port : UInt16} {f : MembershipEntry → MembershipEntry}
    {g : NodeState × Nat → NodeState × Nat} (hf : ∀ e, (f e).host = e.host)
    (hg : ∀ e, ((f e).state, (f e).lastHeartbeat) = g (e.state, e.lastHeartbeat)) :
    (m.mark host port f).health h = if h = ⟨host, port⟩ then (m.health h).map g else m.health h := by
  unfold health mark
  rw [find_updateFirst hf]
  split
  · rw [Option.map_map, Option.map_map]
    congr 1
    funext e
    exact hg e
  · rfl

theorem health_eq_none_iff : m.health h = none ↔ h ∉ m.hosts := by
  simp [health, hosts]

/-- Each node's health is a machine of its own: a call moves it whatever the other entries are. -/
theorem health_exec (m : MembershipManager) (h : HostEntity) (c : MemberCall) :
    (c.exec m).health h = lifeStep m.selfNode h (m.health h) c := by
  cases c with
  | addMember now host =>
    simp only [MemberCall.exec, lifeStep, health_eq_none_iff]
    unfold addMember
    have hany : m.members.any (·.host = host) = true ↔ host ∈ m.hosts := by simp [hosts]
    by_cases hself : host = m.selfNode
    · rw [if_pos hself, if_neg (by rintro ⟨rfl, hne, -⟩; exact hne hself)]
    · rw [if_neg hself]
      by_cases hmem : host ∈ m.hosts
      · rw [if_pos (hany.2 hmem), if_neg (by rintro ⟨rfl, -, hno⟩; exact hno hmem)]
      · rw [if_neg fun he => hmem (hany.1 he)]
        unfold health
        rw [List.find?_append]
        by_cases hh : host = h
        · subst hh
          have hnone : m.members.find? (·.host = host) = none := by
            simpa [health] using health_eq_none_iff.2 hmem
          rw [if_pos ⟨rfl, hself, hmem⟩, hnone]
          simp
        · rw [if_neg fun he => hh he.1]
          simp [hh]
  | removeMember host port =>
    show (m.removeMember host port).health h = if _ then _ else _
    unfold health removeMember
    rw [List.find?_filter]
    split
    · rename_i hh
      rw [Option.map_eq_none_iff, List.find?_eq_none]
      intro e _ he
      rw [decide_eq_true_iff, decide_eq_true_iff, Bool.not_eq_true', ← Bool.not_eq_true] at he
      exact he.1 (names_iff.2 (he.2.trans hh))
    · rename_i hh
      congr 2
      funext e
      rw [Bool.eq_iff_iff, decide_eq_true_iff, decide_eq_true_iff, Bool.not_eq_true', ← Bool.not_eq_true, names_iff]
      exact ⟨And.right, fun he => ⟨fun hn => hh (he.symm.trans hn), he⟩⟩
  | markAlive now host port => exact health_mark (g := fun _ => (.alive, now)) (fun _ => rfl) fun _ => rfl
  | markSuspect now host port => exact health_mark (g := fun _ => (.suspect, now)) (fun _ => rfl) fun _ => rfl
  | markDead host port => exact health_mark (g := fun l => (.dead, l.2)) (fun _ => rfl) fun _ => rfl
  | checkHealth now timeout =>
    show (m.checkHealth now timeout).health h = Option.map _ _
    unfold health checkHealth
    have hhost : ∀ e : MembershipEntry, (if e.state = .alive ∧ timeout < now - e.lastHeartbeat
        then { e with state := .suspect } else e).host = e.host := by
      intro e
      split <;> rfl
    rw [List.find?_map, Option.map_map, Option.map_map]
    congr 1
    · funext e
      rw [Function.comp_apply, Function.comp_apply]
      split <;> rfl
    · congr 1
      funext e
      rw [Function.comp_apply, hhost]

/-! ## Being alive -/

/-- The call puts the node into the table, or is its heartbeat. -/
def Revives (m : MembershipManager) (h : HostEntity) (t : Nat) (c : MemberCall) : Prop :=
  (c = .markAlive t h.host h.port ∧ h ∈ m.hosts) ∨ (c = .addMember t h ∧ h ∉ m.hosts ∧ h ≠ m.selfNode)

/-- The call leaves a node whose last heartbeat was at `t` alive, without renewing it. -/
def Spares (h : HostEntity) (t : Nat) : MemberCall → Prop
  | .addMember _ _ => True
  | .removeMember host port | .markAlive _ host port | .markSuspect _ host port | .markDead host port =>
    h ≠ ⟨host, port⟩
  | .checkHealth now timeout => now - t ≤ timeout

theorem revives_iff {t : Nat} {c : MemberCall} :
    m.Revives h t c ↔ (c = .markAlive t h.host h.port ∧ m.health h ≠ none) ∨
      (c = .addMember t h ∧ m.health h = none ∧ h ≠ m.selfNode) := by
  simp only [Revives, ne_eq, health_eq_none_iff, not_not]

/-- The step: a node is alive since `t` if it was and is spared, or is revived. -/
theorem alive_exec {t : Nat} {c : MemberCall} :
    (c.exec m).health h = some (.alive, t) ↔
      (m.health h = some (.alive, t) ∧ Spares h t c) ∨ m.Revives h t c := by
  rw [health_exec, revives_iff]
  obtain ⟨name, port⟩ := h
  cases c with
  | addMember now host =>
    cases hl : m.health ⟨name, port⟩ <;> grind [lifeStep, Spares]
  | removeMember host port' => grind [lifeStep, Spares]
  | markAlive now host port' =>
    cases hl : m.health ⟨name, port⟩ <;> grind [lifeStep, Spares]
  | markSuspect now host port' =>
    cases hl : m.health ⟨name, port⟩ <;> grind [lifeStep, Spares]
  | markDead host port' =>
    cases hl : m.health ⟨name, port⟩ <;> grind [lifeStep, Spares]
  | checkHealth now timeout =>
    cases hl : m.health ⟨name, port⟩ <;> grind [lifeStep, Spares]

/-- The run: alive from the start and spared all along, or spared since it was revived last. -/
theorem alive_run {t : Nat} {calls : List MemberCall} :
    (m.run calls).health h = some (.alive, t) ↔
      (m.health h = some (.alive, t) ∧ ∀ c ∈ calls, Spares h t c) ∨
        ∃ before c after, calls = before ++ c :: after ∧ (m.run before).Revives h t c ∧
          ∀ d ∈ after, Spares h t d := by
  induction calls generalizing m with
  | nil => simp [run]
  | cons c calls ih =>
    have hrun : m.run (c :: calls) = (c.exec m).run calls := rfl
    rw [hrun, ih, alive_exec]
    constructor
    · rintro (⟨⟨halive, hspare⟩ | hrevive, hrest⟩ | ⟨before, d, after, rfl, hrevive, hrest⟩)
      · exact .inl ⟨halive, List.forall_mem_cons.2 ⟨hspare, hrest⟩⟩
      · exact .inr ⟨[], c, calls, rfl, hrevive, hrest⟩
      · exact .inr ⟨c :: before, d, after, rfl, hrevive, hrest⟩
    · rintro (⟨halive, hspare⟩ | ⟨before, d, after, hparts, hrevive, hrest⟩)
      · obtain ⟨hc, hcalls⟩ := List.forall_mem_cons.1 hspare
        exact .inl ⟨.inl ⟨halive, hc⟩, hcalls⟩
      · cases before with
        | nil =>
          rw [List.nil_append, List.cons.injEq] at hparts
          obtain ⟨rfl, rfl⟩ := hparts
          exact .inl ⟨.inr hrevive, hrest⟩
        | cons b before =>
          rw [List.cons_append, List.cons.injEq] at hparts
          obtain ⟨rfl, rfl⟩ := hparts
          exact .inr ⟨before, d, after, rfl, hrevive, hrest⟩

/-- Of a node that is listed at most once, the first entry says whether it is alive. -/
theorem isAlive_iff (hcount : m.hosts.count h ≤ 1) :
    m.isAlive h.host h.port = true ↔ ∃ t, m.health h = some (.alive, t) := by
  rw [isAlive, List.any_eq_true, health]
  unfold hosts at hcount
  constructor
  · rintro ⟨e, he, hb⟩
    rw [Bool.and_eq_true, names_iff, decide_eq_true_iff] at hb
    have hfind : m.members.find? (·.host = h) = some e := by
      obtain ⟨before, after, hparts⟩ := List.append_of_mem he
      rw [hparts, List.find?_append]
      have hbefore : before.find? (·.host = h) = none := by
        rw [List.find?_eq_none]
        intro d hd hdh
        have hhost : d.host = h := by simpa using hdh
        have hone : 0 < (before.map (·.host)).count h :=
          List.count_pos_iff.2 (hhost ▸ List.mem_map_of_mem hd)
        rw [hparts, List.map_append, List.map_cons, List.count_append, List.count_cons] at hcount
        simp only [hb.1, beq_self_eq_true, if_true] at hcount
        omega
      rw [hbefore, List.find?_cons_of_pos (by simp [hb.1])]
      rfl
    exact ⟨e.lastHeartbeat, by rw [hfind, Option.map_some, hb.2]⟩
  · rintro ⟨t, ht⟩
    obtain ⟨e, he, hpair⟩ := Option.map_eq_some_iff.1 ht
    refine ⟨e, List.mem_of_find?_eq_some he, ?_⟩
    rw [Bool.and_eq_true, names_iff, decide_eq_true_iff]
    exact ⟨by simpa using List.find?_some he, congrArg Prod.fst hpair⟩

theorem mem_activeMembers_iff : h ∈ m.activeMembers ↔ m.isAlive h.host h.port = true := by
  rw [activeMembers, isAlive, List.any_eq_true, List.mem_map]
  constructor
  · rintro ⟨e, he, rfl⟩
    rw [List.mem_filter, decide_eq_true_iff] at he
    exact ⟨e, he.1, by rw [Bool.and_eq_true, names_iff, decide_eq_true_iff]; exact ⟨rfl, he.2⟩⟩
  · rintro ⟨e, he, hb⟩
    rw [Bool.and_eq_true, names_iff, decide_eq_true_iff] at hb
    exact ⟨e, List.mem_filter.2 ⟨he, by simpa using hb.2⟩, hb.1⟩

theorem health_new (now : Nat) (selfHost : HostEntity) (initialMembers : List HostEntity) (h : HostEntity) :
    (new now selfHost initialMembers).health h =
      if h ∈ initialMembers ∧ h ≠ selfHost then some (.alive, now) else none := by
  split
  · rename_i hin
    have hmem : h ∈ (new now selfHost initialMembers).hosts := by
      rw [hosts_new, List.mem_filter]
      exact ⟨hin.1, by simpa using hin.2⟩
    obtain ⟨life, hlife⟩ := Option.ne_none_iff_exists'.1 (mt health_eq_none_iff.1 (not_not.2 hmem))
    obtain ⟨e, he, rfl⟩ := Option.map_eq_some_iff.1 hlife
    obtain ⟨host, -, rfl⟩ := List.mem_map.1 (List.mem_of_find?_eq_some he)
    exact hlife
  · rename_i hout
    rw [health_eq_none_iff, hosts_new, List.mem_filter]
    exact fun hm => hout ⟨hm.1, by simpa using hm.2⟩

/-- A node is alive, and among those routed to, exactly if it was placed or last heard of at some instant
after which it was neither removed nor marked and every health check was made within its timeout. -/
theorem alive_iff (now : Nat) (selfHost : HostEntity) (initialMembers : List HostEntity) (calls : List MemberCall)
    (h : HostEntity) (hcount : initialMembers.count h ≤ 1) :
    let start := new now selfHost initialMembers
    (h ∈ (start.run calls).activeMembers ↔ (start.run calls).isAlive h.host h.port = true) ∧
      ((start.run calls).isAlive h.host h.port = true ↔
        ((h ∈ initialMembers ∧ h ≠ selfHost ∧ ∀ c ∈ calls, Spares h now c) ∨
          ∃ t before c after, calls = before ++ c :: after ∧ (start.run before).Revives h t c ∧
            ∀ d ∈ after, Spares h t d)) := by
  intro start
  refine ⟨mem_activeMembers_iff, ?_⟩
  have hrun : (start.run calls).hosts.count h ≤ 1 := by
    rw [count_run]
    refine .inl (le_trans ?_ hcount)
    rw [hosts_new]
    exact List.filter_sublist.count_le h
  rw [isAlive_iff hrun]
  simp only [alive_run]
  rw [health_new]
  constructor
  · rintro ⟨t, ⟨hstart, hspare⟩ | hrevived⟩
    · split at hstart
      · rename_i hin
        cases hstart
        exact .inl ⟨hin.1, hin.2, hspare⟩
      · cases hstart
    · exact .inr ⟨t, hrevived⟩
  · rintro (⟨hin, hself, hspare⟩ | ⟨t, hrevived⟩)
    · exact ⟨now, .inl ⟨if_pos ⟨hin, hself⟩, hspare⟩⟩
    · exact ⟨t, .inr hrevived⟩

/-- A member that is marked suspect and heard of again before a check in time. -/
theorem alive_iff_heard :
    ((new 0 ⟨"a", 1⟩ [⟨"b", 2⟩]).run [.markSuspect 5 "b" 2, .markAlive 70 "b" 2, .checkHealth 90 60]).isAlive "b" 2 =
      true :=
  (alive_iff 0 ⟨"a", 1⟩ [⟨"b", 2⟩] [.markSuspect 5 "b" 2, .markAlive 70 "b" 2, .checkHealth 90 60] ⟨"b", 2⟩
    (by decide)).2.2 (.inr ⟨70, [.markSuspect 5 "b" 2], .markAlive 70 "b" 2, [.checkHealth 90 60], rfl,
      .inl ⟨rfl, by decide⟩, by simp [Spares]⟩)

end MembershipManager

end Zht
