/-
A check that is left to itself and whose requests are answered comes to its end: every key that another
member owns has left the node's server by then and is served by that member with the value it had, and
every other key is where it was (`check_hands_over`).
-/
import Zht.Server.Handover

namespace Zht

open Lib Lib.Utf8

namespace ServerCluster

/-! ## The state of a check -/

/-- The `i`-th check of the node is there. -/
def At (s : ServerCluster) (n : HostEntity) (i : Nat) (phase : CheckPhase) : Prop :=
  (s.nodes n).checks[i]? = some phase

section Moves

variable {c : Codec} {s : ServerCluster} {n : HostEntity} {i : Nat} {phase : CheckPhase}

theorem step_check (h : s.At n i phase) (timeout : Nat) (ords : MigrationOrders) (fate : Fate) :
    (s.step c timeout (.check n i ords fate)).2 = s.move c n i fate (phase.next ords (s.nodes n).server) := by
  unfold step
  simp only [show (s.nodes n).checks[i]? = some phase from h]

theorem At.setCheck (h : s.At n i phase) {s' : ServerCluster} (hs : (s'.nodes n).checks = (s.nodes n).checks)
    (phase' : CheckPhase) : (s'.setCheck n i phase').At n i phase' := by
  unfold At
  rw [checks_setCheck, if_pos rfl, hs]
  exact List.getElem?_set_self (List.getElem?_eq_some_iff.1 h).1

theorem stored_setCheck (s : ServerCluster) (n : HostEntity) (i : Nat) (phase : CheckPhase) (m : HostEntity)
    (k : String) : (s.setCheck n i phase).stored m k = s.stored m k := by
  rw [stored, server_setCheck, stored]

theorem served_setCheck (s : ServerCluster) (n : HostEntity) (i : Nat) (phase : CheckPhase) (m : HostEntity)
    (k : String) : (s.setCheck n i phase).served m k = s.served m k := by
  rw [served, server_setCheck, served]

theorem stored_setServer (s : ServerCluster) (n : HostEntity) (server : ZHTServer) (m : HostEntity) (k : String) :
    (s.setServer n server).stored m k = if m = n then server.store.map.lookup k else s.stored m k := by
  unfold stored
  rw [server_setServer]
  split <;> rfl

theorem served_setServer (s : ServerCluster) (n : HostEntity) (server : ZHTServer) (m : HostEntity) (k : String) :
    (s.setServer n server).served m k = if m = n then server.worker.store.map.lookup k else s.served m k := by
  unfold served
  rw [server_setServer]
  split <;> rfl

end Moves

/-- The node stores, and all nodes serve, the same in both states. -/
structure SameTables (s s' : ServerCluster) (n : HostEntity) : Prop where
  stored : ∀ k, s'.stored n k = s.stored n k
  served : ∀ m k, s'.served m k = s.served m k

theorem SameTables.trans {s₁ s₂ s₃ : ServerCluster} {n : HostEntity} (h : s₁.SameTables s₂ n)
    (h' : s₂.SameTables s₃ n) : s₁.SameTables s₃ n :=
  ⟨fun k => (h'.stored k).trans (h.stored k), fun m k => (h'.served m k).trans (h.served m k)⟩

section Phases

variable (c : Codec) (timeout : Nat) (n : HostEntity) (i : Nat) (ords : MigrationOrders)

/-- The check comes to a state with the property, if it is left to itself and answered. -/
abbrev LeadsTo (P : ServerCluster → Prop) (s : ServerCluster) : Prop :=
  Machine.Leads (step c timeout) (.check n i ords (.answered 0)) P s

variable {c timeout n i ords} {s : ServerCluster} {target : HostEntity} {keys : List String}
  {snapshot : List (String × String)} {later : List (String × HostEntity × List String)}

/-- The check moves on without touching a table. -/
theorem leadsTo_stays {phase phase' : CheckPhase} {server : ZHTServer} (h : s.At n i phase)
    (hnext : phase.next ords (s.nodes n).server = .stays phase' server)
    (hstore : server.store = (s.nodes n).server.store) (hworker : server.worker = (s.nodes n).server.worker) :
    LeadsTo c timeout n i ords
      (fun s' => s'.At n i phase' ∧ (s'.nodes n).server = server ∧ s.SameTables s' n) s := by
  apply Machine.Leads.next
  rw [step_check h, hnext]
  refine .here ⟨h.setCheck (checks_setServer s n n server) phase', ?_, fun k => ?_, fun m k => ?_⟩
  · show (((s.setServer n server).setCheck n i phase').nodes n).server = _
    rw [server_setCheck, server_setServer, if_pos rfl]
  · show ((s.setServer n server).setCheck n i phase').stored n k = _
    rw [stored_setCheck, stored_setServer, if_pos rfl, hstore, stored]
  · show ((s.setServer n server).setCheck n i phase').served m k = _
    rw [served_setCheck, served_setServer, hworker]
    split
    · next hm => rw [hm, served]
    · rfl

/-- The check lists the keys that move. -/
theorem leadsTo_start (h : s.At n i .entered) (hon : (s.nodes n).server.migration.migrationEnabled = true)
    (hidle : (s.nodes n).server.migration.migrating = false) :
    let groups := (s.nodes n).server.migration.groups ords (s.nodes n).server.store
    LeadsTo c timeout n i ords (fun s' => s.SameTables s' n ∧ (s'.At n i (.running (.groups groups)) ∨
      groups = [] ∧ s'.At n i (.running .finished) ∧ (s'.nodes n).server.migration.migrating = false)) s := by
  intro groups
  have hpass : CheckPhase.entered.next ords (s.nodes n).server = .stays .passed (s.nodes n).server := by
    simp only [CheckPhase.next, hon, hidle, Bool.true_eq_false, Bool.false_eq_true, or_self, if_false]
  refine (leadsTo_stays h hpass rfl rfl).trans ?_
  rintro s₁ ⟨hat₁, hserver₁, hsame₁⟩
  have hlist : (s₁.nodes n).server.migration.groups ords (s₁.nodes n).server.store = groups := by rw [hserver₁]
  cases hgroups : groups with
  | nil =>
    have hnext : CheckPhase.passed.next ords (s₁.nodes n).server =
        .stays (.running .finished) (s₁.nodes n).server := by
      simp only [CheckPhase.next, hlist.trans hgroups]
    refine (leadsTo_stays hat₁ hnext rfl rfl).trans ?_
    rintro s' ⟨hat, hserver, hsame⟩
    exact .here ⟨hsame₁.trans hsame, .inr ⟨rfl, hat, by rw [hserver, hserver₁, hidle]⟩⟩
  | cons g later =>
    have hnext : CheckPhase.passed.next ords (s₁.nodes n).server =
        .stays (.running (.groups (g :: later))) ((s₁.nodes n).server.setMigrating true) := by
      simp only [CheckPhase.next, hlist.trans hgroups]
    refine (leadsTo_stays hat₁ hnext rfl rfl).trans ?_
    rintro s' ⟨hat, -, hsame⟩
    exact .here ⟨hsame₁.trans hsame, .inl hat⟩

/-- One pair goes out and is answered. -/
theorem leadsTo_sends {key value : String} {rest : List (String × String)} (hkey : key ∈ keys)
    (h : s.At n i (.running (.sending target keys snapshot ((key, value) :: rest) later))) :
    LeadsTo c timeout n i ords (fun s' => s'.At n i (.running (.sending target keys snapshot rest later)) ∧
      (∀ k, s'.stored n k = s.stored n k) ∧
      ∀ m k, k ≠ "" → s'.served m k = if m = target ∧ key = k then some value else s.served m k) s := by
  apply Machine.Leads.next
  rw [step_check h]
  simp only [CheckPhase.next, MigrationTask.next, hkey, not_true_eq_false, if_false]
  have hchecks : (((s.post (target, migrationRequest key value) 0).receive c (target, migrationRequest key value)).nodes
      n).checks = (s.nodes n).checks := checks_setServer _ _ _ _
  refine .here ⟨h.setCheck hchecks _, fun k => ?_, fun m k hk => ?_⟩
  · show (((s.post _ 0).receive c _).setCheck n i _).stored n k = _
    rw [stored_setCheck, stored_receive]
    rfl
  · show (((s.post _ 0).receive c _).setCheck n i _).served m k = _
    rw [served_setCheck, served_receive_pair c _ m target key value hk]
    rfl

/-- The pairs of a snapshot go out one by one. -/
theorem leadsTo_sending {rest : List (String × String)} (hnodup : (rest.map Prod.fst).Nodup)
    (h : s.At n i (.running (.sending target keys snapshot rest later))) :
    LeadsTo c timeout n i ords (fun s' => s'.At n i (.running (.removing target snapshot keys later)) ∧
      (∀ k, s'.stored n k = s.stored n k) ∧
      ∀ k, k ≠ "" → (∀ value, (k, value) ∈ rest → k ∈ keys → s'.served target k = some value) ∧
        ∀ m, (m = target → k ∈ keys → ∀ value, (k, value) ∉ rest) → s'.served m k = s.served m k) s := by
  induction rest generalizing s with
  | nil =>
    refine (leadsTo_stays h rfl rfl rfl).trans ?_
    rintro s' ⟨hat, -, hsame⟩
    refine .here ⟨hat, hsame.stored, fun k _ => ⟨fun value hmem => ?_, fun m _ => ?_⟩⟩
    · cases hmem
    · exact hsame.served m k
  | cons pair rest ih =>
    obtain ⟨key, value⟩ := pair
    obtain ⟨hfresh, hnodup'⟩ := List.nodup_cons.1 hnodup
    by_cases hkey : key ∈ keys
    · refine (leadsTo_sends hkey h).trans ?_
      rintro s₁ ⟨hat₁, hstored₁, hserved₁⟩
      refine (ih hnodup' hat₁).trans ?_
      rintro s' ⟨hat, hstored, hserved⟩
      refine .here ⟨hat, fun k => (hstored k).trans (hstored₁ k), fun k hk => ?_⟩
      obtain ⟨hsent, hother⟩ := hserved k hk
      refine ⟨fun v hmem hkeys => ?_, fun m hm => ?_⟩
      · rcases List.mem_cons.1 hmem with heq | hmem
        -- the pair at hand is not sent again
        · obtain ⟨rfl, rfl⟩ := Prod.mk.inj heq
          rw [hother target fun _ _ v hv => hfresh (List.mem_map.2 ⟨_, hv, rfl⟩), hserved₁ target k hk,
            if_pos ⟨rfl, rfl⟩]
        · exact hsent v hmem hkeys
      · rw [hother m fun hmt hkeys v hv => hm hmt hkeys v (List.mem_cons_of_mem _ hv), hserved₁ m k hk, if_neg]
        rintro ⟨hmt, rfl⟩
        exact hm hmt hkey value List.mem_cons_self
    · have hnext : (CheckPhase.running (.sending target keys snapshot ((key, value) :: rest) later)).next ords
          (s.nodes n).server = .stays (.running (.sending target keys snapshot rest later)) (s.nodes n).server := by
        simp only [CheckPhase.next, MigrationTask.next, hkey, not_false_eq_true, if_true, reduceCtorEq, if_false]
      refine (leadsTo_stays h hnext rfl rfl).trans ?_
      rintro s₁ ⟨hat₁, -, hsame⟩
      refine (ih hnodup' hat₁).trans ?_
      rintro s' ⟨hat, hstored, hserved⟩
      refine .here ⟨hat, fun k => (hstored k).trans (hsame.stored k), fun k hk => ?_⟩
      obtain ⟨hsent, hother⟩ := hserved k hk
      refine ⟨fun v hmem hkeys => ?_, fun m hm => ?_⟩
      · rcases List.mem_cons.1 hmem with heq | hmem
        · cases heq
          exact absurd hkeys hkey
        · exact hsent v hmem hkeys
      · rw [hother m fun hmt hkeys v hv => hm hmt hkeys v (List.mem_cons_of_mem _ hv), hsame.served]

/-- The keys of a group are removed one by one. -/
theorem leadsTo_removing {left : List String} (h : s.At n i (.running (.removing target snapshot left later))) :
    LeadsTo c timeout n i ords (fun s' => s'.At n i (.running (.groups later)) ∧
      (∀ k, s'.stored n k = if k ∈ left then none else s.stored n k) ∧
      ∀ m k, s'.served m k = s.served m k) s := by
  induction left generalizing s with
  | nil =>
    refine (leadsTo_stays h rfl rfl rfl).trans ?_
    rintro s' ⟨hat, -, hsame⟩
    refine .here ⟨hat, fun k => ?_, hsame.served⟩
    rw [if_neg List.not_mem_nil, hsame.stored]
  | cons key left ih =>
    apply Machine.Leads.next
    rw [step_check h]
    refine (ih (h.setCheck (checks_setServer s n n _) _)).trans ?_
    rintro s' ⟨hat, hstored, hserved⟩
    refine .here ⟨hat, fun k => ?_, fun m k => (hserved m k).trans ?_⟩
    · rw [hstored, stored_setCheck, stored_setServer, if_pos rfl, remove_lookup]
      by_cases hk : k = key
      · simp [hk]
      · simp [hk, stored]
    · rw [served_setCheck, served_setServer]
      split
      · next hm => rw [hm, served]
      · rfl

/-- A group is worked through. -/
theorem leadsTo_group {addr : String} (h : s.At n i (.running (.groups ((addr, target, keys) :: later)))) :
    LeadsTo c timeout n i ords (fun s' => s'.At n i (.running (.groups later)) ∧
      (∀ k, s'.stored n k = if k ∈ keys then none else s.stored n k) ∧
      ∀ k, k ≠ "" → (∀ value, s.stored n k = some value → k ∈ keys → s'.served target k = some value) ∧
        ∀ m, (m = target → k ∉ keys) → s'.served m k = s.served m k) s := by
  by_cases hempty : keys = []
  · subst hempty
    have hnext : (CheckPhase.running (.groups ((addr, target, []) :: later))).next ords (s.nodes n).server =
        .stays (.running (.groups later)) (s.nodes n).server := by
      simp only [CheckPhase.next, MigrationTask.next, if_true, MigrationTask.groups.injEq, reduceCtorEq, if_false]
    refine (leadsTo_stays h hnext rfl rfl).trans ?_
    rintro s' ⟨hat, -, hsame⟩
    refine .here ⟨hat, fun k => ?_, fun k _ => ⟨fun value _ hmem => ?_, fun m _ => hsame.served m k⟩⟩
    · rw [if_neg List.not_mem_nil, hsame.stored]
    · cases hmem
  · have hnext : (CheckPhase.running (.groups ((addr, target, keys) :: later))).next ords (s.nodes n).server =
        .stays (.running (.sending target keys (ords.entries.entries (s.nodes n).server.store.map)
          (ords.entries.entries (s.nodes n).server.store.map) later)) (s.nodes n).server := by
      simp only [CheckPhase.next, MigrationTask.next, hempty, if_false, MigrationTask.groups.injEq, reduceCtorEq]
    refine (leadsTo_stays h hnext rfl rfl).trans ?_
    rintro s₁ ⟨hat₁, -, hsame⟩
    refine (leadsTo_sending (ords.entries.nodup _) hat₁).trans ?_
    rintro s₂ ⟨hat₂, hstored₂, hserved₂⟩
    refine (leadsTo_removing hat₂).trans ?_
    rintro s' ⟨hat, hstored, hserved⟩
    refine .here ⟨hat, fun k => ?_, fun k hk => ⟨fun value hv hkeys => ?_, fun m hm => ?_⟩⟩
    · rw [hstored, hstored₂, hsame.stored]
    · rw [hserved]
      exact (hserved₂ k hk).1 value ((ords.entries.mem _ _ _).2 hv) hkeys
    · rw [hserved, (hserved₂ k hk).2 m fun hmt hkeys => absurd hkeys (hm hmt), hsame.served]

/-- What a node stores of a key, and what the others serve, when the groups are worked through. -/
structure HandsOver (groups : List (String × HostEntity × List String)) (n : HostEntity) (s s' : ServerCluster)
    (k : String) : Prop where
  moved : ∀ g ∈ groups, k ∈ g.2.2 →
    s'.stored n k = none ∧ ∀ value, s.stored n k = some value → s'.served g.2.1 k = some value
  left : (∀ g ∈ groups, k ∉ g.2.2) → s'.stored n k = s.stored n k ∧ ∀ m, s'.served m k = s.served m k

theorem leadsTo_groups {groups : List (String × HostEntity × List String)} (hdisjoint : DisjointGroups groups)
    (h : s.At n i (.running (.groups groups))) :
    LeadsTo c timeout n i ords (fun s' => s'.At n i (.running .finished) ∧
      (s'.nodes n).server.migration.migrating = false ∧ ∀ k, k ≠ "" → HandsOver groups n s s' k) s := by
  induction groups generalizing s with
  | nil =>
    refine (leadsTo_stays h rfl rfl rfl).trans ?_
    rintro s' ⟨hat, hserver, hsame⟩
    refine .here ⟨hat, by rw [hserver]; rfl, fun k _ =>
      ⟨fun g hg => ?_, fun _ => ⟨hsame.stored k, fun m => ?_⟩⟩⟩
    · cases hg
    · exact hsame.served m k
  | cons g groups ih =>
    obtain ⟨addr, target, keys⟩ := g
    obtain ⟨hhead, htail⟩ := List.pairwise_cons.1 hdisjoint
    refine (leadsTo_group h).trans ?_
    rintro s₁ ⟨hat₁, hstored₁, hserved₁⟩
    refine (ih htail hat₁).trans ?_
    rintro s' ⟨hat, hmig, hrest⟩
    refine .here ⟨hat, hmig, fun k hk => ?_⟩
    obtain ⟨hmoved, hleft⟩ := hrest k hk
    obtain ⟨hsent, hother⟩ := hserved₁ k hk
    refine ⟨fun g hg hkg => ?_, fun hnone => ?_⟩
    · rcases List.mem_cons.1 hg with rfl | hg
      -- the group at hand, and no later one
      · obtain ⟨hstored, hserved⟩ := hleft fun g' hg' => hhead g' hg' k hkg
        refine ⟨?_, fun value hv => ?_⟩
        · rw [hstored, hstored₁, if_pos hkg]
        · rw [hserved]
          exact hsent value hv hkg
      · obtain ⟨hgone, hserved⟩ := hmoved g hg hkg
        refine ⟨hgone, fun value hv => hserved value ?_⟩
        rw [hstored₁, if_neg fun hkeys => hhead g hg k hkeys hkg, hv]
    · have hkeys : k ∉ keys := hnone _ List.mem_cons_self
      obtain ⟨hstored, hserved⟩ := hleft fun g' hg' => hnone g' (List.mem_cons_of_mem _ hg')
      refine ⟨?_, fun m => ?_⟩
      · rw [hstored, hstored₁, if_neg hkeys]
      · rw [hserved, hother m fun _ => hkeys]

end Phases

/-! ## The whole check -/

/-- From any state of the cluster, a check of a node that migrates comes to its end when it is left to itself
and every exchange is answered. By then each key but the empty one that another member owns has left the node's
server and is served by that member with the value the server had; and every such key that no other member owns,
or that the server did not have, is where it was. -/
theorem check_hands_over (c : Codec) (timeout : Nat) (ords : MigrationOrders) (s : ServerCluster) (n : HostEntity)
    (hon : (s.nodes n).server.migration.migrationEnabled = true)
    (hidle : (s.nodes n).server.migration.migrating = false) :
    ∃ steps,
      let i := (s.nodes n).checks.length
      let s' := Machine.after (step c timeout) s
        (.beginCheck n :: List.replicate steps (.check n i ords (.answered 0)))
      s'.At n i (.running .finished) ∧ (s'.nodes n).server.migration.migrating = false ∧ ∀ k, k ≠ "" →
        (∀ value target, s.stored n k = some value → s.ownerOf n k = some target →
          target ≠ (s.nodes n).server.migration.membership.selfNode →
            s'.stored n k = none ∧ s'.served target k = some value) ∧
        (s.stored n k = none ∨
            (∀ target, s.ownerOf n k = some target → target = (s.nodes n).server.migration.membership.selfNode) →
          s'.stored n k = s.stored n k ∧ ∀ m, s'.served m k = s.served m k) := by
  -- behind the beginning nothing but the new check is different
  obtain ⟨s₀, hs₀⟩ : ∃ s₀, s₀ = (s.step c timeout (.beginCheck n)).2 := ⟨_, rfl⟩
  have hnodes : ∀ m, (s₀.nodes m).server = (s.nodes m).server := fun m => by
    rw [hs₀]
    unfold step
    rw [nodes_setNode]
    split
    · next hm => rw [hm]
    · rfl
  have hat₀ : s₀.At n (s.nodes n).checks.length .entered := by
    rw [hs₀]
    unfold step At
    rw [nodes_setNode, if_pos rfl]
    exact List.getElem?_concat_length
  have hstored₀ : ∀ m k, s₀.stored m k = s.stored m k := fun m k => by rw [stored, hnodes, stored]
  have hserved₀ : ∀ m k, s₀.served m k = s.served m k := fun m k => by rw [served, hnodes, served]
  have hlead : LeadsTo c timeout n (s.nodes n).checks.length ords
      (fun s' => s'.At n (s.nodes n).checks.length (.running .finished) ∧
        (s'.nodes n).server.migration.migrating = false ∧ ∀ k, k ≠ "" →
          HandsOver ((s.nodes n).server.migration.groups ords (s.nodes n).server.store) n s s' k) s₀ := by
    refine (leadsTo_start hat₀ ((hnodes n).symm ▸ hon) ((hnodes n).symm ▸ hidle)).trans ?_
    rw [hnodes]
    rintro s₁ ⟨hsame, hat | ⟨hnone, hat, hmig⟩⟩
    · refine (leadsTo_groups MigrationManager.groups_disjoint hat).trans ?_
      rintro s' ⟨hat, hmig, hkeys⟩
      refine .here ⟨hat, hmig, fun k hk => ⟨fun g hg hkey => ?_, fun hnone => ?_⟩⟩
      · obtain ⟨hgone, hserved⟩ := (hkeys k hk).moved g hg hkey
        refine ⟨hgone, fun value hv => hserved value ?_⟩
        rw [hsame.stored, hstored₀, hv]
      · obtain ⟨hstored, hserved⟩ := (hkeys k hk).left hnone
        refine ⟨?_, fun m => ?_⟩
        · rw [hstored, hsame.stored, hstored₀]
        · rw [hserved, hsame.served, hserved₀]
    · refine .here ⟨hat, hmig, fun k _ => ⟨fun g hg => ?_, fun _ => ⟨?_, fun m => ?_⟩⟩⟩
      · rw [hnone] at hg
        cases hg
      · rw [hsame.stored, hstored₀]
      · rw [hsame.served, hserved₀]
  obtain ⟨steps, hat, hmig, hkeys⟩ := hlead
  rw [hs₀] at hat hmig hkeys
  refine ⟨steps, hat, hmig, fun k hk => ⟨fun value target hv howner hne => ?_, fun hown => ?_⟩⟩
  · have hmoves : (s.nodes n).server.migration.MovesTo (s.nodes n).server.store target k value := ⟨hv, howner, hne⟩
    obtain ⟨hg, hkey⟩ := MigrationManager.group_of_moves ords hmoves
    obtain ⟨hgone, hserved⟩ := (hkeys k hk).moved _ hg hkey
    exact ⟨hgone, hserved value hv⟩
  · refine (hkeys k hk).left fun g hg hkey => ?_
    obtain ⟨value, hmoves⟩ := (MigrationManager.mem_group_keys hg).1 hkey
    rcases hown with hnone | hown
    · rw [show s.stored n k = some value from hmoves.stored] at hnone
      cases hnone
    · exact hmoves.remote (hown _ hmoves.owner)

theorem check_hands_over_two :
    ∃ steps,
      let s' := Machine.after (step Codec.protobuf 60) handingOver
        (.beginCheck ⟨"a", 1⟩ :: List.replicate steps (.check ⟨"a", 1⟩ 0 sortedOrders (.answered 0)))
      s'.stored ⟨"a", 1⟩ "k" = none ∧ s'.served ⟨"b", 2⟩ "k" = some "v" := by
  obtain ⟨steps, -, -, hkeys⟩ := check_hands_over Codec.protobuf 60 sortedOrders handingOver ⟨"a", 1⟩ rfl rfl
  exact ⟨steps, (hkeys "k" (by decide)).1 "v" ⟨"b", 2⟩ (by decide) (by decide) (by decide)⟩

end ServerCluster

end Zht
