/-
`check_and_migrate` beside other tasks that write to the same store. The check lists the keys, takes a
snapshot of the entries for each group, sends the group's pairs to a peer that acknowledges them one by
one, and then removes the group's keys one by one; `put`, `append` and `compare_swap` may come between
any two of these steps. What a peer ends up with is the snapshot's value, so a run loses no update
exactly when every key still has that value when it is removed (`migration_keeps_updates_iff`).
-/
import Zht.Lib.Machine
import Zht.Server.MigrationSafety

namespace Zht

open Lib Lib.Utf8

/-! ## The steps of a check -/

/-- A call on the store by another task; it holds the write lock from its start to its end. -/
inductive ForeignCall
  | put (key value : String)
  | append (key value : String)
  | compareSwap (key expected newValue : String)
  deriving DecidableEq, Repr

def ForeignCall.exec (s : NoVoHT) : ForeignCall → NoVoHT
  | put key value => (s.put key value).2
  | append key value => (s.append key value).2
  | compareSwap key expected newValue => (s.compareSwap key expected newValue).2

/-- Where a check is. Between two groups it holds those still to come; within one also the entries of
its snapshot that are still to be looked at, or the keys that are still to be removed. -/
inductive MigrationTask
  | start
  | groups (later : List (String × HostEntity × List String))
  | sending (target : HostEntity) (keys : List String) (snapshot rest : List (String × String))
    (later : List (String × HostEntity × List String))
  | removing (target : HostEntity) (snapshot : List (String × String)) (left : List String)
    (later : List (String × HostEntity × List String))
  | finished
  deriving DecidableEq, Repr

/-- What a check does in a step, besides going on. -/
inductive MigrationMove
  | advance (task : MigrationTask)
  | send (target : HostEntity) (key value : String) (task : MigrationTask)
  | remove (target : HostEntity) (key : String) (task : MigrationTask)

/-- The next step of a check; the hash maps it walks there are walked in these orders. -/
def MigrationTask.next (m : MigrationManager) (ords : MigrationOrders) (store : NoVoHT) :
    MigrationTask → MigrationMove
  | start =>
    if m.migrationEnabled = false ∨ m.migrating then .advance finished else .advance (groups (m.groups ords store))
  | groups [] => .advance finished
  | groups ((_, target, keys) :: later) =>
    if keys = [] then .advance (groups later)
    else
      let snapshot := ords.entries.entries store.map
      .advance (sending target keys snapshot snapshot later)
  | sending target keys snapshot ((key, value) :: rest) later =>
    let task := sending target keys snapshot rest later
    if key ∉ keys then .advance task else .send target key value task
  | sending target keys snapshot [] later => .advance (removing target snapshot keys later)
  | removing target snapshot (key :: left) later => .remove target key (removing target snapshot left later)
  | removing _ _ [] later => .advance (groups later)
  | finished => .advance finished

/-- A key that a check removed, with the value it had. -/
structure Removal where
  key : String
  target : HostEntity
  value : String
  deriving DecidableEq, Repr

structure MigrationRun where
  store : NoVoHT
  peers : HostEntity → Table
  task : MigrationTask
  removed : List Removal

inductive MigrationEvent
  /-- The check takes its next step. -/
  | migrate (ords : MigrationOrders)
  | foreign (call : ForeignCall)

namespace MigrationRun

/-- The pair is stored at the peer. -/
def send (s : MigrationRun) (target : HostEntity) (key value : String) : MigrationRun :=
  { s with peers := Function.update s.peers target ((s.peers target).insert key value) }

/-- The key is removed, if it is there. -/
def remove (s : MigrationRun) (target : HostEntity) (key : String) : MigrationRun :=
  { s with
    store := (s.store.remove key).2
    removed := s.removed ++ ((s.store.map.lookup key).map fun value => ⟨key, target, value⟩).toList }

/-- The next step of the check. -/
def migrate (m : MigrationManager) (ords : MigrationOrders) (s : MigrationRun) : MigrationRun :=
  match s.task.next m ords s.store with
  | .advance task => { s with task }
  | .send target key value task => { s with task }.send target key value
  | .remove target key task => { s with task }.remove target key

def step (m : MigrationManager) (s : MigrationRun) : MigrationEvent → Unit × MigrationRun
  | .migrate ords => ((), s.migrate m ords)
  | .foreign call => ((), { s with store := call.exec s.store })

/-- The peer that was sent the key holds the value the key had when it was removed. -/
def Delivered (s : MigrationRun) (r : Removal) : Prop := (s.peers r.target).lookup r.key = some r.value

instance (s : MigrationRun) (r : Removal) : Decidable (s.Delivered r) :=
  inferInstanceAs (Decidable ((s.peers r.target).lookup r.key = some r.value))

end MigrationRun

/-- A key that is removed next has the value of the snapshot. -/
def MigrationTask.Unchanged (map : Table) : MigrationTask → Prop
  | removing _ snapshot (key :: _) _ => ∀ value, map.lookup key = some value → (key, value) ∈ snapshot
  | start | groups _ | sending _ _ _ _ _ | removing _ _ [] _ | finished => True

/-- If the event is a removal, the key still has the value it had in the snapshot of its group. -/
def MigrationRun.Unchanged (s : MigrationRun) : MigrationEvent → Prop
  | .migrate _ => s.task.Unchanged s.store.map
  | .foreign _ => True

/-! ## A check alone -/

namespace MigrationRun

section Alone

variable (m : MigrationManager) (ords : MigrationOrders)

/-- With nothing in between the check comes to a state with the property. -/
def Leads (P : MigrationRun → Prop) (s : MigrationRun) : Prop :=
  ∃ n, P (Machine.after (step m) s (List.replicate n (.migrate ords)))

variable {m ords} {P : MigrationRun → Prop}

theorem Leads.here {s : MigrationRun} (h : P s) : Leads m ords P s := ⟨0, h⟩

theorem Leads.next {s : MigrationRun} (h : Leads m ords P (s.migrate m ords)) : Leads m ords P s := by
  obtain ⟨n, hn⟩ := h
  exact ⟨n + 1, hn⟩

variable {store : NoVoHT} {peers : HostEntity → Table} {removed : List Removal} {target : HostEntity}
  {keys : List String} {later : List (String × HostEntity × List String)}

/-- It sends what is left of a snapshot. -/
theorem leads_sending {snapshot rest : List (String × String)}
    (h : ∀ peers, Leads m ords P ⟨store, peers, .removing target snapshot keys later, removed⟩) :
    Leads m ords P ⟨store, peers, .sending target keys snapshot rest later, removed⟩ := by
  induction rest generalizing peers with
  | nil => exact .next (h peers)
  | cons pair rest ih =>
    apply Leads.next
    simp only [migrate, MigrationTask.next]
    by_cases hkey : pair.1 ∈ keys
    · rw [if_neg (not_not.2 hkey)]
      exact ih
    · rw [if_pos hkey]
      exact ih

/-- It removes what is left of a group. -/
theorem leads_removing {snapshot : List (String × String)}
    (h : ∀ removed, Leads m ords P ⟨removeAll store keys, peers, .groups later, removed⟩) :
    Leads m ords P ⟨store, peers, .removing target snapshot keys later, removed⟩ := by
  induction keys generalizing store removed with
  | nil => exact .next (h removed)
  | cons key keys ih => exact .next (ih h)

/-- It works through a group. -/
theorem leads_group {addr : String}
    (h : ∀ peers removed, Leads m ords P ⟨removeAll store keys, peers, .groups later, removed⟩) :
    Leads m ords P ⟨store, peers, .groups ((addr, target, keys) :: later), removed⟩ := by
  apply Leads.next
  simp only [migrate, MigrationTask.next]
  by_cases hnil : keys = []
  · subst hnil
    exact h peers removed
  · rw [if_neg hnil]
    exact leads_sending fun peers => leads_removing fun removed => h peers removed

/-- A peer that acknowledges everything. -/
def acknowledging : Peers := fun _ _ => .ok { lease := utf8Bytes REC_SUCC }

theorem leads_finished (groups : List (String × HostEntity × List String)) (store : NoVoHT)
    (peers : HostEntity → Table) (removed : List Removal) (migrated : Nat) :
    Leads m ords
      (fun s => s.task = .finished ∧
        s.store = (migrateTargets acknowledging ords.entries groups store migrated).2.1)
      ⟨store, peers, .groups groups, removed⟩ := by
  induction groups generalizing store peers removed migrated with
  | nil => exact .next (.here ⟨rfl, rfl⟩)
  | cons group groups ih =>
    obtain ⟨addr, target, keys⟩ := group
    simp only [migrateTargets]
    cases hb : (migrateKeysForNode acknowledging ords.entries store target keys).1 with
    | ok count => exact leads_group fun peers removed => ih _ peers removed _
    | error e =>
      -- no request fails
      obtain ⟨key, -, value, -, e', he⟩ := (migrateKeysForNode_error_iff _ target keys ords.entries store).1 ⟨e, hb⟩
      cases he

/-- With peers that acknowledge everything and no other task, the steps come to what the check does. -/
theorem leads_checkAndMigrate (store : NoVoHT) (peers : HostEntity → Table) :
    Leads m ords (fun s => s.task = .finished ∧ s.store = (m.checkAndMigrate acknowledging ords store).2.1)
      ⟨store, peers, .start, []⟩ := by
  apply Leads.next
  simp only [migrate, MigrationTask.next]
  by_cases hstop : m.migrationEnabled = false ∨ m.migrating
  · rw [if_pos hstop]
    refine .here ⟨rfl, ?_⟩
    rw [MigrationManager.checkAndMigrate, if_pos hstop]
  · rw [if_neg hstop]
    rw [not_or, Bool.not_eq_false, Bool.not_eq_true] at hstop
    rw [MigrationManager.checkAndMigrate_eq hstop.1 hstop.2]
    exact leads_finished _ store peers [] 0

end Alone

end MigrationRun

/-! ## What a step can do -/

namespace MigrationRun

/-- The steps of a check, each from the state it is taken in. -/
inductive Migrates (m : MigrationManager) (ords : MigrationOrders) : MigrationRun → MigrationRun → Prop
  | stop {store peers removed} : Migrates m ords ⟨store, peers, .start, removed⟩ ⟨store, peers, .finished, removed⟩
  | plan {store peers removed} :
    Migrates m ords ⟨store, peers, .start, removed⟩ ⟨store, peers, .groups (m.groups ords store), removed⟩
  | finish {store peers removed} :
    Migrates m ords ⟨store, peers, .groups [], removed⟩ ⟨store, peers, .finished, removed⟩
  | skip {store peers removed addr target later} :
    Migrates m ords ⟨store, peers, .groups ((addr, target, []) :: later), removed⟩
      ⟨store, peers, .groups later, removed⟩
  | snapshot {store peers removed addr target keys later} :
    Migrates m ords ⟨store, peers, .groups ((addr, target, keys) :: later), removed⟩
      ⟨store, peers,
        .sending target keys (ords.entries.entries store.map) (ords.entries.entries store.map) later, removed⟩
  | pass {store peers removed target keys snapshot rest later} {pair : String × String} (hkey : pair.1 ∉ keys) :
    Migrates m ords ⟨store, peers, .sending target keys snapshot (pair :: rest) later, removed⟩
      ⟨store, peers, .sending target keys snapshot rest later, removed⟩
  | send {store peers removed target keys snapshot rest later} {pair : String × String} (hkey : pair.1 ∈ keys) :
    Migrates m ords ⟨store, peers, .sending target keys snapshot (pair :: rest) later, removed⟩
      ⟨store, Function.update peers target ((peers target).insert pair.1 pair.2),
        .sending target keys snapshot rest later, removed⟩
  | sent {store peers removed target keys snapshot later} :
    Migrates m ords ⟨store, peers, .sending target keys snapshot [] later, removed⟩
      ⟨store, peers, .removing target snapshot keys later, removed⟩
  | remove {store peers removed target snapshot key left later} :
    Migrates m ords ⟨store, peers, .removing target snapshot (key :: left) later, removed⟩
      ⟨(store.remove key).2, peers, .removing target snapshot left later,
        removed ++ ((store.map.lookup key).map fun value => ⟨key, target, value⟩).toList⟩
  | next {store peers removed target snapshot later} :
    Migrates m ords ⟨store, peers, .removing target snapshot [] later, removed⟩ ⟨store, peers, .groups later, removed⟩
  | idle {store peers removed} :
    Migrates m ords ⟨store, peers, .finished, removed⟩ ⟨store, peers, .finished, removed⟩

theorem migrates (m : MigrationManager) (ords : MigrationOrders) (s : MigrationRun) :
    Migrates m ords s (s.migrate m ords) := by
  obtain ⟨store, peers, task, removed⟩ := s
  simp only [migrate]
  cases task with
  | start =>
    simp only [MigrationTask.next]
    by_cases hstop : m.migrationEnabled = false ∨ m.migrating
    · rw [if_pos hstop]
      exact .stop
    · rw [if_neg hstop]
      exact .plan
  | groups later =>
    rcases later with - | ⟨⟨addr, target, keys⟩, later⟩
    · exact .finish
    · simp only [MigrationTask.next]
      by_cases hnil : keys = []
      · subst hnil
        exact .skip
      · rw [if_neg hnil]
        exact .snapshot
  | sending target keys snapshot rest later =>
    rcases rest with - | ⟨pair, rest⟩
    · exact .sent
    · simp only [MigrationTask.next]
      by_cases hkey : pair.1 ∈ keys
      · rw [if_neg (not_not.2 hkey)]
        exact .send hkey
      · rw [if_pos hkey]
        exact .pass hkey
  | removing target snapshot left later =>
    rcases left with - | ⟨key, left⟩
    · exact .next
    · exact .remove
  | finished => exact .idle

end MigrationRun

/-! ## What a check has done so far -/

/-- The keys that are still to be removed. -/
def MigrationTask.pending : MigrationTask → List String
  | start | finished => []
  | groups later => later.flatMap (·.2.2)
  | sending _ keys _ _ later => keys ++ later.flatMap (·.2.2)
  | removing _ _ left later => left ++ later.flatMap (·.2.2)

/-- What the peer of the group holds of the snapshot. -/
def MigrationTask.Sent (peers : HostEntity → Table) : MigrationTask → Prop
  | sending target keys snapshot rest _ =>
    (snapshot.map Prod.fst).Nodup ∧ (∀ key ∈ keys, ∃ value, (key, value) ∈ snapshot) ∧
      ∃ done, snapshot = done ++ rest ∧ ∀ p ∈ done, p.1 ∈ keys → (peers target).lookup p.1 = some p.2
  | removing target snapshot left _ =>
    (snapshot.map Prod.fst).Nodup ∧
      ∀ key ∈ left, ∃ value, (key, value) ∈ snapshot ∧ (peers target).lookup key = some value
  | start | groups _ | finished => True

namespace MigrationRun

structure Inv (s : MigrationRun) : Prop where
  fresh : s.task = .start → s.removed = []
  nodup : s.task.pending.Nodup
  present : ∀ key ∈ s.task.pending, s.store.map.lookup key ≠ none
  sent : s.task.Sent s.peers
  gone : ∀ r ∈ s.removed, r.key ∉ s.task.pending

end MigrationRun

namespace MigrationTask

variable {peers : HostEntity → Table} {target : HostEntity} {keys : List String}
  {snapshot rest : List (String × String)} {later : List (String × HostEntity × List String)} {pair : String × String}

theorem Sent.pass (h : (sending target keys snapshot (pair :: rest) later).Sent peers) (hkey : pair.1 ∉ keys) :
    (sending target keys snapshot rest later).Sent peers := by
  obtain ⟨hkeys, hthere, done, hdone, hheld⟩ := h
  refine ⟨hkeys, hthere, done ++ [pair], by rw [hdone, List.append_assoc, List.singleton_append], ?_⟩
  intro p hp hpk
  rcases List.mem_append.1 hp with hp | hp
  · exact hheld p hp hpk
  · rw [List.mem_singleton.1 hp] at hpk
    exact absurd hpk hkey

theorem Sent.send (h : (sending target keys snapshot (pair :: rest) later).Sent peers) :
    (sending target keys snapshot rest later).Sent
      (Function.update peers target ((peers target).insert pair.1 pair.2)) := by
  obtain ⟨hkeys, hthere, done, hdone, hheld⟩ := h
  refine ⟨hkeys, hthere, done ++ [pair], by rw [hdone, List.append_assoc, List.singleton_append], ?_⟩
  intro p hp hpk
  rw [Function.update_self]
  rcases List.mem_append.1 hp with hp | hp
  · -- a pair sent before has another key
    have hne : p.1 ≠ pair.1 := by
      have hmem : p.1 ∈ done.map Prod.fst := List.mem_map_of_mem hp
      rw [hdone, List.map_append, List.map_cons, List.nodup_append] at hkeys
      exact hkeys.2.2 p.1 hmem pair.1 List.mem_cons_self
    rw [Finmap.lookup_insert_of_ne _ hne]
    exact hheld p hp hpk
  · rw [List.mem_singleton.1 hp, Finmap.lookup_insert]

/-- Once the snapshot is sent, the peer holds the group's keys. -/
theorem Sent.done (h : (sending target keys snapshot [] later).Sent peers) :
    (removing target snapshot keys later).Sent peers := by
  obtain ⟨hkeys, hthere, done, hdone, hheld⟩ := h
  rw [List.append_nil] at hdone
  subst hdone
  refine ⟨hkeys, fun key hkey => ?_⟩
  obtain ⟨value, hvalue⟩ := hthere key hkey
  exact ⟨value, hvalue, hheld (key, value) hvalue hkey⟩

end MigrationTask

/-- Another task's call removes no key. -/
theorem ForeignCall.exec_present (call : ForeignCall) {s : NoVoHT} {k : String} (h : s.map.lookup k ≠ none) :
    (call.exec s).map.lookup k ≠ none := by
  have hinsert : ∀ key value, (s.map.insert key value).lookup k ≠ none := by
    intro key value
    by_cases hk : k = key
    · rw [hk, Finmap.lookup_insert]
      exact Option.some_ne_none value
    · rw [Finmap.lookup_insert_of_ne _ hk]
      exact h
  cases call with
  | put key value =>
    by_cases hk : key = ""
    · simpa [exec, NoVoHT.put, hk] using h
    · simpa [exec, NoVoHT.put, hk] using hinsert key value
  | append key value =>
    by_cases hk : key = ""
    · simpa [exec, NoVoHT.append, hk] using h
    · simpa [exec, NoVoHT.append, hk] using hinsert key _
  | compareSwap key expected newValue =>
    obtain ⟨s', hrun, hmap⟩ := s.compareSwap_spec key expected newValue
    rw [exec, hrun, hmap]
    by_cases hk : k = key
    · rw [hk, NoVoHT.swapped_lookup]
      exact Option.some_ne_none _
    · rw [NoVoHT.swapped_lookup_ne _ hk]
      exact h

/-- The keys of the groups are distinct. -/
theorem MigrationManager.groups_nodup (m : MigrationManager) (ords : MigrationOrders) (store : NoVoHT) :
    ((m.groups ords store).flatMap (·.2.2)).Nodup := by
  rw [List.nodup_flatMap]
  constructor
  · rintro ⟨addr, target, keys⟩ hg
    obtain ⟨-, rfl, -⟩ := mem_groups.1 hg
    have hmoves := ords.moves.nodup (m.keysToMigrate (ords.keys.keys store.map))
    exact hmoves.sublist (List.Sublist.map _ List.filter_sublist)
  · exact groups_disjoint.imp fun h key hk hk' => h key hk hk'

namespace MigrationRun

theorem Inv.foreign {s : MigrationRun} (h : s.Inv) (call : ForeignCall) :
    Inv { s with store := call.exec s.store } :=
  ⟨h.fresh, h.nodup, fun key hk => call.exec_present (h.present key hk), h.sent, h.gone⟩

theorem Inv.migrate {s : MigrationRun} (h : s.Inv) (m : MigrationManager) (ords : MigrationOrders) :
    (s.migrate m ords).Inv := by
  have hstep := s.migrates m ords
  generalize s.migrate m ords = s' at hstep ⊢
  obtain ⟨hfresh, hnodup, hpresent, hsent, hgone⟩ := h
  cases hstep with
  | stop | finish => exact ⟨nofun, List.nodup_nil, fun _ hk => (by cases hk), trivial, fun _ _ hk => (by cases hk)⟩
  | @plan store peers removed =>
    obtain rfl : removed = [] := hfresh rfl
    refine ⟨nofun, m.groups_nodup ords store, ?_, trivial, fun _ hr => (by cases hr)⟩
    intro key hkey
    obtain ⟨g, hg, hmem⟩ := List.mem_flatMap.1 hkey
    obtain ⟨value, hm⟩ := (MigrationManager.mem_group_keys hg).1 hmem
    show store.map.lookup key ≠ none
    rw [hm.stored]
    exact Option.some_ne_none value
  | skip | next => exact ⟨nofun, hnodup, hpresent, trivial, hgone⟩
  | snapshot =>
    refine ⟨nofun, hnodup, hpresent, ⟨ords.entries.nodup _, ?_, [], rfl, fun _ hp => (by cases hp)⟩, hgone⟩
    intro key hkey
    obtain ⟨value, hv⟩ := Option.ne_none_iff_exists'.1 (hpresent key (List.mem_append_left _ hkey))
    exact ⟨value, (ords.entries.mem _ _ _).2 hv⟩
  | pass hkey => exact ⟨nofun, hnodup, hpresent, hsent.pass hkey, hgone⟩
  | send => exact ⟨nofun, hnodup, hpresent, hsent.send, hgone⟩
  | sent => exact ⟨nofun, hnodup, hpresent, hsent.done, hgone⟩
  | @remove store peers removed target snapshot key left later =>
    obtain ⟨hkeys, hheld⟩ := hsent
    obtain ⟨hkey, hrest⟩ := List.nodup_cons.1 hnodup
    refine ⟨nofun, hrest, ?_, ⟨hkeys, fun k hk => hheld k (List.mem_cons_of_mem _ hk)⟩, ?_⟩
    · intro k hk
      show (store.remove key).2.map.lookup k ≠ none
      rw [remove_lookup, if_neg (by rintro rfl; exact hkey hk)]
      exact hpresent k (List.mem_cons_of_mem _ hk)
    · intro r hr hk
      rcases List.mem_append.1 hr with hr | hr
      · exact hgone r hr (List.mem_cons_of_mem _ hk)
      · -- the key just removed
        obtain ⟨value, -, rfl⟩ := Option.map_eq_some_iff.1 (Option.mem_toList.1 hr)
        exact hkey hk
  | idle => exact ⟨hfresh, hnodup, hpresent, hsent, hgone⟩

/-! ## No update is lost -/

/-- A step leaves alone what the peers hold of the keys that are not pending. -/
theorem migrate_peers (m : MigrationManager) (ords : MigrationOrders) (s : MigrationRun) {k : String}
    (h : k ∉ s.task.pending) (node : HostEntity) :
    ((s.migrate m ords).peers node).lookup k = (s.peers node).lookup k := by
  have hstep := s.migrates m ords
  generalize s.migrate m ords = s' at hstep ⊢
  cases hstep with
  | @send store peers removed target keys snapshot rest later pair hkey =>
    have hne : k ≠ pair.1 := by
      rintro rfl
      exact h (List.mem_append_left _ hkey)
    show (Function.update peers target ((peers target).insert pair.1 pair.2) node).lookup k = (peers node).lookup k
    by_cases hnode : node = target
    · subst hnode
      rw [Function.update_self, Finmap.lookup_insert_of_ne _ hne]
    · rw [Function.update_of_ne hnode]
  | stop | plan | finish | skip | snapshot | pass | sent | remove | next | idle => rfl

/-- Only the removal of a key is recorded. -/
theorem migrate_removed (m : MigrationManager) (ords : MigrationOrders) (s : MigrationRun) :
    (s.migrate m ords).removed = s.removed ∧ s.task.Unchanged s.store.map ∨
      ∃ target snapshot key left later, s.task = .removing target snapshot (key :: left) later ∧
        (s.migrate m ords).removed =
          s.removed ++ ((s.store.map.lookup key).map fun value => ⟨key, target, value⟩).toList := by
  have hstep := s.migrates m ords
  generalize s.migrate m ords = s' at hstep ⊢
  cases hstep with
  | remove => exact .inr ⟨_, _, _, _, _, rfl, rfl⟩
  | stop | plan | finish | skip | snapshot | pass | send | sent | next | idle => exact .inl ⟨rfl, trivial⟩

/-- A step of the check keeps what was delivered, and delivers what it removes if that is unchanged. -/
theorem delivered_migrate_iff {s : MigrationRun} (h : s.Inv) (m : MigrationManager) (ords : MigrationOrders) :
    (∀ r ∈ (s.migrate m ords).removed, (s.migrate m ords).Delivered r) ↔
      s.task.Unchanged s.store.map ∧ ∀ r ∈ s.removed, s.Delivered r := by
  have hkept : (∀ r ∈ s.removed, (s.migrate m ords).Delivered r) ↔ ∀ r ∈ s.removed, s.Delivered r := by
    refine forall_congr' fun r => forall_congr' fun hr => ?_
    unfold Delivered
    rw [migrate_peers m ords s (h.gone r hr)]
  rcases migrate_removed m ords s with ⟨hsame, hunchanged⟩ | ⟨target, snapshot, key, left, later, htask, hremoved⟩
  · rw [hsame, hkept]
    exact (and_iff_right hunchanged).symm
  have hpresent := h.present
  have hsent := h.sent
  rw [htask] at hpresent hsent
  obtain ⟨value, hvalue⟩ := Option.ne_none_iff_exists'.1 (hpresent key List.mem_cons_self)
  obtain ⟨hkeys, hheld⟩ := hsent
  obtain ⟨sentValue, hmem, hpeer⟩ := hheld key List.mem_cons_self
  have hpeers : (s.migrate m ords).peers = s.peers := by
    unfold MigrationRun.migrate
    rw [htask]
    rfl
  -- both say that the value is the one in the snapshot
  have hunchanged : s.task.Unchanged s.store.map ↔ value = sentValue := by
    rw [htask]
    constructor
    · intro hu
      exact congrArg Prod.snd (List.inj_on_of_nodup_map hkeys (hu value hvalue) hmem rfl)
    · rintro rfl other hother
      rw [hvalue] at hother
      obtain rfl := Option.some.inj hother
      exact hmem
  have hdelivered : (s.migrate m ords).Delivered ⟨key, target, value⟩ ↔ value = sentValue := by
    unfold Delivered
    rw [hpeers, hpeer, Option.some.injEq]
    exact eq_comm
  rw [hremoved, hvalue, Option.map_some, Option.toList_some, List.forall_mem_append, List.forall_mem_singleton, hkept,
    hdelivered, hunchanged]
  exact and_comm

theorem Inv.step {s : MigrationRun} (h : s.Inv) (m : MigrationManager) (event : MigrationEvent) :
    (s.step m event).2.Inv := by
  cases event with
  | migrate ords => exact h.migrate m ords
  | foreign call => exact h.foreign call

theorem delivered_step_iff {s : MigrationRun} (h : s.Inv) (m : MigrationManager) (event : MigrationEvent) :
    (∀ r ∈ (s.step m event).2.removed, (s.step m event).2.Delivered r) ↔
      s.Unchanged event ∧ ∀ r ∈ s.removed, s.Delivered r := by
  cases event with
  | migrate ords => exact delivered_migrate_iff h m ords
  | foreign call => exact (and_iff_right trivial).symm

/-- Along a run from any point of a check. -/
theorem delivered_after_iff {s : MigrationRun} (h : s.Inv) (m : MigrationManager) (events : List MigrationEvent) :
    (∀ r ∈ (Machine.after (step m) s events).removed, (Machine.after (step m) s events).Delivered r) ↔
      Machine.Along (step m) Unchanged s events ∧ ∀ r ∈ s.removed, s.Delivered r := by
  induction events generalizing s with
  | nil => exact (and_iff_right trivial).symm
  | cons event events ih =>
    rw [Machine.after_cons, Machine.along_cons, ih (h.step m event), delivered_step_iff h]
    exact and_left_comm.trans and_assoc.symm

end MigrationRun

/-- After any interleaving of a check with calls of other tasks, the peers hold every removed key with
the value it had when it was removed, exactly if every key that was removed had the value of the
snapshot still. -/
theorem migration_keeps_updates_iff (m : MigrationManager) (store : NoVoHT) (peers : HostEntity → Table)
    (events : List MigrationEvent) :
    let start : MigrationRun := ⟨store, peers, .start, []⟩
    (∀ r ∈ (Machine.after (MigrationRun.step m) start events).removed,
        (Machine.after (MigrationRun.step m) start events).Delivered r) ↔
      Machine.Along (MigrationRun.step m) MigrationRun.Unchanged start events := by
  intro start
  have hinv : start.Inv :=
    ⟨fun _ => rfl, List.nodup_nil, fun _ hk => (by cases hk), trivial, fun _ hr => (by cases hr)⟩
  rw [MigrationRun.delivered_after_iff hinv]
  exact and_iff_left fun _ hr => (by cases hr)

/-- A put between the snapshot and the removal: the check finishes with its value gone, and the one before
it at the peer. -/
theorem update_lost_in_migration :
    let m : MigrationManager :=
      { membership := .new 0 ⟨"a", 50000⟩ [⟨"b", 50000⟩], migrationEnabled := true, migrating := false }
    let ords : MigrationOrders := ⟨.sorted, .sorted, .sorted, .sorted⟩
    let start : MigrationRun := ⟨(NoVoHT.new.put "k" "v").2, fun _ => ∅, .start, []⟩
    let finished := Machine.after (MigrationRun.step m) start
      [.migrate ords, .migrate ords, .migrate ords, .foreign (.put "k" "w"), .migrate ords, .migrate ords,
        .migrate ords, .migrate ords]
    finished.task = .finished ∧ finished.removed = [⟨"k", ⟨"b", 50000⟩, "w"⟩] ∧
      finished.store.map.lookup "k" = none ∧ (finished.peers ⟨"b", 50000⟩).lookup "k" = some "v" ∧
      ¬∀ r ∈ finished.removed, finished.Delivered r := by
  decide +kernel

end Zht
