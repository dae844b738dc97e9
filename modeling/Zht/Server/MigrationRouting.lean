/-
Where a migration check sends what. The check is a list of batches, one call of `migrate_keys_for_node`
for each group (`migrateTargets_eq`); from what one batch sends and counts follows what the check does:
`migration_routes_keys`.
-/
import Zht.Server.MigrationSafety

namespace Zht

open Lib Lib.Utf8

/-- The exchange was answered, and the answer is an acknowledgement. -/
def Exchange.acknowledged (x : Exchange) : Bool :=
  match x.result with
  | .ok response => acknowledges response
  | .error _ => false

/-! ## Batches -/

/-- One call of `migrate_keys_for_node`: what it was given, returned and exchanged. -/
structure Batch where
  target : HostEntity
  keys : List String
  result : Except String Nat
  exchanges : List Exchange

/-- The call returned `Ok`. -/
def Batch.succeeded (b : Batch) : Bool := b.result.toBool

/-- The batches of the loop over the groups. -/
def migrateBatches (peers : Peers) (ord : HashMap.Order String String) :
    List (String × HostEntity × List String) → NoVoHT → List Batch
  | [], _ => []
  | (_, target, keys) :: groups, store =>
    let call := migrateKeysForNode peers ord store target keys
    ⟨target, keys, call.1, call.2⟩ :: migrateBatches peers ord groups
      (match call.1 with
      | .ok _ => removeAll store keys
      | .error _ => store)

/-- The acknowledgements received in the batches that returned `Ok`. -/
def acknowledgements (batches : List Batch) : Nat :=
  ((batches.filter Batch.succeeded).flatMap Batch.exchanges).countP Exchange.acknowledged

theorem acknowledgements_cons (b : Batch) (batches : List Batch) :
    acknowledgements (b :: batches) =
      (if b.succeeded = true then b.exchanges.countP Exchange.acknowledged else 0) + acknowledgements batches := by
  unfold acknowledgements
  by_cases hb : b.succeeded = true
  · rw [List.filter_cons_of_pos hb, List.flatMap_cons, List.countP_append, if_pos hb]
  · rw [List.filter_cons_of_neg hb, if_neg hb, Nat.zero_add]

section OneBatch

variable {peers : Peers} {target : HostEntity} {keys : List String}

/-- The loop counts the acknowledgements of what it exchanges. -/
theorem migrateEntries_count {entries : List (String × String)} {migrated count : Nat}
    (h : (migrateEntries peers target keys entries migrated).1 = .ok count) :
    count = migrated + (migrateEntries peers target keys entries migrated).2.countP Exchange.acknowledged := by
  fun_induction migrateEntries peers target keys entries migrated with
  | case1 migrated =>
    cases h
    rfl
  | case2 key value entries migrated hk ih => exact ih h
  | case3 key value entries migrated hk request response hr rest ih =>
    have hih : count = (if acknowledges response then migrated + 1 else migrated) +
        rest.2.countP Exchange.acknowledged := ih h
    rw [List.countP_cons]
    show count = migrated + (rest.2.countP Exchange.acknowledged + if acknowledges response = true then 1 else 0)
    by_cases hack : acknowledges response = true
    · rw [if_pos hack] at hih ⊢
      omega
    · rw [if_neg hack] at hih ⊢
      omega
  | case4 key value entries migrated hk request e hr => cases h

/-- The keys are sent in the order of the entries, each at most once. -/
theorem migrateEntries_sublist (entries : List (String × String)) (migrated : Nat) :
    ((migrateEntries peers target keys entries migrated).2.map (·.request.key)).Sublist
      (entries.map fun p => utf8Bytes p.1) := by
  fun_induction migrateEntries peers target keys entries migrated with
  | case1 => exact List.Sublist.slnil
  | case2 key value entries migrated hk ih => exact ih.cons _
  | case3 key value entries migrated hk request response hr rest ih => exact ih.cons_cons _
  | case4 key value entries migrated hk request e hr => exact (List.nil_sublist _).cons_cons _

variable (ord : HashMap.Order String String) (store : NoVoHT)

theorem migrateKeysForNode_count {count : Nat} (h : (migrateKeysForNode peers ord store target keys).1 = .ok count) :
    count = (migrateKeysForNode peers ord store target keys).2.countP Exchange.acknowledged := by
  unfold migrateKeysForNode at h ⊢
  split at h
  · next hk =>
    rw [if_pos hk]
    cases h
    rfl
  · next hk =>
    rw [if_neg hk]
    have hcount := migrateEntries_count h
    omega

theorem nodup_migrateKeysForNode :
    ((migrateKeysForNode peers ord store target keys).2.map (·.request.key)).Nodup := by
  unfold migrateKeysForNode
  split
  · exact List.nodup_nil
  · refine List.Nodup.sublist (migrateEntries_sublist _ _) ?_
    have hkeys := (ord.nodup store.map).map fun a b e => utf8Bytes_inj e
    rwa [List.map_map] at hkeys

end OneBatch

section Batches

variable {peers : Peers} {ord : HashMap.Order String String}

variable (peers ord) in
/-- The loop returns the acknowledgements of the batches that succeed, and exchanges what they do. -/
theorem migrateTargets_eq (groups : List (String × HostEntity × List String)) (store : NoVoHT) (migrated : Nat) :
    (migrateTargets peers ord groups store migrated).1 =
        migrated + acknowledgements (migrateBatches peers ord groups store) ∧
      (migrateTargets peers ord groups store migrated).2.2 =
        (migrateBatches peers ord groups store).flatMap Batch.exchanges := by
  induction groups generalizing store migrated with
  | nil => exact ⟨rfl, rfl⟩
  | cons g groups ih =>
    obtain ⟨addr, target, keys⟩ := g
    simp only [migrateTargets, migrateBatches, List.flatMap_cons, acknowledgements_cons]
    cases hb : (migrateKeysForNode peers ord store target keys).1 with
    | ok count =>
      obtain ⟨hcount, hexchanges⟩ := ih (removeAll store keys) (migrated + count)
      have hack := migrateKeysForNode_count ord store hb
      refine ⟨?_, congrArg _ hexchanges⟩
      show _ = migrated + ((migrateKeysForNode peers ord store target keys).2.countP Exchange.acknowledged + _)
      rw [hcount, ← hack, Nat.add_assoc]
    | error e =>
      obtain ⟨hcount, hexchanges⟩ := ih store migrated
      refine ⟨?_, congrArg _ hexchanges⟩
      show _ = migrated + (0 + _)
      rw [hcount, Nat.zero_add]

/-- A batch is the call for a group, and sends entries of the group's keys. -/
theorem mem_migrateBatches {groups : List (String × HostEntity × List String)} {store : NoVoHT} {b : Batch}
    (hb : b ∈ migrateBatches peers ord groups store) :
    (∃ addr, (addr, b.target, b.keys) ∈ groups) ∧
      ∀ x ∈ b.exchanges, ∃ key value, key ∈ b.keys ∧ x.request = migrationRequest key value := by
  induction groups generalizing store with
  | nil => cases hb
  | cons g groups ih =>
    obtain ⟨addr, target, keys⟩ := g
    rcases List.mem_cons.1 hb with rfl | hb
    · refine ⟨⟨addr, List.mem_cons_self⟩, fun x hx => ?_⟩
      obtain ⟨key, value, hkey, -, rfl⟩ := migrateKeysForNode_exchanges hx
      exact ⟨key, value, hkey, rfl⟩
    · obtain ⟨⟨addr', hg⟩, hx⟩ := ih hb
      exact ⟨⟨addr', List.mem_cons_of_mem _ hg⟩, hx⟩

/-- Groups without a common key send no key twice. -/
theorem nodup_migrateBatches {groups : List (String × HostEntity × List String)} (hdisj : DisjointGroups groups)
    (store : NoVoHT) :
    (((migrateBatches peers ord groups store).flatMap Batch.exchanges).map (·.request.key)).Nodup := by
  induction groups generalizing store with
  | nil => exact List.nodup_nil
  | cons g groups ih =>
    obtain ⟨addr, target, keys⟩ := g
    obtain ⟨hhead, htail⟩ := List.pairwise_cons.1 hdisj
    simp only [migrateBatches, List.flatMap_cons, List.map_append]
    rw [List.nodup_append]
    refine ⟨nodup_migrateKeysForNode ord store, ih htail _, ?_⟩
    -- a key of this batch is in this group, a key of a later batch in a later one
    rintro bytes hbytes bytes' hbytes' rfl
    obtain ⟨x, hx, rfl⟩ := List.mem_map.1 hbytes
    obtain ⟨y, hy, hkeys⟩ := List.mem_map.1 hbytes'
    obtain ⟨b, hb, hyb⟩ := List.mem_flatMap.1 hy
    obtain ⟨key, value, hkey, -, rfl⟩ := migrateKeysForNode_exchanges hx
    obtain ⟨⟨addr', hg⟩, hsends⟩ := mem_migrateBatches hb
    obtain ⟨key', value', hkey', hrequest⟩ := hsends y hyb
    rw [hrequest] at hkeys
    obtain rfl : key' = key := utf8Bytes_inj hkeys
    exact hhead _ hg key' hkey hkey'

/-- A key that is gone was in a batch that succeeded. -/
theorem batch_of_removed {groups : List (String × HostEntity × List String)} {store : NoVoHT} {migrated : Nat}
    {key value : String} (hv : store.map.lookup key = some value)
    (hgone : (migrateTargets peers ord groups store migrated).2.1.map.lookup key = none) :
    ∃ b ∈ migrateBatches peers ord groups store, b.succeeded = true ∧ key ∈ b.keys := by
  induction groups generalizing store migrated with
  | nil =>
    rw [show (migrateTargets peers ord [] store migrated).2.1 = store from rfl, hv] at hgone
    cases hgone
  | cons g groups ih =>
    obtain ⟨addr, target, keys⟩ := g
    simp only [migrateTargets, migrateBatches] at hgone ⊢
    cases hb : (migrateKeysForNode peers ord store target keys).1 with
    | ok count =>
      by_cases hkey : key ∈ keys
      · exact ⟨_, List.mem_cons_self, rfl, hkey⟩
      · rw [hb] at hgone
        have hv' : (removeAll store keys).map.lookup key = some value := by
          rw [removeAll_lookup, if_neg hkey, hv]
        obtain ⟨b, hmem, h⟩ := ih hv' hgone
        exact ⟨b, List.mem_cons_of_mem _ hmem, h⟩
    | error e =>
      rw [hb] at hgone
      obtain ⟨b, hmem, h⟩ := ih hv hgone
      exact ⟨b, List.mem_cons_of_mem _ hmem, h⟩

end Batches

/-! ## A check -/

namespace MigrationManager

variable {m : MigrationManager} {peers : Peers} {ords : MigrationOrders} {store : NoVoHT}

/-- The batches of a check; one that does not go ahead has none. -/
def batches (m : MigrationManager) (peers : Peers) (ords : MigrationOrders) (store : NoVoHT) : List Batch :=
  if m.migrationEnabled = true ∧ m.migrating = false then
    migrateBatches peers ords.entries (m.groups ords store) store
  else []

/-- Every INSERT takes an entry of the store to the other node that owns its key, no key is sent twice,
a removed key was in a batch for its owner that returned `Ok`, a key that this node owns is left alone,
and the number returned counts the acknowledgements of the batches that returned `Ok`. -/
structure RoutesKeys (m : MigrationManager) (peers : Peers) (ords : MigrationOrders) (store : NoVoHT) : Prop where
  exchanges : (m.checkAndMigrate peers ords store).2.2 = (m.batches peers ords store).flatMap Batch.exchanges
  sent : ∀ x ∈ (m.checkAndMigrate peers ords store).2.2, ∃ key value, x.request = migrationRequest key value ∧
    store.map.lookup key = some value ∧ ownerAmong key m.membership.activeMembers = some x.target ∧
      x.target ≠ m.membership.selfNode
  once : ((m.checkAndMigrate peers ords store).2.2.map (·.request.key)).Nodup
  removed : ∀ key value, store.map.lookup key = some value →
    (m.checkAndMigrate peers ords store).2.1.map.lookup key = none →
      ∃ b ∈ m.batches peers ords store, b.succeeded = true ∧ key ∈ b.keys ∧
        ownerAmong key m.membership.activeMembers = some b.target
  kept : ∀ key, ownerAmong key m.membership.activeMembers = some m.membership.selfNode →
    (∀ x ∈ (m.checkAndMigrate peers ords store).2.2, x.request.key ≠ utf8Bytes key) ∧
      (m.checkAndMigrate peers ords store).2.1.map.lookup key = store.map.lookup key
  returned : (m.checkAndMigrate peers ords store).1 = acknowledgements (m.batches peers ords store)

theorem sent_to_owner {x : Exchange} (hx : x ∈ (m.checkAndMigrate peers ords store).2.2) :
    ∃ key value, x.request = migrationRequest key value ∧ store.map.lookup key = some value ∧
      ownerAmong key m.membership.activeMembers = some x.target ∧ x.target ≠ m.membership.selfNode := by
  obtain ⟨target, key, value, hm, rfl⟩ := checkAndMigrate_exchanges hx
  exact ⟨key, value, rfl, hm.stored, hm.owner, hm.remote⟩

theorem kept_of_own {key : String} (ho : ownerAmong key m.membership.activeMembers = some m.membership.selfNode) :
    (∀ x ∈ (m.checkAndMigrate peers ords store).2.2, x.request.key ≠ utf8Bytes key) ∧
      (m.checkAndMigrate peers ords store).2.1.map.lookup key = store.map.lookup key := by
  constructor
  · intro x hx hkey
    obtain ⟨key', value, hrequest, -, howner, hremote⟩ := sent_to_owner hx
    rw [hrequest] at hkey
    obtain rfl : key' = key := utf8Bytes_inj hkey
    rw [ho] at howner
    exact hremote (Option.some.inj howner).symm
  · refine checkAndMigrate_frame fun target value hm => hm.remote ?_
    have howner := hm.owner
    rw [ho] at howner
    exact (Option.some.inj howner).symm

variable (m peers ords store) in
/-- A check is the loop over its groups, and one that does not go ahead over none. -/
theorem checkAndMigrate_batches : ∃ groups, m.checkAndMigrate peers ords store =
      migrateTargets peers ords.entries groups store 0 ∧
    m.batches peers ords store = migrateBatches peers ords.entries groups store ∧
    (∀ g ∈ groups, g ∈ m.groups ords store) ∧ DisjointGroups groups := by
  by_cases hgo : m.migrationEnabled = true ∧ m.migrating = false
  · exact ⟨m.groups ords store, checkAndMigrate_eq hgo.1 hgo.2, if_pos hgo, fun _ hg => hg, groups_disjoint⟩
  · exact ⟨[], checkAndMigrate_of_stopped hgo, if_neg hgo, fun _ hg => (List.not_mem_nil hg).elim,
      List.Pairwise.nil⟩

/-- For every store, membership, iteration orders and behaviour of the peers. -/
theorem migration_routes_keys (m : MigrationManager) (peers : Peers) (ords : MigrationOrders) (store : NoVoHT) :
    m.RoutesKeys peers ords store := by
  obtain ⟨groups, hcheck, hbatches, hgroups, hdisjoint⟩ := checkAndMigrate_batches m peers ords store
  obtain ⟨hcount, hexchanges⟩ := migrateTargets_eq peers ords.entries groups store 0
  constructor
  · rw [hcheck, hbatches, hexchanges]
  · intro x hx
    exact sent_to_owner hx
  · rw [hcheck, hexchanges]
    exact nodup_migrateBatches hdisjoint store
  · intro key value hv hgone
    rw [hcheck] at hgone
    obtain ⟨b, hb, hok, hkey⟩ := batch_of_removed hv hgone
    obtain ⟨⟨addr, hg⟩, -⟩ := mem_migrateBatches hb
    obtain ⟨_, hm⟩ := (mem_group_keys (hgroups _ hg)).1 hkey
    exact ⟨b, hbatches ▸ hb, hok, hkey, hm.owner⟩
  · intro key ho
    exact kept_of_own ho
  · rw [hcheck, hbatches, hcount, Nat.zero_add]

end MigrationManager

end Zht
