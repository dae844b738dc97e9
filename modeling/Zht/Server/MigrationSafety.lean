/-
What a migration keeps. The groups of `check_and_migrate` split the keys that moved away by their
new owner, so a key is sent to one peer and removed with one group. A group with a failure in
transport keeps all its keys; any other group loses all of them, those the peer refused as well.
Nothing is lost exactly when every group either meets a failure in transport or is acknowledged to
its last key.
-/
import Zht.Server.Migration

namespace Zht

open Lib Lib.Utf8

/-! ## What peers do with a key -/

/-- The INSERT of a key sent to a peer. -/
def exchange (peers : Peers) (target : HostEntity) (key value : String) : Exchange :=
  ⟨target, migrationRequest key value, peers target (migrationRequest key value)⟩

/-- The peer answered with a success status. -/
def Exchange.Acknowledged (x : Exchange) : Prop := ∃ response, x.result = .ok response ∧ acknowledges response

/-- The request did not come back with an answer. -/
def Exchange.Failed (x : Exchange) : Prop := ∃ e, x.result = .error e

theorem migrationRequest_inj {key key' value value' : String}
    (h : migrationRequest key value = migrationRequest key' value') : key = key' ∧ value = value' :=
  ⟨utf8Bytes_inj (congrArg ZPack.key h), utf8Bytes_inj (congrArg ZPack.val h)⟩

/-! ## One group -/

section Group

variable {peers : Peers} {target : HostEntity} {keys : List String}

/-- A group whose requests are all answered is sent to the last entry. -/
theorem migrateEntries_ok {entries : List (String × String)} {migrated count : Nat}
    (h : (migrateEntries peers target keys entries migrated).1 = .ok count) :
    ∀ p ∈ entries, p.1 ∈ keys → ¬(exchange peers target p.1 p.2).Failed ∧
      exchange peers target p.1 p.2 ∈ (migrateEntries peers target keys entries migrated).2 := by
  fun_induction migrateEntries peers target keys entries migrated with
  | case1 => intro p hp; cases hp
  | case2 key value entries migrated hk ih =>
    intro p hp hpk
    rcases List.mem_cons.1 hp with rfl | hp
    · exact absurd hpk hk
    · exact ih h p hp hpk
  | case3 key value entries migrated hk request response hr rest ih =>
    have hx : exchange peers target key value = ⟨target, request, .ok response⟩ := by rw [exchange, hr]
    intro p hp hpk
    rcases List.mem_cons.1 hp with rfl | hp
    · rw [hx]
      refine ⟨?_, List.mem_cons_self⟩
      rintro ⟨e, he⟩
      cases he
    · exact (ih h p hp hpk).imp_right (List.mem_cons_of_mem _)
  | case4 key value entries migrated hk request e hr => cases h

/-- A group is given up only at a failure in transport. -/
theorem migrateEntries_error {entries : List (String × String)} {migrated : Nat} {e : String}
    (h : (migrateEntries peers target keys entries migrated).1 = .error e) :
    ∃ p ∈ entries, p.1 ∈ keys ∧ (exchange peers target p.1 p.2).Failed := by
  fun_induction migrateEntries peers target keys entries migrated with
  | case1 => cases h
  | case2 key value entries migrated hk ih | case3 key value entries migrated hk request response hr rest ih =>
    obtain ⟨p, hp, hf⟩ := ih h
    exact ⟨p, List.mem_cons_of_mem _ hp, hf⟩
  | case4 key value entries migrated hk request e' hr =>
    exact ⟨(key, value), List.mem_cons_self, Decidable.not_not.1 hk, e', hr⟩

/-- Only entries of the group's keys are sent, and only to the group's target. -/
theorem migrateEntries_exchanges {entries : List (String × String)} {migrated : Nat} {x : Exchange}
    (hx : x ∈ (migrateEntries peers target keys entries migrated).2) :
    ∃ key value, key ∈ keys ∧ (key, value) ∈ entries ∧ x = exchange peers target key value := by
  fun_induction migrateEntries peers target keys entries migrated with
  | case1 => cases hx
  | case2 key value entries migrated hk ih =>
    obtain ⟨k, v, hkey, he, rfl⟩ := ih hx
    exact ⟨k, v, hkey, List.mem_cons_of_mem _ he, rfl⟩
  | case3 key value entries migrated hk request response hr rest ih =>
    rcases List.mem_cons.1 hx with rfl | hx
    · exact ⟨key, value, Decidable.not_not.1 hk, List.mem_cons_self, by rw [exchange, hr]⟩
    · obtain ⟨k, v, hkey, he, rfl⟩ := ih hx
      exact ⟨k, v, hkey, List.mem_cons_of_mem _ he, rfl⟩
  | case4 key value entries migrated hk request e hr =>
    exact ⟨key, value, Decidable.not_not.1 hk, List.mem_cons_self, by rw [List.mem_singleton.1 hx, exchange, hr]⟩

/-- The keys of the group that the store holds: some INSERT fails. -/
def GroupFails (peers : Peers) (map : Table) (target : HostEntity) (keys : List String) : Prop :=
  ∃ key ∈ keys, ∃ value, map.lookup key = some value ∧ (exchange peers target key value).Failed

variable (peers target keys) in
/-- A group ends in an error exactly when one of its keys fails in transport. -/
theorem migrateKeysForNode_error_iff (ord : HashMap.Order String String) (store : NoVoHT) :
    (∃ e, (migrateKeysForNode peers ord store target keys).1 = .error e) ↔
      GroupFails peers store.map target keys := by
  unfold migrateKeysForNode
  by_cases hk : keys = []
  · simp [hk, GroupFails]
  · simp only [hk, ↓reduceIte]
    constructor
    · rintro ⟨e, he⟩
      obtain ⟨⟨key, value⟩, hp, hpk, hf⟩ := migrateEntries_error he
      exact ⟨key, hpk, value, (ord.mem _ _ _).1 hp, hf⟩
    · rintro ⟨key, hkey, value, hv, hf⟩
      cases hr : (migrateEntries peers target keys (ord.entries store.map) 0).1 with
      | error e => exact ⟨e, rfl⟩
      | ok count => exact absurd hf (migrateEntries_ok hr (key, value) ((ord.mem _ _ _).2 hv) hkey).1

theorem migrateKeysForNode_sends {ord : HashMap.Order String String} {store : NoVoHT} {count : Nat}
    (h : (migrateKeysForNode peers ord store target keys).1 = .ok count) {key value : String} (hkey : key ∈ keys)
    (hv : store.map.lookup key = some value) :
    exchange peers target key value ∈ (migrateKeysForNode peers ord store target keys).2 := by
  unfold migrateKeysForNode at h ⊢
  have hk : keys ≠ [] := List.ne_nil_of_mem hkey
  simp only [hk, ↓reduceIte] at h ⊢
  exact (migrateEntries_ok h (key, value) ((ord.mem _ _ _).2 hv) hkey).2

theorem migrateKeysForNode_exchanges {ord : HashMap.Order String String} {store : NoVoHT} {x : Exchange}
    (hx : x ∈ (migrateKeysForNode peers ord store target keys).2) :
    ∃ key value, key ∈ keys ∧ store.map.lookup key = some value ∧ x = exchange peers target key value := by
  unfold migrateKeysForNode at hx
  split at hx
  · cases hx
  · obtain ⟨key, value, hkey, he, hexchange⟩ := migrateEntries_exchanges hx
    exact ⟨key, value, hkey, (ord.mem _ _ _).1 he, hexchange⟩

theorem remove_lookup (store : NoVoHT) (key k : String) :
    (store.remove key).2.map.lookup k = if k = key then none else store.map.lookup k := by
  cases h : store.map.lookup key with
  | none =>
    rw [NoVoHT.remove_of_none h]
    split
    · next hk => rw [hk, h]
    · rfl
  | some value =>
    obtain ⟨s, hs, hmap⟩ := NoVoHT.remove_of_some h
    rw [hs, hmap]
    split
    · next hk => rw [hk, Finmap.lookup_erase]
    · next hk => rw [Finmap.lookup_erase_ne hk]

theorem removeAll_lookup (store : NoVoHT) (keys : List String) (k : String) :
    (removeAll store keys).map.lookup k = if k ∈ keys then none else store.map.lookup k := by
  induction keys generalizing store with
  | nil => simp [removeAll]
  | cons key keys ih =>
    have hstep : removeAll store (key :: keys) = removeAll (store.remove key).2 keys := rfl
    rw [hstep, ih, remove_lookup]
    by_cases hk : k = key <;> simp [hk]

/-- What is left after a removal was there before. -/
theorem lookup_of_removeAll {store : NoVoHT} {keys : List String} {k v : String}
    (h : (removeAll store keys).map.lookup k = some v) : store.map.lookup k = some v := by
  rw [removeAll_lookup] at h
  split at h
  · cases h
  · exact h

end Group

/-! ## All groups -/

section Groups

variable {peers : Peers} {ord : HashMap.Order String String}

/-- No key is in two groups. -/
def DisjointGroups (groups : List (String × HostEntity × List String)) : Prop :=
  groups.Pairwise fun g h => ∀ key ∈ g.2.2, key ∉ h.2.2

/-- A key of no group stays. -/
theorem migrateTargets_lookup_of_not_mem {groups : List (String × HostEntity × List String)} {store : NoVoHT}
    {migrated : Nat} {k : String} (hk : ∀ g ∈ groups, k ∉ g.2.2) :
    (migrateTargets peers ord groups store migrated).2.1.map.lookup k = store.map.lookup k := by
  induction groups generalizing store migrated with
  | nil => rfl
  | cons g groups ih =>
    obtain ⟨addr, target, keys⟩ := g
    have hrest : ∀ g ∈ groups, k ∉ g.2.2 := fun g hg => hk g (List.mem_cons_of_mem _ hg)
    simp only [migrateTargets]
    cases (migrateKeysForNode peers ord store target keys).1 with
    | ok count =>
      simp only [ih hrest, removeAll_lookup, hk (addr, target, keys) List.mem_cons_self, ↓reduceIte]
    | error e => exact ih hrest

/-- The keys of a group with a failure stay; those of any other group are sent and removed. -/
theorem migrateTargets_lookup_of_mem {groups : List (String × HostEntity × List String)} {store : NoVoHT}
    {migrated : Nat} (hdisj : DisjointGroups groups) {addr : String} {target : HostEntity} {keys : List String}
    (hg : (addr, target, keys) ∈ groups) {k v : String} (hk : k ∈ keys) (hv : store.map.lookup k = some v) :
    (GroupFails peers store.map target keys ∧
        (migrateTargets peers ord groups store migrated).2.1.map.lookup k = some v) ∨
      (¬GroupFails peers store.map target keys ∧
        (migrateTargets peers ord groups store migrated).2.1.map.lookup k = none ∧
        exchange peers target k v ∈ (migrateTargets peers ord groups store migrated).2.2) := by
  induction groups generalizing store migrated with
  | nil => cases hg
  | cons g groups ih =>
    obtain ⟨hhead, htail⟩ := List.pairwise_cons.1 hdisj
    rcases List.mem_cons.1 hg with rfl | hlater
    · -- its own group: the later groups do not touch the key
      have hrest : ∀ g ∈ groups, k ∉ g.2.2 := fun g hg => hhead g hg k hk
      have hfails := migrateKeysForNode_error_iff peers target keys ord store
      simp only [migrateTargets]
      cases hb : (migrateKeysForNode peers ord store target keys).1 with
      | error e => exact .inl ⟨hfails.1 ⟨e, hb⟩, by rw [migrateTargets_lookup_of_not_mem hrest, hv]⟩
      | ok count =>
        refine .inr ⟨fun h => ?_, ?_, List.mem_append_left _ (migrateKeysForNode_sends hb hk hv)⟩
        · obtain ⟨e, he⟩ := hfails.2 h
          rw [hb] at he; cases he
        · simp only [migrateTargets_lookup_of_not_mem hrest, removeAll_lookup, hk, ↓reduceIte]
    · -- an earlier group leaves this group's keys as they are
      obtain ⟨addr', target', keys'⟩ := g
      have hkeys : ∀ key ∈ keys, key ∉ keys' := fun key hkey hkey' => hhead (addr, target, keys) hlater key hkey' hkey
      simp only [migrateTargets]
      cases (migrateKeysForNode peers ord store target' keys').1 with
      | error e =>
        exact (ih htail hlater hv).imp id fun ⟨h₁, h₂, h₃⟩ => ⟨h₁, h₂, List.mem_append_right _ h₃⟩
      | ok count =>
        have hlookup : ∀ key ∈ keys, (removeAll store keys').map.lookup key = store.map.lookup key := by
          intro key hkey
          simp only [removeAll_lookup, hkeys key hkey, ↓reduceIte]
        have hfails : GroupFails peers (removeAll store keys').map target keys ↔
            GroupFails peers store.map target keys := by
          unfold GroupFails
          exact exists_congr fun key => and_congr_right fun hkey => by rw [hlookup key hkey]
        rw [← hfails]
        exact (ih htail hlater (by rw [hlookup k hk]; exact hv)).imp id fun ⟨h₁, h₂, h₃⟩ =>
          ⟨h₁, h₂, List.mem_append_right _ h₃⟩

/-- Every request takes an entry of the store to the target of the key's group. -/
theorem migrateTargets_exchanges {groups : List (String × HostEntity × List String)} {store : NoVoHT}
    {migrated : Nat} {x : Exchange} (hx : x ∈ (migrateTargets peers ord groups store migrated).2.2) :
    ∃ g ∈ groups, ∃ key value, key ∈ g.2.2 ∧ store.map.lookup key = some value ∧
      x = exchange peers g.2.1 key value := by
  induction groups generalizing store migrated with
  | nil => cases hx
  | cons g groups ih =>
    obtain ⟨addr, target, keys⟩ := g
    simp only [migrateTargets] at hx
    rcases List.mem_append.1 hx with hx | hx
    · exact ⟨_, List.mem_cons_self, migrateKeysForNode_exchanges hx⟩
    · cases hb : (migrateKeysForNode peers ord store target keys).1 with
      | ok count =>
        rw [hb] at hx
        obtain ⟨g, hg, key, value, hkey, hv, hexchange⟩ := ih hx
        exact ⟨g, List.mem_cons_of_mem _ hg, key, value, hkey, lookup_of_removeAll hv, hexchange⟩
      | error e =>
        rw [hb] at hx
        obtain ⟨g, hg, h⟩ := ih hx
        exact ⟨g, List.mem_cons_of_mem _ hg, h⟩

end Groups

/-! ## The groups of a check -/

namespace MigrationManager

/-- The keys that move to a target. -/
def keysOf (moves : List (String × HostEntity)) (target : HostEntity) : List String :=
  (moves.filter (·.2 = target)).map Prod.fst

theorem mem_keysOf {moves : List (String × HostEntity)} {target : HostEntity} {k : String} :
    k ∈ keysOf moves target ↔ (k, target) ∈ moves := by
  simp [keysOf]

theorem keysOf_concat (moves : List (String × HostEntity)) (move : String × HostEntity) (target : HostEntity) :
    keysOf (moves ++ [move]) target = keysOf moves target ++ (if move.2 = target then [move.1] else []) := by
  unfold keysOf
  by_cases h : move.2 = target <;> simp [h]

theorem byTarget_concat (moves : List (String × HostEntity)) (move : String × HostEntity) :
    byTarget (moves ++ [move]) = (byTarget moves).insert move.2.address
      (((byTarget moves).lookup move.2.address).elim (move.2, [move.1]) fun group =>
        (group.1, group.2 ++ [move.1])) := by
  rw [byTarget, List.foldl_append, List.foldl_cons, List.foldl_nil, ← byTarget]
  cases (byTarget moves).lookup move.2.address <;> rfl

/-- Under the address of a target stand the keys that move to it. -/
theorem byTarget_lookup (moves : List (String × HostEntity)) (target : HostEntity) :
    (byTarget moves).lookup target.address =
      if keysOf moves target = [] then none else some (target, keysOf moves target) := by
  induction moves using List.reverseRecOn with
  | nil => rfl
  | append_singleton moves move ih =>
    rw [byTarget_concat, keysOf_concat]
    by_cases ht : move.2 = target
    · rw [ht, Finmap.lookup_insert, ih]
      by_cases hk : keysOf moves target = [] <;> simp [hk]
    · have hne : target.address ≠ move.2.address := fun h => ht (HostEntity.address_inj h).symm
      rw [Finmap.lookup_insert_of_ne _ hne, ih]
      simp [ht]

/-- Every group stands under the address of its target. -/
theorem byTarget_address {moves : List (String × HostEntity)} {addr : String} {target : HostEntity}
    {keys : List String} (h : (byTarget moves).lookup addr = some (target, keys)) : addr = target.address := by
  induction moves using List.reverseRecOn generalizing target keys with
  | nil => cases h
  | append_singleton moves move ih =>
    by_cases ha : addr = move.2.address
    · subst ha
      rw [byTarget_lookup] at h
      split at h
      · cases h
      · rw [← (Prod.mk.inj (Option.some.inj h)).1]
    · rw [byTarget_concat, Finmap.lookup_insert_of_ne _ ha] at h
      exact ih h

theorem keysToMigrate_concat (m : MigrationManager) (keys : List String) (key : String) :
    m.keysToMigrate (keys ++ [key]) =
      (ownerAmong key m.membership.activeMembers).elim (m.keysToMigrate keys) fun target =>
        if target ≠ m.membership.selfNode then (m.keysToMigrate keys).insert key target
        else m.keysToMigrate keys := by
  rw [keysToMigrate, List.foldl_append, List.foldl_cons, List.foldl_nil, ← keysToMigrate]
  cases ownerAmong key m.membership.activeMembers <;> rfl

/-- The keys that moved away from this node, each with its new owner. -/
theorem keysToMigrate_lookup (m : MigrationManager) (keys : List String) (k : String) (target : HostEntity) :
    (m.keysToMigrate keys).lookup k = some target ↔
      k ∈ keys ∧ ownerAmong k m.membership.activeMembers = some target ∧ target ≠ m.membership.selfNode := by
  induction keys using List.reverseRecOn with
  | nil => simp [keysToMigrate]
  | append_singleton keys key ih =>
    rw [keysToMigrate_concat, List.mem_append, List.mem_singleton]
    by_cases hk : k = key
    · subst hk
      cases ho : ownerAmong k m.membership.activeMembers with
      | none => simp [ih, ho]
      | some t =>
        by_cases ht : t = m.membership.selfNode
        · -- the key stays, now or when it was met before
          simp only [Option.elim_some, ht, ne_eq, not_true_eq_false, ↓reduceIte, ih, ho, Option.some.injEq,
            or_true, true_and]
          grind
        · simp only [Option.elim_some, ne_eq, ht, not_false_eq_true, ↓reduceIte, Finmap.lookup_insert,
            Option.some.injEq, or_true, true_and]
          grind
    · cases ho : ownerAmong key m.membership.activeMembers with
      | none => simp [ih, hk]
      | some t =>
        by_cases ht : t = m.membership.selfNode
        · simp [ih, hk, ht]
        · simp [ih, hk, ht, Finmap.lookup_insert_of_ne]

/-! ## A check -/

variable {m : MigrationManager} {peers : Peers} {ords : MigrationOrders} {store : NoVoHT}

/-- A stored key, its value, and the other node that owns the key now. -/
structure MovesTo (m : MigrationManager) (store : NoVoHT) (target : HostEntity) (key value : String) : Prop where
  stored : store.map.lookup key = some value
  owner : ownerAmong key m.membership.activeMembers = some target
  remote : target ≠ m.membership.selfNode

/-- The moves of a check. -/
abbrev moves (m : MigrationManager) (ords : MigrationOrders) (store : NoVoHT) : List (String × HostEntity) :=
  ords.moves.entries (m.keysToMigrate (ords.keys.keys store.map))

/-- The groups of a check. -/
abbrev groups (m : MigrationManager) (ords : MigrationOrders) (store : NoVoHT) :
    List (String × HostEntity × List String) :=
  ords.targets.entries (byTarget (m.moves ords store))

theorem mem_moves {key : String} {target : HostEntity} :
    (key, target) ∈ m.moves ords store ↔ ∃ value, m.MovesTo store target key value := by
  rw [ords.moves.mem, keysToMigrate_lookup, ords.keys.mem_keys]
  constructor
  · rintro ⟨⟨value, hv⟩, ho, hr⟩
    exact ⟨value, hv, ho, hr⟩
  · rintro ⟨value, hv, ho, hr⟩
    exact ⟨⟨value, hv⟩, ho, hr⟩

theorem mem_groups {addr : String} {target : HostEntity} {keys : List String} :
    (addr, target, keys) ∈ m.groups ords store ↔
      addr = target.address ∧ keys = keysOf (m.moves ords store) target ∧ keys ≠ [] := by
  rw [ords.targets.mem]
  constructor
  · intro h
    obtain rfl := byTarget_address h
    rw [byTarget_lookup] at h
    split at h
    · cases h
    · next hk =>
      obtain rfl : keysOf (m.moves ords store) target = keys := by simpa using h
      exact ⟨rfl, rfl, hk⟩
  · rintro ⟨rfl, rfl, hk⟩
    rw [byTarget_lookup, if_neg hk]

/-- The keys of a group are the ones its target owns. -/
theorem mem_group_keys {addr : String} {target : HostEntity} {keys : List String}
    (hg : (addr, target, keys) ∈ m.groups ords store) {key : String} :
    key ∈ keys ↔ ∃ value, m.MovesTo store target key value := by
  obtain ⟨-, rfl, -⟩ := mem_groups.1 hg
  rw [mem_keysOf, mem_moves]

theorem groups_disjoint : DisjointGroups (m.groups ords store) := by
  have haddr : (m.groups ords store).Pairwise fun g h => g.1 ≠ h.1 :=
    List.pairwise_map.1 (ords.targets.nodup _)
  refine haddr.imp_of_mem fun {g h} hg hh hne key hkg hkh => hne ?_
  obtain ⟨_, mg⟩ := (mem_group_keys hg).1 hkg
  obtain ⟨_, mh⟩ := (mem_group_keys hh).1 hkh
  rw [(mem_groups.1 hg).1, (mem_groups.1 hh).1, Option.some.inj (mg.owner.symm.trans mh.owner)]

variable (ords) in
/-- The group of a key that moves. -/
theorem group_of_moves {target : HostEntity} {key value : String} (h : m.MovesTo store target key value) :
    (target.address, target, keysOf (m.moves ords store) target) ∈ m.groups ords store ∧
      key ∈ keysOf (m.moves ords store) target := by
  have hkey : key ∈ keysOf (m.moves ords store) target := mem_keysOf.2 (mem_moves.2 ⟨value, h⟩)
  exact ⟨mem_groups.2 ⟨rfl, rfl, List.ne_nil_of_mem hkey⟩, hkey⟩

/-- Some key that moves to the target fails in transport. -/
def TargetFails (m : MigrationManager) (peers : Peers) (store : NoVoHT) (target : HostEntity) : Prop :=
  ∃ key value, m.MovesTo store target key value ∧ (exchange peers target key value).Failed

variable (ords) in
theorem groupFails_iff (target : HostEntity) :
    GroupFails peers store.map target (keysOf (m.moves ords store) target) ↔ m.TargetFails peers store target := by
  unfold GroupFails TargetFails
  constructor
  · rintro ⟨key, hkey, value, hv, hf⟩
    obtain ⟨_, hm⟩ := mem_moves.1 (mem_keysOf.1 hkey)
    exact ⟨key, value, ⟨hv, hm.owner, hm.remote⟩, hf⟩
  · rintro ⟨key, value, hm, hf⟩
    exact ⟨key, (group_of_moves ords hm).2, value, hm.stored, hf⟩

/-- A check that goes ahead works through the groups; without a group it changes nothing. -/
theorem checkAndMigrate_eq (hon : m.migrationEnabled = true) (hidle : m.migrating = false) :
    m.checkAndMigrate peers ords store = migrateTargets peers ords.entries (m.groups ords store) store 0 := by
  simp only [checkAndMigrate, hon, hidle, Bool.true_eq_false, Bool.false_eq_true, or_self, ↓reduceIte]
  by_cases hm : m.keysToMigrate (ords.keys.keys store.map) = ∅
  · have hg : m.groups ords store = [] := by
      refine List.eq_nil_iff_forall_not_mem.2 fun g hg => ?_
      obtain ⟨-, hkeys, hne⟩ := mem_groups.1 hg
      obtain ⟨key, hkey⟩ := List.exists_mem_of_ne_nil _ hne
      rw [hkeys, mem_keysOf, ords.moves.mem, hm, Finmap.lookup_empty] at hkey
      cases hkey
    rw [if_pos hm, hg]; rfl
  · rw [if_neg hm]

/-- A check that is switched off, or finds another one going on, changes nothing. -/
theorem checkAndMigrate_of_stopped (h : ¬(m.migrationEnabled = true ∧ m.migrating = false)) :
    m.checkAndMigrate peers ords store = (0, store, []) := by
  have hstop : m.migrationEnabled = false ∨ m.migrating = true := by
    cases h₁ : m.migrationEnabled <;> cases h₂ : m.migrating <;> simp_all
  rw [checkAndMigrate, if_pos hstop]

/-- A key that is not here, that this node still owns, or that no alive member owns, is left alone. -/
theorem checkAndMigrate_frame {key : String} (h : ∀ target value, ¬m.MovesTo store target key value) :
    (m.checkAndMigrate peers ords store).2.1.map.lookup key = store.map.lookup key := by
  by_cases hgo : m.migrationEnabled = true ∧ m.migrating = false
  · rw [checkAndMigrate_eq hgo.1 hgo.2, migrateTargets_lookup_of_not_mem]
    intro g hg hkey
    obtain ⟨value, hm⟩ := (mem_group_keys hg).1 hkey
    exact h g.2.1 value hm
  · rw [checkAndMigrate_of_stopped hgo]

theorem checkAndMigrate_stays {key value : String} (hv : store.map.lookup key = some value)
    (h : ∀ target, ¬m.MovesTo store target key value) :
    (m.checkAndMigrate peers ords store).2.1.map.lookup key = some value := by
  refine (checkAndMigrate_frame fun target value' hm => h target ?_).trans hv
  obtain rfl : value = value' := Option.some.inj (hv.symm.trans hm.stored)
  exact hm

variable (peers ords) in
/-- A key that moves stays when its target fails at some key, and is sent and removed otherwise. -/
theorem checkAndMigrate_moves (hon : m.migrationEnabled = true) (hidle : m.migrating = false)
    {target : HostEntity} {key value : String} (h : m.MovesTo store target key value) :
    (m.TargetFails peers store target ∧ (m.checkAndMigrate peers ords store).2.1.map.lookup key = some value) ∨
      (¬m.TargetFails peers store target ∧ (m.checkAndMigrate peers ords store).2.1.map.lookup key = none ∧
        exchange peers target key value ∈ (m.checkAndMigrate peers ords store).2.2) := by
  obtain ⟨hg, hkey⟩ := group_of_moves ords h
  rw [checkAndMigrate_eq hon hidle, ← groupFails_iff ords]
  exact migrateTargets_lookup_of_mem groups_disjoint hg hkey h.stored

/-- Every request of a check takes an entry to the other node that owns its key. -/
theorem checkAndMigrate_exchanges {x : Exchange} (hx : x ∈ (m.checkAndMigrate peers ords store).2.2) :
    ∃ target key value, m.MovesTo store target key value ∧ x = exchange peers target key value := by
  by_cases hgo : m.migrationEnabled = true ∧ m.migrating = false
  · rw [checkAndMigrate_eq hgo.1 hgo.2] at hx
    obtain ⟨g, hg, key, value, hkey, hv, rfl⟩ := migrateTargets_exchanges hx
    obtain ⟨_, hm⟩ := (mem_group_keys hg).1 hkey
    exact ⟨g.2.1, key, value, ⟨hv, hm.owner, hm.remote⟩, rfl⟩
  · rw [checkAndMigrate_of_stopped hgo] at hx
    cases hx

/-! ## No key is lost -/

/-- Every pair of the store before is in the store after, or was acknowledged by the peer it was
sent to. -/
def Preserves (m : MigrationManager) (peers : Peers) (ords : MigrationOrders) (store : NoVoHT) : Prop :=
  ∀ key value, store.map.lookup key = some value →
    (m.checkAndMigrate peers ords store).2.1.map.lookup key = some value ∨
      ∃ x ∈ (m.checkAndMigrate peers ords store).2.2, x.request = migrationRequest key value ∧ x.Acknowledged

/-- Where a check goes ahead, each target fails in transport at one of its keys or acknowledges all
of them. -/
def AllOrNothing (m : MigrationManager) (peers : Peers) (store : NoVoHT) : Prop :=
  m.migrationEnabled = true → m.migrating = false → ∀ target,
    m.TargetFails peers store target ∨
      ∀ key value, m.MovesTo store target key value → (exchange peers target key value).Acknowledged

/-- A migration loses no key exactly when no group without a transport failure holds a refused key. -/
theorem preserves_iff_allOrNothing (m : MigrationManager) (peers : Peers) (ords : MigrationOrders)
    (store : NoVoHT) : m.Preserves peers ords store ↔ m.AllOrNothing peers store := by
  constructor
  · intro h hon hidle target
    by_cases hf : m.TargetFails peers store target
    · exact .inl hf
    -- without a failure the key is gone, so it was acknowledged
    refine .inr fun key value hm => ?_
    rcases checkAndMigrate_moves peers ords hon hidle hm with ⟨hf', -⟩ | ⟨-, hgone, -⟩
    · exact absurd hf' hf
    rcases h key value hm.stored with hkept | ⟨x, hx, hreq, hack⟩
    · rw [hgone] at hkept; cases hkept
    -- the acknowledged request names the key, so it went to the key's one owner
    obtain ⟨target', key', value', hm', rfl⟩ := checkAndMigrate_exchanges hx
    obtain ⟨rfl, rfl⟩ := migrationRequest_inj hreq
    have howner := hm'.owner
    rw [hm.owner] at howner
    cases howner
    exact hack
  · intro h key value hv
    by_cases hm : ∃ target, m.MovesTo store target key value
    · obtain ⟨target, hm⟩ := hm
      by_cases hgo : m.migrationEnabled = true ∧ m.migrating = false
      · rcases checkAndMigrate_moves peers ords hgo.1 hgo.2 hm with ⟨-, hkept⟩ | ⟨hf, -, hsent⟩
        · exact .inl hkept
        · exact .inr ⟨_, hsent, rfl, ((h hgo.1 hgo.2 target).resolve_left hf) key value hm⟩
      · exact .inl (by rw [checkAndMigrate_of_stopped hgo, hv])
    · exact .inl (checkAndMigrate_stays hv fun target ht => hm ⟨target, ht⟩)

/-- The one alive member refuses the key with `-03`: the key is removed all the same. -/
theorem refused_key_lost :
    ¬Preserves
      { membership := .new 0 ⟨"a", 50000⟩ [⟨"b", 50000⟩], migrationEnabled := true, migrating := false }
      (fun _ _ => .ok { lease := utf8Bytes REC_SRVFAIL })
      ⟨HashMap.Order.sorted, HashMap.Order.sorted, HashMap.Order.sorted, HashMap.Order.sorted⟩
      (NoVoHT.new.put "k" "v").2 := by
  intro h
  rcases h "k" "v" (by decide) with hkept | ⟨x, hx, -, response, hr, hack⟩
  · revert hkept
    decide +kernel
  · obtain ⟨target, key, value, -, rfl⟩ := checkAndMigrate_exchanges hx
    cases hr
    revert hack
    decide

end MigrationManager

end Zht
