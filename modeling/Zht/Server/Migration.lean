/-
`MigrationManager::check_and_migrate`: keys whose hash no longer selects this node are grouped by
their new owner, sent there one INSERT at a time, and removed from the local store when the whole
group went through. A group goes through when no INSERT of it fails in transport; a refusal by the
peer only lowers the count.

Every hash map is walked in an order of its own; peers are a function of the target and the request.
The exchanges with the peers are recorded beside each result.
-/
import Mathlib.Data.String.Basic
import Zht.Proto.ZPack
import Zht.Server.Membership
import Zht.Storage.Table

namespace Zht

open Lib Lib.Utf8

/-! ## The code -/

structure MigrationManager where
  membership : MembershipManager
  migrationEnabled : Bool
  migrating : Bool
  deriving DecidableEq, Repr

/-- What a peer makes of a request: an answer, or a failure in transport. -/
abbrev Peers := HostEntity → ZPack → ZhtResult ZPack

/-- One request to a peer, and what it came to. -/
structure Exchange where
  target : HostEntity
  request : ZPack
  result : ZhtResult ZPack

/-- `status.starts_with(REC_SUCC)`. -/
def acknowledges (response : ZPack) : Bool := REC_SUCC.toList.isPrefixOf (fromUtf8Lossy response.lease).toList

def migrationRequest (key value : String) : ZPack :=
  { opcode := utf8Bytes OPC_INSERT, key := utf8Bytes key, val := utf8Bytes value }

/-- The loop of `migrate_keys_for_node` over the entries of the store. -/
def migrateEntries (peers : Peers) (target : HostEntity) (keys : List String) :
    List (String × String) → Nat → Except String Nat × List Exchange
  | [], migrated => (.ok migrated, [])
  | (key, value) :: entries, migrated =>
    if key ∉ keys then migrateEntries peers target keys entries migrated
    else
      let request := migrationRequest key value
      match peers target request with
      | .ok response =>
        -- a refusal is logged, and the loop goes on
        let rest := migrateEntries peers target keys entries (if acknowledges response then migrated + 1 else migrated)
        (rest.1, ⟨target, request, .ok response⟩ :: rest.2)
      | .error e =>
        (.error ("Failed to migrate key '" ++ key ++ "': " ++ e.text), [⟨target, request, .error e⟩])

def migrateKeysForNode (peers : Peers) (ord : HashMap.Order String String) (store : NoVoHT) (target : HostEntity)
    (keys : List String) : Except String Nat × List Exchange :=
  if keys = [] then (.ok 0, []) else migrateEntries peers target keys (ord.entries store.map) 0

/-- Remove the migrated keys from the local store. -/
def removeAll (store : NoVoHT) (keys : List String) : NoVoHT := keys.foldl (fun s key => (s.remove key).2) store

/-- The loop over the groups: the number of migrated keys, the store and the exchanges. -/
def migrateTargets (peers : Peers) (ord : HashMap.Order String String) :
    List (String × HostEntity × List String) → NoVoHT → Nat → Nat × NoVoHT × List Exchange
  | [], store, migrated => (migrated, store, [])
  | (_, target, keys) :: groups, store, migrated =>
    let batch := migrateKeysForNode peers ord store target keys
    let rest := match batch.1 with
      -- all keys of the group go, the refused ones with them
      | .ok count => migrateTargets peers ord groups (removeAll store keys) (migrated + count)
      | .error _ => migrateTargets peers ord groups store migrated
    (rest.1, rest.2.1, batch.2 ++ rest.2.2)

/-- The iteration orders of the hash maps a check walks. -/
structure MigrationOrders where
  keys : HashMap.Order String String
  entries : HashMap.Order String String
  moves : HashMap.Order String HostEntity
  targets : HashMap.Order String (HostEntity × List String)

namespace MigrationManager

/-- The keys that belong to another node now, with that node. -/
def keysToMigrate (m : MigrationManager) (keys : List String) : HashMap String HostEntity :=
  keys.foldl (fun acc key =>
    match ownerAmong key m.membership.activeMembers with
    | some target => if target ≠ m.membership.selfNode then acc.insert key target else acc
    | none => acc) ∅

/-- Group by target node, under its address. -/
def byTarget (moves : List (String × HostEntity)) : HashMap String (HostEntity × List String) :=
  moves.foldl (fun acc move =>
    match acc.lookup move.2.address with
    | some (target, keys) => acc.insert move.2.address (target, keys ++ [move.1])
    | none => acc.insert move.2.address (move.2, [move.1])) ∅

/-- The number of migrated keys, the local store and the exchanges with the peers. -/
def checkAndMigrate (m : MigrationManager) (peers : Peers) (ords : MigrationOrders) (store : NoVoHT) :
    Nat × NoVoHT × List Exchange :=
  if m.migrationEnabled = false ∨ m.migrating then (0, store, [])
  else
    let moves := m.keysToMigrate (ords.keys.keys store.map)
    if moves = ∅ then (0, store, [])
    else migrateTargets peers ords.entries (ords.targets.entries (byTarget (ords.moves.entries moves))) store 0

end MigrationManager

end Zht
