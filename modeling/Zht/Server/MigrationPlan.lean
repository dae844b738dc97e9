/-
`calculate_migration_plan`: which keys leave this node for which other when one member list replaces
another. The loop fills a map by the address of the new owner; it is the grouping of
`check_and_migrate` over the keys whose owner changes (`plan_lookup`), and an address stands for one
host, so each such key is under its new owner and under no other.
-/
import Zht.Server.MigrationSafety

namespace Zht

open Lib

/-- The keys that should move to one node. -/
structure MigrationAction where
  targetHost : HostEntity
  keys : List String
  deriving DecidableEq, Repr

/-- The iteration orders of the hash maps a plan walks. -/
structure PlanOrders where
  keys : HashMap.Order String String
  plan : HashMap.Order String MigrationAction

namespace MigrationManager

/-- The body of the loop over the keys. -/
def planKey (m : MigrationManager) (oldMembers newMembers : List HostEntity) (plan : HashMap String MigrationAction)
    (key : String) : HashMap String MigrationAction :=
  let newOwner := ownerAmong key newMembers
  if ownerAmong key oldMembers ≠ newOwner then
    match newOwner with
    | some target =>
      if target ≠ m.membership.selfNode then
        -- the entry of the address, made when it is vacant
        match plan.lookup target.address with
        | some action => plan.insert target.address { action with keys := action.keys ++ [key] }
        | none => plan.insert target.address { targetHost := target, keys := [key] }
      else plan
    | none => plan
  else plan

def calculateMigrationPlan (m : MigrationManager) (ords : PlanOrders) (store : NoVoHT)
    (oldMembers newMembers : List HostEntity) : List MigrationAction :=
  if oldMembers = [] ∨ newMembers = [] then []
  else
    let plan := (ords.keys.keys store.map).foldl (m.planKey oldMembers newMembers) ∅
    (ords.plan.entries plan).map Prod.snd

section Plan

variable {m : MigrationManager} {ords : PlanOrders} {store : NoVoHT} {oldMembers newMembers : List HostEntity}

/-- The key is stored, its owner changes, and the new owner is the other node `target`. -/
structure PlannedTo (m : MigrationManager) (store : NoVoHT) (oldMembers newMembers : List HostEntity)
    (target : HostEntity) (key : String) : Prop where
  stored : ∃ value, store.map.lookup key = some value
  changed : ownerAmong key oldMembers ≠ ownerAmong key newMembers
  owner : ownerAmong key newMembers = some target
  remote : target ≠ m.membership.selfNode

/-- Distinct targets, no empty list of keys, and each key that has to move once, under its new owner. -/
structure ExactPlan (m : MigrationManager) (store : NoVoHT) (oldMembers newMembers : List HostEntity)
    (actions : List MigrationAction) : Prop where
  targets : (actions.map (·.targetHost)).Nodup
  nonempty : ∀ action ∈ actions, action.keys ≠ []
  once : (actions.flatMap (·.keys)).Nodup
  keys : ∀ key target, (∃ action ∈ actions, action.targetHost = target ∧ key ∈ action.keys) ↔
    m.PlannedTo store oldMembers newMembers target key

/-! ## The loop as a grouping -/

/-- The move of a key that has to leave. -/
def planMove (m : MigrationManager) (oldMembers newMembers : List HostEntity) (key : String) :
    Option (String × HostEntity) :=
  match ownerAmong key newMembers with
  | some target =>
    if ownerAmong key oldMembers ≠ some target ∧ target ≠ m.membership.selfNode then some (key, target) else none
  | none => none

theorem planMove_eq_some {key k : String} {target : HostEntity} :
    m.planMove oldMembers newMembers key = some (k, target) ↔
      k = key ∧ ownerAmong key oldMembers ≠ ownerAmong key newMembers ∧ ownerAmong key newMembers = some target ∧
        target ≠ m.membership.selfNode := by
  unfold planMove
  cases ho : ownerAmong key newMembers with
  | none => simp
  | some t =>
    simp only [Option.ite_none_right_eq_some, Option.some.injEq, Prod.mk.injEq]
    constructor
    · rintro ⟨⟨hc, hr⟩, rfl, rfl⟩
      exact ⟨rfl, hc, rfl, hr⟩
    · rintro ⟨rfl, hc, rfl, hr⟩
      exact ⟨⟨hc, hr⟩, rfl, rfl⟩

theorem planKey_eq (plan : HashMap String MigrationAction) (key : String) :
    m.planKey oldMembers newMembers plan key =
      (m.planMove oldMembers newMembers key).elim plan fun move =>
        plan.insert move.2.address (((plan.lookup move.2.address)).elim ⟨move.2, [move.1]⟩ fun action =>
          { action with keys := action.keys ++ [move.1] }) := by
  unfold planKey planMove
  cases ho : ownerAmong key newMembers with
  | none => simp
  | some target =>
    by_cases hc : ownerAmong key oldMembers = some target
    · simp [hc]
    · by_cases hr : target = m.membership.selfNode
      · simp [hr]
      · simp only [hc, hr, ne_eq, not_false_eq_true, and_self, ↓reduceIte, Option.elim_some]
        cases plan.lookup target.address <;> rfl

/-- The plan is the grouping by target of the keys that have to leave. -/
theorem plan_lookup (keys : List String) (addr : String) :
    (keys.foldl (m.planKey oldMembers newMembers) ∅).lookup addr =
      ((byTarget (keys.filterMap (m.planMove oldMembers newMembers))).lookup addr).map fun group =>
        ⟨group.1, group.2⟩ := by
  induction keys using List.reverseRecOn generalizing addr with
  | nil => rfl
  | append_singleton keys key ih =>
    rw [List.foldl_append, List.foldl_cons, List.foldl_nil, planKey_eq, List.filterMap_append]
    cases hmove : m.planMove oldMembers newMembers key with
    | none =>
      rw [List.filterMap_cons_none hmove, List.filterMap_nil, List.append_nil]
      exact ih addr
    | some move =>
      rw [List.filterMap_cons_some hmove, List.filterMap_nil, byTarget_concat, Option.elim_some]
      by_cases ha : addr = move.2.address
      · subst ha
        rw [Finmap.lookup_insert, Finmap.lookup_insert, ih]
        cases (byTarget (keys.filterMap (m.planMove oldMembers newMembers))).lookup move.2.address <;> rfl
      · rw [Finmap.lookup_insert_of_ne _ ha, Finmap.lookup_insert_of_ne _ ha, ih]

/-! ## The actions -/

/-- The moves of a plan. -/
abbrev planMoves (m : MigrationManager) (ords : PlanOrders) (store : NoVoHT) (oldMembers newMembers : List HostEntity) :
    List (String × HostEntity) :=
  (ords.keys.keys store.map).filterMap (m.planMove oldMembers newMembers)

theorem mem_planMoves {key : String} {target : HostEntity} :
    (key, target) ∈ m.planMoves ords store oldMembers newMembers ↔
      m.PlannedTo store oldMembers newMembers target key := by
  rw [List.mem_filterMap]
  constructor
  · rintro ⟨k, hk, hmove⟩
    obtain ⟨rfl, hc, ho, hr⟩ := planMove_eq_some.1 hmove
    exact ⟨(ords.keys.mem_keys _ _).1 hk, hc, ho, hr⟩
  · rintro ⟨hs, hc, ho, hr⟩
    exact ⟨key, (ords.keys.mem_keys _ _).2 hs, planMove_eq_some.2 ⟨rfl, hc, ho, hr⟩⟩

/-- A key is walked once, so it moves once. -/
theorem nodup_keysOf_planMoves (target : HostEntity) :
    (keysOf (m.planMoves ords store oldMembers newMembers) target).Nodup := by
  have hkeys : ((m.planMoves ords store oldMembers newMembers).map Prod.fst).Nodup := by
    have hsub : (m.planMoves ords store oldMembers newMembers).map Prod.fst =
        (ords.keys.keys store.map).filterMap fun key => (m.planMove oldMembers newMembers key).map Prod.fst :=
      List.map_filterMap
    rw [hsub]
    refine List.Nodup.filterMap ?_ (ords.keys.nodup store.map)
    intro k k' q hk hk'
    obtain ⟨⟨q₁, t₁⟩, h₁, rfl⟩ := Option.map_eq_some_iff.1 hk
    obtain ⟨⟨q₂, t₂⟩, h₂, heq⟩ := Option.map_eq_some_iff.1 hk'
    rw [← (planMove_eq_some.1 h₁).1, ← (planMove_eq_some.1 h₂).1]
    exact heq.symm
  exact hkeys.sublist (List.filter_sublist.map _)

theorem calculateMigrationPlan_eq (hold : oldMembers ≠ []) (hnew : newMembers ≠ []) :
    m.calculateMigrationPlan ords store oldMembers newMembers =
      (ords.plan.entries ((ords.keys.keys store.map).foldl (m.planKey oldMembers newMembers) ∅)).map Prod.snd :=
  if_neg (not_or.2 ⟨hold, hnew⟩)

/-- The entries of the plan: under the address of a target, the keys that move there. -/
theorem mem_plan_entries {addr : String} {action : MigrationAction} :
    (addr, action) ∈ ords.plan.entries ((ords.keys.keys store.map).foldl (m.planKey oldMembers newMembers) ∅) ↔
      addr = action.targetHost.address ∧
        action.keys = keysOf (m.planMoves ords store oldMembers newMembers) action.targetHost ∧ action.keys ≠ [] := by
  rw [ords.plan.mem, plan_lookup, Option.map_eq_some_iff]
  constructor
  · rintro ⟨⟨target, keys⟩, hg, rfl⟩
    obtain rfl := byTarget_address hg
    rw [byTarget_lookup] at hg
    split at hg
    · cases hg
    · next hne =>
      cases hg
      exact ⟨rfl, rfl, hne⟩
  · rintro ⟨rfl, hkeys, hne⟩
    refine ⟨(action.targetHost, action.keys), ?_, rfl⟩
    rw [byTarget_lookup, if_neg (hkeys ▸ hne), hkeys]

section NonEmpty

variable (hold : oldMembers ≠ []) (hnew : newMembers ≠ [])

include hold hnew

/-- An action lists the keys that move to its target, when there are any. -/
theorem mem_calculateMigrationPlan {action : MigrationAction} :
    action ∈ m.calculateMigrationPlan ords store oldMembers newMembers ↔
      action.keys = keysOf (m.planMoves ords store oldMembers newMembers) action.targetHost ∧ action.keys ≠ [] := by
  rw [calculateMigrationPlan_eq hold hnew, List.mem_map]
  constructor
  · rintro ⟨⟨addr, _⟩, he, rfl⟩
    exact (mem_plan_entries.1 he).2
  · intro h
    exact ⟨(action.targetHost.address, action), mem_plan_entries.2 ⟨rfl, h⟩, rfl⟩

theorem mem_action_keys {action : MigrationAction}
    (ha : action ∈ m.calculateMigrationPlan ords store oldMembers newMembers) {key : String} :
    key ∈ action.keys ↔ m.PlannedTo store oldMembers newMembers action.targetHost key := by
  rw [((mem_calculateMigrationPlan hold hnew).1 ha).1, mem_keysOf, mem_planMoves]

/-- The entries have distinct addresses, and an address is its target's. -/
theorem nodup_targets : ((m.calculateMigrationPlan ords store oldMembers newMembers).map (·.targetHost)).Nodup := by
  have haddr := ords.plan.nodup ((ords.keys.keys store.map).foldl (m.planKey oldMembers newMembers) ∅)
  have hmap : ((m.calculateMigrationPlan ords store oldMembers newMembers).map (·.targetHost)).map
      HostEntity.address =
        (ords.plan.entries ((ords.keys.keys store.map).foldl (m.planKey oldMembers newMembers) ∅)).map Prod.fst := by
    rw [calculateMigrationPlan_eq hold hnew, List.map_map, List.map_map]
    exact List.map_congr_left fun e he => (mem_plan_entries.1 he).1.symm
  exact List.Nodup.of_map HostEntity.address (hmap ▸ haddr)

/-- A key has one new owner, so no two actions list it. -/
theorem nodup_planned_keys :
    ((m.calculateMigrationPlan ords store oldMembers newMembers).flatMap (·.keys)).Nodup := by
  rw [List.nodup_flatMap]
  constructor
  · intro action ha
    rw [((mem_calculateMigrationPlan hold hnew).1 ha).1]
    exact nodup_keysOf_planMoves action.targetHost
  · refine (List.pairwise_map.1 (nodup_targets hold hnew)).imp_of_mem fun {a b} ha hb hne => ?_
    intro key hka hkb
    have hoa := ((mem_action_keys hold hnew ha).1 hka).owner
    rw [((mem_action_keys hold hnew hb).1 hkb).owner] at hoa
    exact hne (Option.some.inj hoa).symm

end NonEmpty

/-- For every store, self node, non-empty member lists and iteration orders the plan is exact. -/
theorem migration_plan_exact (m : MigrationManager) (ords : PlanOrders) (store : NoVoHT)
    (hold : oldMembers ≠ []) (hnew : newMembers ≠ []) :
    m.ExactPlan store oldMembers newMembers (m.calculateMigrationPlan ords store oldMembers newMembers) where
  targets := nodup_targets hold hnew
  nonempty _ ha := ((mem_calculateMigrationPlan hold hnew).1 ha).2
  once := nodup_planned_keys hold hnew
  keys key target := by
    constructor
    · rintro ⟨action, ha, rfl, hk⟩
      exact (mem_action_keys hold hnew ha).1 hk
    · intro h
      have hkey : key ∈ keysOf (m.planMoves ords store oldMembers newMembers) target :=
        mem_keysOf.2 (mem_planMoves.2 h)
      have hne : keysOf (m.planMoves ords store oldMembers newMembers) target ≠ [] := List.ne_nil_of_mem hkey
      exact ⟨⟨target, _⟩, (mem_calculateMigrationPlan hold hnew).2 ⟨rfl, hne⟩, rfl, hkey⟩

end Plan

/-- A store with one entry, and a second member that joins. -/
theorem migration_plan_exact_join :
    let m : MigrationManager := ⟨.new 0 ⟨"a", 1⟩ [⟨"b", 1⟩], true, false⟩
    m.ExactPlan (NoVoHT.new.put "k" "v").2 [⟨"a", 1⟩] [⟨"a", 1⟩, ⟨"b", 1⟩]
      (m.calculateMigrationPlan ⟨.sorted, .sorted⟩ (NoVoHT.new.put "k" "v").2 [⟨"a", 1⟩] [⟨"a", 1⟩, ⟨"b", 1⟩]) :=
  migration_plan_exact _ _ _ (by decide) (by decide)

end MigrationManager

end Zht
