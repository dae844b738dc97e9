/-
Client routing beside server ownership. A client takes the hash of a key modulo the whole neighbor
list. A server takes it modulo the members it knows, and it leaves itself out of them: it never owns
a key while another member is alive, and the nodes listed after it count one place less. Where the
two agree all the same is a matter of places in the list (`placed_alike_iff`).
-/
import Mathlib.Data.String.Basic
import Zht.Config.Routing
import Zht.Server.MigrationSafety
import Zht.Server.Server

namespace Zht

open Lib Lib.Utf8

/-! ## Places in a list with a node left out -/

/-- Leaving a node out moves those after it up by one. -/
theorem getElem?_leave_out {nodes : List HostEntity} (hnd : nodes.Nodup) (n : HostEntity) (j : Nat) :
    (nodes.filter (· ≠ n))[j]? = if j < nodes.idxOf n then nodes[j]? else nodes[j + 1]? := by
  have herase : nodes.filter (· ≠ n) = nodes.eraseIdx (nodes.idxOf n) := by
    rw [List.eraseIdx_idxOf_eq_erase, hnd.erase_eq_filter]
    refine List.filter_congr fun m _ => ?_
    by_cases hm : m = n <;> simp [hm]
  rw [herase, List.getElem?_eraseIdx]

theorem length_leave_out {nodes : List HostEntity} (hnd : nodes.Nodup) {n : HostEntity} (hn : n ∈ nodes) :
    (nodes.filter (· ≠ n)).length = nodes.length - 1 := by
  have herase : nodes.filter (· ≠ n) = nodes.erase n := by
    rw [hnd.erase_eq_filter]
    refine List.filter_congr fun m _ => ?_
    by_cases hm : m = n <;> simp [hm]
  rw [herase, List.length_erase_of_mem hn]

/-- The place of a node of a list without repetitions. -/
theorem getElem?_eq_iff {nodes : List HostEntity} (hnd : nodes.Nodup) {i : Nat} (hi : i < nodes.length) (j : Nat) :
    nodes[j]? = some nodes[i] ↔ j = i := by
  constructor
  · intro h
    obtain ⟨hj, he⟩ := List.getElem?_eq_some_iff.1 h
    exact hnd.getElem_inj_iff.1 he
  · rintro rfl
    exact List.getElem?_eq_getElem hi

/-! ## What a server knows -/

/-- All members a server starts with are alive, and it is none of them. -/
@[simp] theorem MembershipManager.new_activeMembers (now : Nat) (selfHost : HostEntity)
    (initialMembers : List HostEntity) :
    (MembershipManager.new now selfHost initialMembers).activeMembers = initialMembers.filter (· ≠ selfHost) := by
  simp [new, activeMembers, List.filter_map, Function.comp_def]

/-- The server's check keeps the key here: no request takes it to another node, and its entry stays. -/
def ZHTServer.Keeps (s : ZHTServer) (key : String) : Prop :=
  ∀ (peers : Peers) (ords : MigrationOrders),
    (∀ x ∈ (s.migration.checkAndMigrate peers ords s.store).2.2, x.request.key ≠ utf8Bytes key) ∧
      (s.migration.checkAndMigrate peers ords s.store).2.1.map.lookup key = s.store.map.lookup key

/-- A key that some other node owns is sent away. -/
theorem ZHTServer.not_keeps {s : ZHTServer} (hon : s.migration.migrationEnabled = true)
    (hidle : s.migration.migrating = false) {target : HostEntity} {key value : String}
    (h : s.migration.MovesTo s.store target key value) : ¬s.Keeps key := by
  intro hkeeps
  obtain ⟨-, hkept⟩ := hkeeps (fun _ _ => .ok {}) ⟨.sorted, .sorted, .sorted, .sorted⟩
  rcases MigrationManager.checkAndMigrate_moves (fun _ _ => .ok {}) ⟨.sorted, .sorted, .sorted, .sorted⟩ hon hidle h with
    ⟨⟨_, _, -, e, he⟩, -⟩ | ⟨-, hgone, -⟩
  · cases he
  · rw [hgone, h.stored] at hkept
    cases hkept

/-- Without another alive member every key is kept. -/
theorem ZHTServer.keeps_of_alone {s : ZHTServer} (h : s.migration.membership.activeMembers = []) (key : String) :
    s.Keeps key := by
  have howner : ∀ k, ownerAmong k s.migration.membership.activeMembers = none := by
    intro k
    rw [h]
    rfl
  intro peers ords
  constructor
  · intro x hx
    obtain ⟨target, k, _, hm, -⟩ := MigrationManager.checkAndMigrate_exchanges hx
    have ho := hm.owner
    rw [howner] at ho
    cases ho
  · refine MigrationManager.checkAndMigrate_frame fun target value hm => ?_
    have ho := hm.owner
    rw [howner] at ho
    cases ho

/-! ## Client and server -/

/-- Client and server place the key alike, as far as the server on `n` goes: a key the client sends to
`n` is kept there, and for a key it sends to another node the server answers that node. -/
structure PlacedAlike (nodes : List HostEntity) (n : HostEntity) (key : String) : Prop where
  own : (AppConfig.mk ⟨nodes⟩).resolveNode key = .ok n →
    ∀ now store numReplicas replicationType migrationEnabled,
      (ZHTServer.newWithStore now store n nodes numReplicas replicationType migrationEnabled).Keeps key
  other : ∀ m, m ≠ n → (AppConfig.mk ⟨nodes⟩).resolveNode key = .ok m →
    ∀ now store numReplicas replicationType migrationEnabled,
      (ZHTServer.newWithStore now store n nodes numReplicas replicationType migrationEnabled).membership.resolveNode
        key = some m

/-- The list is `n` alone; or the client's place for the key is another node's, and the hash modulo one
less is that node's place once `n` is left out. -/
def SamePlace (nodes : List HostEntity) (n : HostEntity) (key : String) : Prop :=
  let place := (genHashStr key).toNat % nodes.length
  nodes = [n] ∨ (place ≠ nodes.idxOf n ∧
    (genHashStr key).toNat % (nodes.length - 1) = if place < nodes.idxOf n then place else place - 1)

instance (nodes : List HostEntity) (n : HostEntity) (key : String) : Decidable (SamePlace nodes n key) :=
  inferInstanceAs (Decidable (_ ∨ _))

/-- The client takes the node at the hash modulo the number of nodes. -/
theorem resolveNode_eq {nodes : List HostEntity} {key : String}
    (h : (genHashStr key).toNat % nodes.length < nodes.length) :
    (AppConfig.mk ⟨nodes⟩).resolveNode key = .ok nodes[(genHashStr key).toNat % nodes.length] := by
  have hpos : ¬nodes.length = 0 := by omega
  simp [AppConfig.resolveNode, AppConfig.nodeCount, NeighborConfig.nodeCount, NeighborConfig.get, hpos,
    List.getElem?_eq_getElem h]

/-- The server on a node of a longer list gives away the keys clients send to that node. -/
theorem own_key_sent_away {nodes : List HostEntity} {n : HostEntity} (hne : nodes.filter (· ≠ n) ≠ []) (key : String) :
    ¬∀ now store numReplicas replicationType migrationEnabled,
      (ZHTServer.newWithStore now store n nodes numReplicas replicationType migrationEnabled).Keeps key := by
  intro h
  have hlt := Nat.mod_lt (genHashStr key).toNat (List.length_pos_iff.2 hne)
  have hmem := List.of_mem_filter (List.getElem_mem hlt)
  -- a store that holds the key
  have hmoves : (ZHTServer.newWithStore 0 (NoVoHT.new.compareSwap key "" "v").2 n nodes 0 0 true).migration.MovesTo
      (NoVoHT.new.compareSwap key "" "v").2
      (nodes.filter (· ≠ n))[(genHashStr key).toNat % (nodes.filter (· ≠ n)).length] key "v" := by
    refine ⟨Finmap.lookup_insert _, ?_, of_decide_eq_true hmem⟩
    show ownerAmong key (MembershipManager.new 0 n nodes).activeMembers = _
    rw [MembershipManager.new_activeMembers]
    exact List.getElem?_eq_getElem hlt
  exact ZHTServer.not_keeps rfl rfl hmoves (h 0 _ 0 0 true)

/-- A node that is alone keeps everything. -/
theorem placedAlike_alone (n : HostEntity) (key : String) : PlacedAlike [n] n key := by
  constructor
  · intro _ now store numReplicas replicationType migrationEnabled
    apply ZHTServer.keeps_of_alone
    show (MembershipManager.new now n [n]).activeMembers = []
    rw [MembershipManager.new_activeMembers]
    simp
  · intro m hm hok
    have hlt : (genHashStr key).toNat % [n].length < [n].length := Nat.mod_lt _ Nat.zero_lt_one
    have hclient : (AppConfig.mk ⟨[n]⟩).resolveNode key = .ok n := by
      rw [resolveNode_eq hlt]
      simp
    rw [hclient] at hok
    exact absurd (Except.ok.inj hok).symm hm

section Listed

variable {nodes : List HostEntity} {n : HostEntity} (hnd : nodes.Nodup) (hn : n ∈ nodes) (key : String)
include hnd hn

theorem others_ne_nil (halone : nodes ≠ [n]) : nodes.filter (· ≠ n) ≠ [] := by
  intro hnil
  apply halone
  have hlen := length_leave_out hnd hn
  rw [hnil, List.length_nil] at hlen
  obtain ⟨m, hm⟩ := List.length_eq_one_iff.1 (by have := List.length_pos_of_mem hn; omega : nodes.length = 1)
  rw [hm, List.mem_singleton] at hn
  rw [hm, hn]

/-- The server takes the node at the hash modulo the number of the others. -/
theorem server_resolveNode (now : Nat) (store : NoVoHT) (numReplicas replicationType : UInt32) (migrationEnabled : Bool) :
    (ZHTServer.newWithStore now store n nodes numReplicas replicationType migrationEnabled).membership.resolveNode key =
      (nodes.filter (· ≠ n))[(genHashStr key).toNat % (nodes.length - 1)]? := by
  show ownerAmong key (MembershipManager.new now n nodes).activeMembers = _
  rw [MembershipManager.new_activeMembers, ownerAmong, length_leave_out hnd hn]

/-- For a key that clients send to another node, only what the server answers matters. -/
theorem placedAlike_iff_server (hlt : (genHashStr key).toNat % nodes.length < nodes.length)
    (hother : nodes[(genHashStr key).toNat % nodes.length] ≠ n) :
    PlacedAlike nodes n key ↔ (nodes.filter (· ≠ n))[(genHashStr key).toNat % (nodes.length - 1)]? =
      some nodes[(genHashStr key).toNat % nodes.length] := by
  have hclient := resolveNode_eq hlt
  constructor
  · intro h
    rw [← server_resolveNode hnd hn key 0 NoVoHT.new 0 0 true]
    exact h.other _ hother hclient _ _ _ _ _
  · intro h
    refine ⟨fun hok => absurd (Except.ok.inj (hclient.symm.trans hok)) hother, ?_⟩
    intro m _ hok now store numReplicas replicationType migrationEnabled
    rw [server_resolveNode hnd hn, h, Except.ok.inj (hclient.symm.trans hok)]

end Listed

/-- Client and server place a key alike exactly when its place is the same in both lists. -/
theorem placed_alike_iff {nodes : List HostEntity} (hnd : nodes.Nodup) {n : HostEntity} (hn : n ∈ nodes)
    (key : String) : PlacedAlike nodes n key ↔ SamePlace nodes n key := by
  have hlt : (genHashStr key).toNat % nodes.length < nodes.length := Nat.mod_lt _ (List.length_pos_of_mem hn)
  have hp : nodes.idxOf n < nodes.length := List.idxOf_lt_length_of_mem hn
  have hnp : nodes[nodes.idxOf n] = n := List.getElem_idxOf hp
  unfold SamePlace
  by_cases halone : nodes = [n]
  · rw [halone]
    exact iff_of_true (placedAlike_alone n key) (.inl rfl)
  by_cases hplace : (genHashStr key).toNat % nodes.length = nodes.idxOf n
  · -- the client's node is this one
    refine iff_of_false (fun h => own_key_sent_away (others_ne_nil hnd hn halone) key (h.own ?_)) ?_
    · rw [resolveNode_eq hlt]
      simp only [hplace, hnp]
    · rintro (h | ⟨h, -⟩)
      · exact halone h
      · exact h hplace
  · have hother : nodes[(genHashStr key).toNat % nodes.length] ≠ n := by
      intro e
      exact hplace ((hnd.idxOf_getElem _ hlt).symm.trans (by rw [e]))
    rw [placedAlike_iff_server hnd hn key hlt hother, getElem?_leave_out hnd]
    simp only [halone, false_or, hplace, ne_eq, not_false_eq_true, true_and]
    -- both sides compare places now
    by_cases hj : (genHashStr key).toNat % (nodes.length - 1) < nodes.idxOf n
    · rw [if_pos hj, getElem?_eq_iff hnd]
      split <;> omega
    · rw [if_neg hj, getElem?_eq_iff hnd]
      split <;> omega

/-- Three nodes, and a key that the node after this one gets in both lists. -/
theorem placed_alike_three :
    PlacedAlike [⟨"a", 1⟩, ⟨"b", 1⟩, ⟨"c", 1⟩] ⟨"a", 1⟩ "d" :=
  (placed_alike_iff (by decide) (by decide) "d").2 (by decide)

/-- With two nodes the one that clients send the key `j` to sends it away; with three, the first and a
client disagree on who has the key `b`. -/
theorem places_differ :
    ¬PlacedAlike [⟨"a", 1⟩, ⟨"b", 1⟩] ⟨"a", 1⟩ "j" ∧
      ¬PlacedAlike [⟨"a", 1⟩, ⟨"b", 1⟩, ⟨"c", 1⟩] ⟨"a", 1⟩ "b" := by
  constructor
  · intro h
    exact own_key_sent_away (by decide) "j" (h.own (by decide))
  · intro h
    exact absurd (h.other ⟨"c", 1⟩ (by decide) (by decide) 0 NoVoHT.new 0 0 true) (by decide)

end Zht
