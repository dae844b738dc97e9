/-
The replica nodes of a key as a walk around the alive members. The walk is as long as the number of
replicas asked for, whatever the ring: `distinct_replicas_iff` says that it stays on distinct nodes
other than the primary exactly while it is shorter than the ring.
-/
import Zht.Lib.Ring
import Zht.Server.Replication

namespace Zht

open Lib

namespace ReplicationManager

theorem getReplicaNodes_eq_walk {r : ReplicationManager} (h : r.membership.activeMembers ≠ []) (key : String) :
    r.getReplicaNodes key = Ring.walk r.membership.activeMembers
      ((genHashStr key).toNat % r.membership.activeMembers.length) r.numReplicas.toNat := by
  unfold getReplicaNodes Ring.walk
  simp only
  by_cases hzero : r.numReplicas = 0
  · rw [if_pos (.inr hzero), hzero]
    rfl
  · rw [if_neg (not_or.2 ⟨h, hzero⟩)]

/-- As many distinct nodes other than the key's primary as the ring has, up to the number of replicas. -/
structure DistinctReplicas (r : ReplicationManager) (key : String) : Prop where
  nodup : (r.getReplicaNodes key).Nodup
  notPrimary : ∀ primary, r.membership.resolveNode key = some primary → primary ∉ r.getReplicaNodes key
  length : (r.getReplicaNodes key).length = min r.numReplicas.toNat (r.membership.activeMembers.length - 1)

/-- For every list of distinct alive members, number of replicas and key: the replica nodes are
distinct, none is the primary and there are as many as can be, exactly if no member is alive or the
number of replicas is below that of the alive members. -/
theorem distinct_replicas_iff (r : ReplicationManager) (key : String) (hnd : r.membership.activeMembers.Nodup) :
    r.DistinctReplicas key ↔
      r.membership.activeMembers = [] ∨ r.numReplicas.toNat < r.membership.activeMembers.length := by
  have hlength := r.length_getReplicaNodes key
  by_cases hempty : r.membership.activeMembers = []
  · rw [if_pos hempty] at hlength
    have hnil : r.getReplicaNodes key = [] := List.length_eq_zero_iff.1 hlength
    refine iff_of_true ⟨?_, ?_, ?_⟩ (.inl hempty)
    · rw [hnil]
      exact List.nodup_nil
    · intro primary _
      rw [hnil]
      exact List.not_mem_nil
    · rw [hlength, hempty]
      simp
  · have hpos := List.length_pos_iff.2 hempty
    rw [if_neg hempty] at hlength
    constructor
    · intro h
      -- a walk that is not shorter than the ring is already too long
      have hmin := h.length
      omega
    · rintro (hno | hlt)
      · exact absurd hno hempty
      · constructor
        · rw [getReplicaNodes_eq_walk hempty]
          exact Ring.nodup_walk hnd hlt.le _
        · intro primary hprimary
          rw [getReplicaNodes_eq_walk hempty]
          apply Ring.start_not_mem_walk hnd hlt
          rw [Nat.mod_mod]
          exact hprimary
        · omega

/-- Three alive members and two replicas. -/
theorem distinct_replicas_three :
    ReplicationManager.DistinctReplicas
      ⟨2, 1, .new 0 ⟨"p", 1⟩ [⟨"a", 1⟩, ⟨"b", 1⟩, ⟨"c", 1⟩]⟩ "k" :=
  (distinct_replicas_iff ⟨2, 1, .new 0 ⟨"p", 1⟩ [⟨"a", 1⟩, ⟨"b", 1⟩, ⟨"c", 1⟩]⟩ "k" (by decide)).2
    (.inr (by decide))

/-- Two replicas around a ring of two: the primary is one of them. -/
theorem replica_is_primary :
    let r : ReplicationManager := ⟨2, 1, .new 0 ⟨"p", 1⟩ [⟨"a", 1⟩, ⟨"b", 1⟩]⟩
    r.membership.activeMembers.Nodup ∧ (∃ primary, r.membership.resolveNode "k" = some primary ∧
      primary ∈ r.getReplicaNodes "k") ∧ (r.getReplicaNodes "k").length = 2 := by
  decide

end ReplicationManager

end Zht
