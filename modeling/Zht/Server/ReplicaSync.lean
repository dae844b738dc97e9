/-
A replica that is kept up to date at once: every message a request leads to is delivered to it before
the primary takes the next request. It agrees with the primary on the key of each request as long as
no request is a COMPARE_SWAP that changes the table, which is not forwarded at all, or an APPEND under
a key that lists the replica more than once; along any other run it does not (`replica_in_sync_iff`).
-/
import Zht.Server.ReplicaWrites

namespace Zht

open Lib Lib.Utf8

/-- What the replica holds after a write was delivered to it as often as it is listed. -/
theorem delivered_lookup {r : ReplicationManager} (hon : r.isReplicationEnabled = true) (replica : HTWorker)
    (host : HostEntity) (key : String) {z : ZPack} (hplain : (Command.ofRequest z).Plain) (k : String) :
    (Machine.after HTWorker.process replica (messagesTo host (r.replicate key z))).store.map.lookup k =
      Write.applyAll (replica.store.map.lookup k)
        (Write.copies (r.timesListed host key) ((Command.ofRequest z).writeOn k).toList) := by
  rw [messagesTo_replicate hon, after_lookup, writesOn_replicate]
  intro y hy
  rw [List.eq_of_mem_replicate hy]
  exact hplain

/-! ## A primary and its replica -/

structure ReplicaPair where
  primary : ReplicatedHTWorker
  replica : HTWorker

/-- The command has the same effect on a replica that is listed `times` times: it is no COMPARE_SWAP
that changes the table, and an APPEND comes once. -/
def Command.Covered (map : Table) (times : Nat) : Command → Prop
  | append _ _ => times = 1
  | compareSwap key expected newValue => (compareSwap key expected newValue).Idle map
  | emptyKey | lookup _ | insert _ _ | remove _ | stateChangeCallback _ _ _ | unrecognized => True

namespace ReplicaPair

variable (host : HostEntity)

/-- The primary processes a request, and the replica on `host` what it is sent for it. -/
def step (p : ReplicaPair) (request : ZPack) : ZPack × ReplicaPair :=
  let processed := p.primary.processWithReplication request
  (processed.1.1,
    ⟨processed.2, Machine.after HTWorker.process p.replica (messagesTo host (p.primary.sent request))⟩)

/-- If the replica is one of the key's nodes, both hold the same under the key afterwards. -/
def InSync (p : ReplicaPair) (request : ZPack) : Prop :=
  host ∈ p.primary.replication.getReplicaNodes (fromUtf8Lossy request.key) →
    (p.step host request).2.replica.store.map.lookup (fromUtf8Lossy request.key) =
      (p.step host request).2.primary.inner.store.map.lookup (fromUtf8Lossy request.key)

/-- If the replica is one of the key's nodes, the command has the same effect there. -/
def Covered (p : ReplicaPair) (request : ZPack) : Prop :=
  host ∈ p.primary.replication.getReplicaNodes (fromUtf8Lossy request.key) →
    (Command.ofRequest request).Covered p.primary.inner.store.map
      (p.primary.replication.timesListed host (fromUtf8Lossy request.key))

/-- The replica agrees with the primary on every key it is a node of. -/
def Agrees (p : ReplicaPair) : Prop :=
  ∀ k, host ∈ p.primary.replication.getReplicaNodes k →
    p.replica.store.map.lookup k = p.primary.inner.store.map.lookup k

variable {host} {p : ReplicaPair}

/-- What the replica holds under a key after a request. -/
theorem step_replica (hon : p.primary.replication.isReplicationEnabled = true) (request : ZPack) (k : String) :
    (p.step host request).2.replica.store.map.lookup k =
      ((Command.ofRequest request).forwarded p.primary.inner.store.map request.val).elim
        (p.replica.store.map.lookup k)
        fun _ => Write.applyAll (p.replica.store.map.lookup k)
          (Write.copies (p.primary.replication.timesListed host (fromUtf8Lossy request.key))
            ((Command.ofRequest request).writeOn k).toList) := by
  unfold step
  simp only [p.primary.sent_eq]
  cases hz : (Command.ofRequest request).forwarded p.primary.inner.store.map request.val with
  | none => rfl
  | some z =>
    have hsame := Command.ofRequest_forwarded hz
    have hplain : (Command.ofRequest z).Plain := hsame ▸ Command.plain_of_forwarded hz
    simp only [Option.elim_some]
    rw [delivered_lookup hon p.replica host _ hplain, hsame]

variable (host) in
theorem step_primary (request : ZPack) :
    (p.step host request).2.primary.inner.store.map =
      ((Command.ofRequest request).run p.primary.inner.store.map).2 := by
  simp only [step]
  rw [p.primary.processWithReplication_map]

variable (host) in
theorem step_replication (request : ZPack) :
    (p.step host request).2.primary.replication = p.primary.replication := by
  simp only [step]
  exact p.primary.process_replication request

/-- Appending a value some number of times is appending it once only for that number being one. -/
theorem applyAll_append_iff {n : Nat} (value : String) (current : Option String) :
    Write.applyAll current (Write.copies n [.append value]) = Write.apply current (.append value) ↔ n = 1 := by
  constructor
  · intro h
    have hgrows : ∀ w ∈ Write.copies n [.append value], w.Grows := by
      intro w hw
      rw [List.mem_singleton.1 (Write.mem_copies hw)]
      trivial
    have hsize := congrArg Write.size h
    rw [Write.size_applyAll hgrows, Write.sum_growth_copies, Write.size_apply (w := .append value) trivial] at hsize
    simp only [List.map_cons, List.map_nil, List.sum_cons, List.sum_nil, Write.growth] at hsize
    have hmul : n * (value.length + 1) = 1 * (value.length + 1) := by
      rw [Nat.add_zero] at hsize
      omega
    exact Nat.eq_of_mul_eq_mul_right (Nat.succ_pos _) hmul
  · rintro rfl
    rfl

/-- From agreement, a request keeps the two in sync exactly when it is covered. -/
theorem inSync_iff (hon : p.primary.replication.isReplicationEnabled = true) (h : p.Agrees host) (request : ZPack) :
    p.InSync host request ↔ p.Covered host request := by
  unfold InSync Covered
  refine forall_congr' fun hlisted => ?_
  have hpos := ReplicationManager.timesListed_pos.2 hlisted
  rw [step_replica hon, step_primary host, h _ hlisted]
  generalize p.primary.inner.store.map = map
  generalize p.primary.replication.timesListed host (fromUtf8Lossy request.key) = n at hpos ⊢
  cases hc : Command.ofRequest request with
  | insert key value =>
    have hkey : key = fromUtf8Lossy request.key := Command.key_ofRequest (by rw [hc]; rfl)
    subst hkey
    refine iff_of_true ?_ trivial
    simp only [Command.forwarded, Option.elim_some, Command.writeOn, ↓reduceIte, Option.toList_some, Command.run,
      Finmap.lookup_insert]
    exact Write.applyAll_last (w := .insert value) id hpos [] _
  | append key value =>
    have hkey : key = fromUtf8Lossy request.key := Command.key_ofRequest (by rw [hc]; rfl)
    subst hkey
    have hplain : (Command.append (fromUtf8Lossy request.key) value).Plain := trivial
    rw [Command.run_plain hplain]
    simp only [Command.forwarded, Option.elim_some, Command.writeOn, ↓reduceIte, Option.toList_some]
    exact applyAll_append_iff value _
  | remove key =>
    have hkey : key = fromUtf8Lossy request.key := Command.key_ofRequest (by rw [hc]; rfl)
    subst hkey
    refine iff_of_true ?_ trivial
    have hplain : (Command.remove (fromUtf8Lossy request.key)).Plain := trivial
    rw [Command.run_plain hplain]
    simp only [Command.forwarded, Command.writeOn, ↓reduceIte, Option.elim_some]
    -- an absent key is not forwarded, and is absent on both sides
    cases hl : map.lookup (fromUtf8Lossy request.key) with
    | none => rfl
    | some value =>
      simp only [Option.elim_some, Option.toList_some]
      exact Write.applyAll_last (w := .remove) id hpos [] _
  | compareSwap key expected newValue =>
    have hkey : key = fromUtf8Lossy request.key := Command.key_ofRequest (by rw [hc]; rfl)
    subst hkey
    simp only [Command.forwarded, Option.elim_none, Command.Covered]
    rw [eq_comm]
    exact Command.run_lookup_eq_iff rfl map
  | lookup key =>
    refine iff_of_true ?_ trivial
    have hplain : (Command.lookup key).Plain := trivial
    rw [Command.run_plain hplain]
    rfl
  | emptyKey | stateChangeCallback | unrecognized => exact iff_of_true rfl trivial

/-- A request that keeps them in sync keeps the agreement, on its own key and on the others. -/
theorem Agrees.step (hon : p.primary.replication.isReplicationEnabled = true) (h : p.Agrees host) {request : ZPack}
    (hsync : p.InSync host request) : (p.step host request).2.Agrees host := by
  intro k hk
  rw [step_replication] at hk
  by_cases hkey : k = fromUtf8Lossy request.key
  · subst hkey
    exact hsync hk
  · have hcommand : (Command.ofRequest request).key ≠ some k := fun e => hkey (Command.key_ofRequest e)
    have hwrite : (Command.ofRequest request).writeOn k = none := by
      cases hc : Command.ofRequest request with
      | insert key _ | remove key | append key _ =>
        have hne : key ≠ k := fun e => hcommand (by rw [hc, e]; rfl)
        simp [Command.writeOn, hne]
      | emptyKey | lookup | compareSwap | stateChangeCallback | unrecognized => rfl
    have hreplica : (p.step host request).2.replica.store.map.lookup k = p.replica.store.map.lookup k := by
      refine (step_replica hon request k).trans ?_
      rw [hwrite]
      cases (Command.ofRequest request).forwarded p.primary.inner.store.map request.val <;> rfl
    have hprimary : (p.step host request).2.primary.inner.store.map.lookup k =
        p.primary.inner.store.map.lookup k := by
      rw [step_primary]
      exact Command.run_frame _ _ hcommand
    exact hreplica.trans ((h k hk).trans hprimary.symm)

end ReplicaPair

/-- A replica that starts with the primary's table, and gets every message before the next request, is
in sync after every request of a run exactly when every request of the run is covered. -/
theorem replica_in_sync_iff (host : HostEntity) (w : ReplicatedHTWorker)
    (hon : w.replication.isReplicationEnabled = true) (replica : HTWorker)
    (hsame : replica.store.map = w.inner.store.map) (requests : List ZPack) :
    Machine.Along (ReplicaPair.step host) (ReplicaPair.InSync host) ⟨w, replica⟩ requests ↔
      Machine.Along (ReplicaPair.step host) (ReplicaPair.Covered host) ⟨w, replica⟩ requests := by
  have hagrees : ReplicaPair.Agrees host ⟨w, replica⟩ := fun k _ => congrArg (Finmap.lookup k) hsame
  suffices h : ∀ p : ReplicaPair, p.primary.replication.isReplicationEnabled = true → p.Agrees host →
      (Machine.Along (ReplicaPair.step host) (ReplicaPair.InSync host) p requests ↔
        Machine.Along (ReplicaPair.step host) (ReplicaPair.Covered host) p requests) from
    h ⟨w, replica⟩ hon hagrees
  clear hagrees hsame hon
  induction requests with
  | nil => exact fun _ _ _ => Iff.rfl
  | cons request requests ih =>
    intro p hon h
    rw [Machine.along_cons, Machine.along_cons, ReplicaPair.inSync_iff hon h]
    refine and_congr_right fun hcovered => ih _ ?_ ?_
    · rwa [ReplicaPair.step_replication]
    · exact h.step hon ((ReplicaPair.inSync_iff hon h request).2 hcovered)

/-- An INSERT and an APPEND under one key. -/
theorem replica_in_sync_two :
    Machine.Along (ReplicaPair.step ⟨"r", 1⟩) (ReplicaPair.InSync ⟨"r", 1⟩) ⟨primaryBeside 1, HTWorker.new NoVoHT.new⟩
      [{ opcode := utf8Bytes OPC_INSERT, key := utf8Bytes "k", val := utf8Bytes "v" },
        { opcode := utf8Bytes OPC_APPEND, key := utf8Bytes "k", val := utf8Bytes "w" }] := by
  refine (replica_in_sync_iff ⟨"r", 1⟩ (primaryBeside 1) (by decide) (HTWorker.new NoVoHT.new) rfl _).2 ⟨?_, ?_, trivial⟩
  · intro _
    rw [command_insert (show "k" ≠ "" by decide) (utf8Bytes "v")]
    trivial
  · intro _
    rw [command_append (show "k" ≠ "" by decide) (utf8Bytes "w")]
    show ReplicationManager.timesListed _ _ _ = 1
    decide

/-- A COMPARE_SWAP that swaps, and an APPEND under a key that lists the replica twice. -/
theorem replica_left_behind :
    ¬Machine.Along (ReplicaPair.step ⟨"r", 1⟩) (ReplicaPair.InSync ⟨"r", 1⟩)
        ⟨primaryBeside 1, HTWorker.new NoVoHT.new⟩
        [{ opcode := utf8Bytes OPC_INSERT, key := utf8Bytes "k", val := utf8Bytes "v" },
          { opcode := utf8Bytes OPC_CMPSWP, key := utf8Bytes "k", val := utf8Bytes "v", newval := utf8Bytes "w" }] ∧
      ¬Machine.Along (ReplicaPair.step ⟨"r", 1⟩) (ReplicaPair.InSync ⟨"r", 1⟩)
        ⟨primaryBeside 2, HTWorker.new NoVoHT.new⟩
        [{ opcode := utf8Bytes OPC_APPEND, key := utf8Bytes "k", val := utf8Bytes "v" }] := by
  constructor
  · rintro ⟨-, hsync, -⟩
    exact absurd (hsync (by decide)) (by decide)
  · rintro ⟨hsync, -⟩
    exact absurd (hsync (by decide)) (by decide)

end Zht
