/-
Which datagrams stop the chunk receiver. A message is complete by the count of the numbers it holds
and is put together by number, so `reassemble` panics when the count is reached by a number at or
beyond the total. `receive_returns_iff` is the exact condition, along every run over any bytes.
-/
import Zht.Transport.Reassembly

namespace Zht

open Lib

/-- As many numbers as a total make up the range exactly if none is at or beyond it. -/
theorem range_subset_iff_of_card {s : Finset Nat} {n : Nat} (h : s.card = n) :
    (∀ i < n, i ∈ s) ↔ ∀ i ∈ s, i < n := by
  have hcard : (Finset.range n).card = n := Finset.card_range n
  constructor
  · intro hall i hi
    have hsub : Finset.range n ⊆ s := fun j hj => hall j (Finset.mem_range.1 hj)
    have heq := Finset.eq_of_subset_of_card_le hsub (by omega)
    rwa [← heq, Finset.mem_range] at hi
  · intro hall i hi
    have hsub : s ⊆ Finset.range n := fun j hj => Finset.mem_range.2 (hall j hj)
    have heq := Finset.eq_of_subset_of_card_le hsub (by omega)
    rwa [heq, Finset.mem_range]

/-- A reassembler that counts as complete is put together exactly if it holds no number at or beyond
its total. -/
theorem isSome_reassemble (r : ChunkReassembler) (h : r.isComplete = true) :
    r.reassemble.isSome = true ↔ ∀ seq ∈ r.chunks.keys, seq < r.total := by
  have hcard : r.chunks.keys.card = r.total := by simpa [ChunkReassembler.isComplete] using h
  rw [← range_subset_iff_of_card hcard, ChunkReassembler.reassemble, if_pos h, Option.isSome_map, HashMap.isSome_mapM_lookup]
  constructor
  · intro hall i hi
    exact Finmap.mem_keys.2 (hall i (List.mem_range.2 hi))
  · intro hall i hi
    exact Finmap.mem_keys.1 (hall i (List.mem_range.1 hi))

theorem reassembler_keys_insert (r : ChunkReassembler) (seqNum : Nat) (payload : Bytes) :
    (r.insert seqNum payload).2.chunks.keys = insert seqNum r.chunks.keys :=
  HashMap.keys_insert r.chunks seqNum payload

theorem reassembler_insert_complete (r : ChunkReassembler) (seqNum : Nat) (payload : Bytes) :
    (r.insert seqNum payload).1 = true ↔ (insert seqNum r.chunks.keys).card = r.total := by
  rw [← reassembler_keys_insert r seqNum payload]
  show (r.insert seqNum payload).2.isComplete = true ↔ _
  rw [ChunkReassembler.isComplete, decide_eq_true_iff]
  rfl

/-- A datagram that brings the numbers held for its message to the total leaves none at or beyond
the total among them. The total is the one that the message's first chunk gave. -/
def KeepsNumbers (r : ChunkReceiver) (raw : Bytes) : Prop :=
  match parseChunk raw with
  | .error _ => True
  | .ok (msgId, seqNum, total, _) =>
    let reassembler := r.reassemblerFor msgId total
    (insert seqNum reassembler.chunks.keys).card = reassembler.total →
      ∀ seq ∈ insert seqNum reassembler.chunks.keys, seq < reassembler.total

/-- One datagram. -/
theorem receive_isSome_iff (r : ChunkReceiver) (raw : Bytes) : (r.receive raw).isSome = true ↔ KeepsNumbers r raw := by
  unfold ChunkReceiver.receive KeepsNumbers
  cases hp : parseChunk raw with
  | error e => exact ⟨fun _ => trivial, fun _ => rfl⟩
  | ok header =>
    obtain ⟨msgId, seqNum, total, payload⟩ := header
    have hdone := reassembler_insert_complete (r.reassemblerFor msgId total) seqNum payload
    have hkeys := reassembler_keys_insert (r.reassemblerFor msgId total) seqNum payload
    simp only
    -- only a chunk that completes the count leads to `reassemble`
    by_cases hc : ((r.reassemblerFor msgId total).insert seqNum payload).1 = true
    · have hcomplete : ((r.reassemblerFor msgId total).insert seqNum payload).2.isComplete = true := hc
      rw [if_pos hc, Option.isSome_map, isSome_reassemble _ hcomplete, hkeys]
      constructor
      · intro h _
        exact h
      · intro h
        exact h (hdone.1 hc)
    · rw [if_neg hc]
      constructor
      · intro _ h
        exact absurd (hdone.2 h) hc
      · intro _
        rfl

/-- A run of a receiver over any datagrams returns from every call, none panicking, exactly if each
datagram keeps the numbers of its message within the total whenever they come to as many. -/
theorem receive_returns_iff (r : ChunkReceiver) (datagrams : List Bytes) :
    (Machine.tryRun ChunkReceiver.receive r datagrams).isSome = true ↔
      Machine.TryAlong ChunkReceiver.receive KeepsNumbers r datagrams :=
  Machine.isSome_tryRun_iff receive_isSome_iff r datagrams

/-- Chunk 5 of a message of one chunk. -/
theorem receive_panics :
    ¬ ∀ datagrams : List Bytes, (Machine.tryRun ChunkReceiver.receive .new datagrams).isSome = true := by
  intro h
  have hone := h [chunkHeader 7 5 1 0]
  have hparse : parseChunk (chunkHeader 7 5 1 ([] : Bytes).length ++ []) = .ok ((7 : UInt64).toNat, 5, 1, []) :=
    parseChunk_chunk 7 (by decide) (by decide) (by decide)
  rw [List.append_nil, List.length_nil] at hparse
  have hnone : ChunkReceiver.new.receive (chunkHeader 7 5 1 0) = none := by
    unfold ChunkReceiver.receive
    rw [hparse]
    rfl
  simp [Machine.tryRun, hnone] at hone

end Zht
