/-
Chunk headers for every chunk size. The numbers of a header are padded to the width of their fields,
and a number with more digits makes its field, and with it the header, longer: the parser then looks
for the later fields and the payload in the wrong places. `chunks_readable_iff` says for which
messages and chunk sizes every number fits.
-/
import Zht.Transport.Chunking

namespace Zht

open Lib Lib.Utf8

/-- `chunk_message` with the addition that computes the number of chunks: `none` for its panic when
it overflows. The other numbers of the call stay below the message's length plus the chunk size. -/
def checkedChunkMessage (msgId : UInt64) (data : Bytes) (size : Nat) : Option (List Chunk) :=
  if data ≠ [] ∧ 2 ^ 64 ≤ data.length + size then none else some (chunkMessage msgId data size)

/-- The header takes its 38 bytes, and the chunk is read back. -/
structure ChunkReadable (msgId : UInt64) (data : Bytes) (size : Nat) (chunk : Chunk) : Prop where
  header : chunk.data.length = CHUNK_HEADER_SIZE + (chunkPayload data size chunk.seqNum).length
  parsed : parseChunk chunk.data =
    .ok (msgId.toNat, chunk.seqNum, chunk.total, chunkPayload data size chunk.seqNum)

/-- Every chunk is readable, and the payloads make up the message. -/
def ChunksReadable (msgId : UInt64) (data : Bytes) (size : Nat) : Prop :=
  ∃ chunks, checkedChunkMessage msgId data size = some chunks ∧
    (∀ chunk ∈ chunks, ChunkReadable msgId data size chunk) ∧
      (chunks.map fun chunk => chunkPayload data size chunk.seqNum).flatten = data

/-! ## Headers and fields -/

/-- A header has its size exactly if each of its numbers fits its field; every message id does. -/
theorem length_chunkHeader_iff (msgId : UInt64) (seq total payloadSize : Nat) :
    (chunkHeader msgId seq total payloadSize).length = CHUNK_HEADER_SIZE ↔
      seq < 10 ^ 7 ∧ total < 10 ^ 7 ∧ payloadSize < 10 ^ 4 := by
  have hid : msgId.toNat < 10 ^ 20 := Nat.lt_of_lt_of_le (UInt64.toNat_lt msgId) (by decide)
  have hseq : seq.repr.length ≤ 7 ↔ seq < 10 ^ 7 := Nat.length_repr_le_iff (by decide)
  have htotal : total.repr.length ≤ 7 ↔ total < 10 ^ 7 := Nat.length_repr_le_iff (by decide)
  have hsize : payloadSize.repr.length ≤ 4 ↔ payloadSize < 10 ^ 4 := Nat.length_repr_le_iff (by decide)
  rw [← hseq, ← htotal, ← hsize]
  simp only [chunkHeader, List.length_append, Decimal.length_padStart_repr msgId.toNat (by decide) hid,
    Decimal.length_padEnd_repr_eq_max, CHUNK_HEADER_SIZE]
  omega

/-! ## The chunks of a message -/

theorem mem_chunkMessage {msgId : UInt64} {data : Bytes} {size : Nat} {chunk : Chunk} :
    chunk ∈ chunkMessage msgId data size ↔ ∃ seq < chunkTotal data.length size, chunk =
      { data := chunkHeader msgId seq (chunkTotal data.length size) (chunkPayload data size seq).length ++
          chunkPayload data size seq,
        seqNum := seq, total := chunkTotal data.length size } := by
  unfold chunkMessage
  rw [List.mem_map]
  constructor
  · rintro ⟨seq, hseq, rfl⟩
    exact ⟨seq, List.mem_range.1 hseq, rfl⟩
  · rintro ⟨seq, hseq, rfl⟩
    exact ⟨seq, List.mem_range.2 hseq, rfl⟩

theorem payloads_chunkMessage {size : Nat} (hs : 1 ≤ size) (msgId : UInt64) (data : Bytes) :
    ((chunkMessage msgId data size).map fun chunk => chunkPayload data size chunk.seqNum).flatten = data := by
  have hmap : (chunkMessage msgId data size).map (fun chunk => chunkPayload data size chunk.seqNum) =
      (List.range (chunkTotal data.length size)).map (chunkPayload data size) := by
    unfold chunkMessage
    rw [List.map_map]
    rfl
  rw [hmap, chunkPayloads_join hs]

/-- The first chunk is the longest. -/
theorem length_chunkPayload_zero (data : Bytes) (size : Nat) :
    (chunkPayload data size 0).length = min size data.length := by
  rw [chunkPayload_eq, Nat.zero_mul, List.drop_zero, List.length_take]

theorem length_chunkPayload_le_min (data : Bytes) (size seq : Nat) :
    (chunkPayload data size seq).length ≤ min size data.length := by
  rw [chunkPayload_eq, List.length_take, List.length_drop]
  omega

theorem checkedChunkMessage_eq (msgId : UInt64) (data : Bytes) (size : Nat) :
    checkedChunkMessage msgId data size =
      if data = [] ∨ data.length + size < 2 ^ 64 then some (chunkMessage msgId data size) else none := by
  unfold checkedChunkMessage
  by_cases hdata : data = []
  · simp [hdata]
  · by_cases hlen : data.length + size < 2 ^ 64
    · rw [if_neg fun h => absurd h.2 (Nat.not_le.2 hlen), if_pos (.inr hlen)]
    · rw [if_pos ⟨hdata, Nat.not_lt.1 hlen⟩, if_neg (not_or.2 ⟨hdata, hlen⟩)]

/-- What the first chunk says about readable ones: it has the same total as the others, and the most
bytes. -/
theorem ChunksReadable.fits {msgId : UInt64} {data : Bytes} {size : Nat} (hs : 1 ≤ size)
    (h : ChunksReadable msgId data size) :
    (data = [] ∨ data.length + size < 2 ^ 64) ∧ chunkTotal data.length size < 10 ^ 7 ∧
      min size data.length < 10 ^ 4 := by
  obtain ⟨chunks, hchunks, hreadable, -⟩ := h
  rw [checkedChunkMessage_eq] at hchunks
  split at hchunks
  · next hfits =>
    have heq := (Option.some.inj hchunks).symm
    subst heq
    have hfirst := (hreadable _ (mem_chunkMessage.2 ⟨0, chunkTotal_pos hs _, rfl⟩)).header
    rw [List.length_append] at hfirst
    have hheader := (length_chunkHeader_iff msgId 0 _ _).1 (Nat.add_right_cancel hfirst)
    rw [length_chunkPayload_zero] at hheader
    exact ⟨hfits, hheader.2⟩
  · cases hchunks

/-- For every message id, message and chunk size from 1 on: the call returns and each chunk has a
header of 38 bytes and is parsed as what it carries, exactly if the message is empty or its length
plus the chunk size is below `2 ^ 64`, there are fewer than ten million chunks, and none is longer
than 9,999 bytes. -/
theorem chunks_readable_iff (msgId : UInt64) (data : Bytes) {size : Nat} (hs : 1 ≤ size) :
    ChunksReadable msgId data size ↔
      (data = [] ∨ data.length + size < 2 ^ 64) ∧ chunkTotal data.length size < 10 ^ 7 ∧
        min size data.length < 10 ^ 4 := by
  constructor
  · exact ChunksReadable.fits hs
  · rintro ⟨hfits, htotal, hpayload⟩
    refine ⟨_, (checkedChunkMessage_eq msgId data size).trans (if_pos hfits), fun chunk hchunk => ?_,
      payloads_chunkMessage hs msgId data⟩
    obtain ⟨seq, hseq, rfl⟩ := mem_chunkMessage.1 hchunk
    have hlt := Nat.lt_of_le_of_lt (length_chunkPayload_le_min data size seq) hpayload
    constructor
    · rw [List.length_append, length_chunkHeader msgId (Nat.lt_trans hseq htotal) htotal hlt]
    · exact parseChunk_chunk msgId (Nat.lt_trans hseq htotal) htotal hlt

/-- Three bytes in chunks of two. -/
theorem chunks_readable_two : ChunksReadable 7 [1, 2, 3] 2 :=
  (chunks_readable_iff 7 [1, 2, 3] (by decide)).2 ⟨.inr (by decide), by decide, by decide⟩

/-- Ten thousand bytes in one chunk of that size: the payload's size does not fit its field. -/
theorem long_chunk_unreadable : ¬ ChunksReadable 7 (List.replicate 10000 1) 10000 := by
  intro h
  have hfits := h.fits (by decide)
  rw [List.length_replicate] at hfits
  exact absurd hfits.2.2 (by decide)

end Zht
