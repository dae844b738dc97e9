/-
The chunk codec: a message cut into payloads of a fixed size, each behind a header of four padded
decimal fields. `parseChunk_chunk` reads every chunk back and `chunkPayloads_join` puts the payloads
together again.
-/
import Zht.Common.Basic
import Zht.Lib.Decimal
import Zht.Lib.Text

namespace Zht

open Lib Lib.Utf8 Lib.Text

def CHUNK_PAYLOAD_SIZE : Nat := 512

/-- uuid(20) + seq_num(7) + total(7) + payload_size(4). -/
def CHUNK_HEADER_SIZE : Nat := 38

structure Chunk where
  data : Bytes
  seqNum : Nat
  total : Nat
  deriving DecidableEq, Repr

/-! ## Cutting a message -/

/-- The number of chunks of a message of `len` bytes; an empty one still has a chunk. -/
def chunkTotal (len size : Nat) : Nat := if len = 0 then 1 else (len + size - 1) / size

theorem chunkTotal_pos {size : Nat} (hs : 1 ≤ size) (len : Nat) : 0 < chunkTotal len size := by
  unfold chunkTotal
  split
  · exact Nat.zero_lt_one
  · exact Nat.div_pos (by omega) hs

/-- `data[start..end]` for the chunk `seq`. -/
def chunkPayload (data : Bytes) (size seq : Nat) : Bytes :=
  (data.take (min (seq * size + size) data.length)).drop (seq * size)

def chunkHeader (msgId : UInt64) (seq total payloadSize : Nat) : Bytes :=
  utf8Bytes (padStart 20 msgId.toNat.repr) ++ utf8Bytes (padEnd 7 seq.repr) ++ utf8Bytes (padEnd 7 total.repr) ++
    utf8Bytes (padEnd 4 payloadSize.repr)

/-- `chunk_message` under the message id it has drawn. -/
def chunkMessage (msgId : UInt64) (data : Bytes) (size : Nat) : List Chunk :=
  let total := chunkTotal data.length size
  (List.range total).map fun seq =>
    let payload := chunkPayload data size seq
    { data := chunkHeader msgId seq total payload.length ++ payload, seqNum := seq, total }

/-! ## Parsing a chunk -/

/-- One field of the header: UTF-8, trimmed, an unsigned number of 64 bits. -/
def parseField (name : String) (raw : Bytes) : ZhtResult Nat :=
  match fromUtf8 raw with
  | none => .error (.recvFailed ("Invalid " ++ name ++ " encoding: " ++ utf8ErrorText raw))
  | some text =>
    match Decimal.parseUnsigned (2 ^ 64) (trim text) with
    | .ok n => .ok n
    | .error e => .error (.recvFailed ("Invalid " ++ name ++ " '" ++ trim text ++ "': " ++ e.text))

/-- The message id, the sequence number, the total and the payload. -/
def parseChunk (raw : Bytes) : ZhtResult (Nat × Nat × Nat × Bytes) := do
  if raw.length < CHUNK_HEADER_SIZE then
    throw (.recvFailed ("Chunk too short: expected >= " ++ CHUNK_HEADER_SIZE.repr ++ " bytes, got " ++
      raw.length.repr))
  let msgId ← parseField "UUID" (raw.take 20)
  let seqNum ← parseField "seq_num" ((raw.drop 20).take 7)
  let total ← parseField "total" ((raw.drop 27).take 7)
  let payloadSize ← parseField "payload_size" ((raw.drop 34).take 4)
  if raw.length < CHUNK_HEADER_SIZE + payloadSize then
    throw (.recvFailed ("Chunk payload truncated: expected " ++ payloadSize.repr ++ " bytes, got " ++
      (raw.length - CHUNK_HEADER_SIZE).repr))
  return (msgId, seqNum, total, (raw.drop CHUNK_HEADER_SIZE).take payloadSize)

/-! ## Round trip -/

theorem parseField_padStart {n : Nat} (h : n < 2 ^ 64) (name : String) (width : Nat) :
    parseField name (utf8Bytes (padStart width n.repr)) = .ok n := by
  unfold parseField
  rw [fromUtf8_utf8Bytes]
  simp only [Decimal.trim_padStart_repr, Decimal.parseUnsigned_repr h]

theorem parseField_padEnd {n : Nat} (h : n < 2 ^ 64) (name : String) (width : Nat) :
    parseField name (utf8Bytes (padEnd width n.repr)) = .ok n := by
  unfold parseField
  rw [fromUtf8_utf8Bytes]
  simp only [Decimal.trim_padEnd_repr, Decimal.parseUnsigned_repr h]

/-- The fields of a header are where the parser looks for them. -/
theorem header_fields {a b c d : Bytes} (rest : Bytes) (ha : a.length = 20) (hb : b.length = 7) (hc : c.length = 7)
    (hd : d.length = 4) :
    (a ++ b ++ c ++ d ++ rest).take 20 = a ∧ ((a ++ b ++ c ++ d ++ rest).drop 20).take 7 = b ∧
      ((a ++ b ++ c ++ d ++ rest).drop 27).take 7 = c ∧ ((a ++ b ++ c ++ d ++ rest).drop 34).take 4 = d ∧
      (a ++ b ++ c ++ d ++ rest).drop 38 = rest := by
  have hab : (a ++ b).length = 27 := by rw [List.length_append, ha, hb]
  have habc : (a ++ b ++ c).length = 34 := by rw [List.length_append, hab, hc]
  have habcd : (a ++ b ++ c ++ d).length = 38 := by rw [List.length_append, habc, hd]
  refine ⟨?_, ?_, ?_, ?_, List.drop_left' habcd⟩
  · rw [List.append_assoc, List.append_assoc, List.append_assoc]
    exact List.take_left' ha
  · rw [List.append_assoc, List.append_assoc, List.append_assoc, List.drop_left' ha]
    exact List.take_left' hb
  · rw [List.append_assoc, List.append_assoc, List.drop_left' hab]
    exact List.take_left' hc
  · rw [List.append_assoc, List.drop_left' habc]
    exact List.take_left' hd

/-- The header of a chunk whose numbers fit their fields. -/
theorem length_chunkHeader (msgId : UInt64) {seq total payloadSize : Nat} (hs : seq < 10 ^ 7) (ht : total < 10 ^ 7)
    (hp : payloadSize < 10 ^ 4) : (chunkHeader msgId seq total payloadSize).length = CHUNK_HEADER_SIZE := by
  have hid : msgId.toNat < 10 ^ 20 := Nat.lt_of_lt_of_le (UInt64.toNat_lt msgId) (by decide)
  simp only [chunkHeader, List.length_append, Decimal.length_padStart_repr msgId.toNat (by decide) hid,
    Decimal.length_padEnd_repr seq (by decide) hs, Decimal.length_padEnd_repr total (by decide) ht,
    Decimal.length_padEnd_repr payloadSize (by decide) hp, CHUNK_HEADER_SIZE]

/-- A chunk is read back. -/
theorem parseChunk_chunk (msgId : UInt64) {seq total : Nat} {payload : Bytes} (hs : seq < 10 ^ 7)
    (ht : total < 10 ^ 7) (hp : payload.length < 10 ^ 4) :
    parseChunk (chunkHeader msgId seq total payload.length ++ payload) = .ok (msgId.toNat, seq, total, payload) := by
  have hid : msgId.toNat < 10 ^ 20 := Nat.lt_of_lt_of_le (UInt64.toNat_lt msgId) (by decide)
  have ha := Decimal.length_padStart_repr msgId.toNat (by decide) hid
  have hb := Decimal.length_padEnd_repr seq (by decide) hs
  have hc := Decimal.length_padEnd_repr total (by decide) ht
  have hd := Decimal.length_padEnd_repr payload.length (by decide) hp
  obtain ⟨h1, h2, h3, h4, h5⟩ := header_fields payload ha hb hc hd
  have hlen : (chunkHeader msgId seq total payload.length ++ payload).length = 38 + payload.length := by
    rw [List.length_append, length_chunkHeader msgId hs ht hp, CHUNK_HEADER_SIZE]
  have hlt : ∀ {n : Nat}, n < 10 ^ 7 → n < 2 ^ 64 := fun h => Nat.lt_trans h (by decide)
  unfold parseChunk
  rw [if_neg (by rw [hlen, CHUNK_HEADER_SIZE]; omega)]
  unfold chunkHeader at hlen ⊢
  rw [h1, h2, h3, h4, parseField_padStart (UInt64.toNat_lt msgId), parseField_padEnd (hlt hs),
    parseField_padEnd (hlt ht), parseField_padEnd (Nat.lt_trans hp (by decide))]
  simp only [bind, Except.bind, pure, Except.pure]
  rw [if_neg (by rw [hlen, CHUNK_HEADER_SIZE]; omega)]
  simp only [CHUNK_HEADER_SIZE, h5, List.take_length]

/-! ## The payloads of a message -/

theorem chunkPayload_eq (data : Bytes) (size seq : Nat) :
    chunkPayload data size seq = (data.drop (seq * size)).take size := by
  unfold chunkPayload
  rw [List.drop_take, List.take_eq_take_iff, List.length_drop]
  omega

theorem length_chunkPayload_le (data : Bytes) (size seq : Nat) : (chunkPayload data size seq).length ≤ size := by
  rw [chunkPayload_eq]
  exact List.length_take_le _ _

/-- The payloads of the first `n` chunks are the bytes before the next one. -/
theorem chunkPayloads_take (data : Bytes) (size n : Nat) :
    ((List.range n).map (chunkPayload data size)).flatten = data.take (n * size) := by
  induction n with
  | zero => simp
  | succ n ih =>
    rw [List.range_succ, List.map_append, List.flatten_append, ih, List.map_singleton, List.flatten_singleton,
      chunkPayload_eq, ← List.take_add, Nat.succ_mul]

theorem le_chunkTotal_mul {size : Nat} (hs : 0 < size) (len : Nat) : len ≤ chunkTotal len size * size := by
  unfold chunkTotal
  split
  · omega
  · have hdiv := Nat.div_add_mod (len + size - 1) size
    have hmod := Nat.mod_lt (len + size - 1) hs
    rw [Nat.mul_comm] at hdiv
    omega

/-- The payloads of all chunks are the message. -/
theorem chunkPayloads_join {size : Nat} (hs : 0 < size) (data : Bytes) :
    ((List.range (chunkTotal data.length size)).map (chunkPayload data size)).flatten = data := by
  rw [chunkPayloads_take, List.take_of_length_le (le_chunkTotal_mul hs data.length)]

theorem length_chunkMessage (msgId : UInt64) (data : Bytes) (size : Nat) :
    (chunkMessage msgId data size).length = chunkTotal data.length size := by
  simp [chunkMessage]

theorem getElem_chunkMessage (msgId : UInt64) (data : Bytes) (size seq : Nat)
    (h : seq < (chunkMessage msgId data size).length) :
    (chunkMessage msgId data size)[seq].data =
      chunkHeader msgId seq (chunkTotal data.length size) (chunkPayload data size seq).length ++
        chunkPayload data size seq := by
  simp [chunkMessage]

end Zht
