/-
Streams of frames: the framing as a self-delimiting code. Any number of frames is read back frame by
frame, with whatever follows them left over, and a frame that has not arrived whole is refused
wherever it was cut, inside the length as well as inside the encoding.
-/
import Zht.Lib.Delimited
import Zht.Transport.Framing

namespace Zht

open Lib.Delimited

variable (c : Codec)

/-- `decode_message` applied again and again, each time to what the last one left. -/
def decodeMessages (n : Nat) (buf : Bytes) : ZhtResult (List ZPack × Bytes) := decodeMany (decodeMessage c) n buf

theorem frames_delimit : Delimits c.Fits (encodeMessage c) (decodeMessage c) :=
  fun _ h rest => decodeMessage_encodeMessage c h rest

/-- Fewer bytes than the first four announce are refused. -/
theorem decodeMessage_of_short {buf : Bytes} (h : ∀ n, frameLength buf = some n → buf.length < n) :
    ∃ msg, decodeMessage c buf = .error (.recvFailed msg) := by
  unfold decodeMessage
  by_cases hlen : buf.length < 4
  · rw [if_pos hlen]
    exact ⟨_, rfl⟩
  · have hn := h (4 + fromBeBytes (buf.take 4)) (if_neg hlen)
    simp only
    rw [if_neg hlen, if_pos hn]
    exact ⟨_, rfl⟩

/-- So are bytes whose first one alone announces more than there are. -/
theorem decodeMessage_of_first {b : UInt8} {bs : Bytes} (h : (b :: bs).length < b.toNat * 2 ^ 24) :
    ∃ msg, decodeMessage c (b :: bs) = .error (.recvFailed msg) := by
  apply decodeMessage_of_short
  intro n hn
  unfold frameLength at hn
  split at hn
  · cases hn
  · next hlen =>
    have htake : (bs.take 3).length = 3 := by
      rw [List.length_cons] at hlen
      exact List.length_take_of_le (by omega)
    rw [List.take_succ_cons, fromBeBytes_cons, htake] at hn
    cases hn
    omega

/-- A part of a frame that is not the whole of it is refused. -/
theorem decodeMessage_cut {z : ZPack} (hz : c.Fits z) {cut rest : Bytes} (h : cut ++ rest = encodeMessage c z)
    (hrest : rest ≠ []) : ∃ msg, decodeMessage c cut = .error (.recvFailed msg) := by
  apply decodeMessage_of_short
  intro n hn
  have hpos := List.length_pos_iff.2 hrest
  have hlen := congrArg List.length h
  rw [List.length_append] at hlen
  rw [frameLength_encodeMessage c hz h hn]
  omega

/-- The frames of any messages, with any bytes after them, are read back as these messages and leave
these bytes; and no proper prefix of a frame is read as a message. -/
theorem framing_self_delimiting (zs : List ZPack) (hzs : ∀ z ∈ zs, c.Fits z) (r : Bytes) :
    decodeMessages c zs.length (zs.flatMap (encodeMessage c) ++ r) = .ok (zs, r) ∧
      ∀ z, c.Fits z → ∀ cut, cut <+: encodeMessage c z → cut ≠ encodeMessage c z →
        ∃ e, decodeMessage c cut = .error e := by
  constructor
  · exact (frames_delimit c).decodeMany_flatMap hzs r
  · rintro z hz cut ⟨rest, hrest⟩ hne
    have hcut : rest ≠ [] := by
      rintro rfl
      exact hne (by rw [← hrest, List.append_nil])
    obtain ⟨msg, hmsg⟩ := decodeMessage_cut c hz hrest hcut
    exact ⟨_, hmsg⟩

/-- Two messages and a byte of a third frame, and the first frame cut inside its length. -/
theorem framing_self_delimiting_two :
    let lookup : ZPack := { opcode := [0x30, 0x30, 0x31], key := [0x6b] }
    let remove : ZPack := { opcode := [0x30, 0x30, 0x32], key := [0x6b] }
    decodeMessages .protobuf 2 ([lookup, remove].flatMap (encodeMessage .protobuf) ++ [0]) = .ok ([lookup, remove], [0]) ∧
      ∃ e, decodeMessage .protobuf ((encodeMessage .protobuf lookup).take 2) = .error e := by
  intro lookup remove
  obtain ⟨hstream, hcut⟩ := framing_self_delimiting .protobuf [lookup, remove] (by decide) [0]
  exact ⟨hstream, hcut lookup (by decide) _ (List.take_prefix _ _) (by decide)⟩

end Zht
