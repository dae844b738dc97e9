/-
Message framing: four bytes with the length of the encoded `ZPack`, highest first, and the encoding.
The length is cast to 32 bits, so a frame says how long it is only for an encoding shorter than
2^32 bytes. Such a frame is read back whole, and none of its bytes is left over or missing.
-/
import Zht.Lib.Horner
import Zht.Proto.Codec

namespace Zht

open Lib.Horner

/-! ## The length -/

/-- `(len as u32).to_be_bytes()`. -/
def lengthBytes (len : Nat) : Bytes :=
  [UInt8.ofNat (len / 2 ^ 24), UInt8.ofNat (len / 2 ^ 16), UInt8.ofNat (len / 2 ^ 8), UInt8.ofNat len]

/-- `u32::from_be_bytes`. -/
def fromBeBytes (bs : Bytes) : Nat := bs.foldl (fun n b => n * 256 + b.toNat) 0

@[simp] theorem length_lengthBytes (len : Nat) : (lengthBytes len).length = 4 := rfl

theorem fromBeBytes_lengthBytes (len : Nat) : fromBeBytes (lengthBytes len) = len % 2 ^ 32 := by
  simp only [fromBeBytes, lengthBytes, List.foldl_cons, List.foldl_nil, UInt8.toNat_ofNat']
  omega

theorem fromBeBytes_eq_horner (bs : Bytes) : fromBeBytes bs = horner 256 (bs.map UInt8.toNat) := by
  rw [fromBeBytes, horner, List.foldl_map]

theorem fromBeBytes_cons (b : UInt8) (bs : Bytes) :
    fromBeBytes (b :: bs) = b.toNat * 256 ^ bs.length + fromBeBytes bs := by
  rw [fromBeBytes_eq_horner, fromBeBytes_eq_horner, List.map_cons, horner_cons, List.length_map]

theorem fromBeBytes_lt (bs : Bytes) : fromBeBytes bs < 256 ^ bs.length := by
  have hdigits : ∀ d ∈ bs.map UInt8.toNat, d < 256 := List.forall_mem_map.2 fun b _ => b.toNat_lt
  have hlt := horner_lt hdigits
  rwa [← fromBeBytes_eq_horner, List.length_map] at hlt

/-! ## Frames -/

def encodeMessage (c : Codec) (z : ZPack) : Bytes := lengthBytes (c.encodedLen z) ++ c.encode z

/-- The length of the frame some bytes start, once its first four bytes are there. -/
def frameLength (bs : Bytes) : Option Nat :=
  if bs.length < 4 then none else some (4 + fromBeBytes (bs.take 4))

def decodeMessage (c : Codec) (buf : Bytes) : ZhtResult (ZPack × Bytes) := do
  if buf.length < 4 then
    throw (.recvFailed "Message too short: need at least 4 bytes for length prefix")
  let len := fromBeBytes (buf.take 4)
  if buf.length < 4 + len then
    throw (.recvFailed ("Incomplete message: expected " ++ (4 + len).repr ++ " bytes, got " ++ buf.length.repr))
  match c.decode ((buf.drop 4).take len) with
  | .ok z => return (z, buf.drop (4 + len))
  | .error e => throw (.protobufDecodeError e)

/-- The encoding is short enough for its frame. -/
def Codec.Fits (c : Codec) (z : ZPack) : Prop := c.encodedLen z < 2 ^ 32

instance (c : Codec) (z : ZPack) : Decidable (c.Fits z) := inferInstanceAs (Decidable (_ < _))

section Frames

variable (c : Codec) {z : ZPack}

theorem length_encodeMessage (z : ZPack) : (encodeMessage c z).length = 4 + c.encodedLen z := by
  simp [encodeMessage, Codec.encodedLen]

theorem drop_encodeMessage (z : ZPack) : (encodeMessage c z).drop 4 = c.encode z := rfl

/-- A frame announces its own length, whatever comes after. -/
theorem frameLength_encodeMessage (h : c.Fits z) {bs rest : Bytes} (hbs : bs ++ rest = encodeMessage c z) {n : Nat}
    (hn : frameLength bs = some n) : n = (encodeMessage c z).length := by
  unfold frameLength at hn
  split at hn
  · cases hn
  · next hlen =>
    have hfirst : bs.take 4 = lengthBytes (c.encodedLen z) := by
      have := congrArg (List.take 4) hbs
      rwa [List.take_append_of_le_length (Nat.le_of_not_lt hlen), encodeMessage,
        List.take_left' (length_lengthBytes _)] at this
    rw [hfirst, fromBeBytes_lengthBytes, Nat.mod_eq_of_lt h] at hn
    rw [length_encodeMessage, Option.some.inj hn]

theorem decodeMessage_encodeMessage (h : c.Fits z) (rest : Bytes) :
    decodeMessage c (encodeMessage c z ++ rest) = .ok (z, rest) := by
  have hlen : (encodeMessage c z ++ rest).length = 4 + c.encodedLen z + rest.length := by
    rw [List.length_append, length_encodeMessage]
  have hfirst : (encodeMessage c z ++ rest).take 4 = lengthBytes (c.encodedLen z) := rfl
  have hdrop : (encodeMessage c z ++ rest).drop 4 = c.encode z ++ rest := rfl
  have hall : (encodeMessage c z ++ rest).drop (4 + c.encodedLen z) = rest := by
    rw [← length_encodeMessage, List.drop_left]
  have hn : fromBeBytes (lengthBytes (c.encodedLen z)) = c.encodedLen z := by
    rw [fromBeBytes_lengthBytes, Nat.mod_eq_of_lt h]
  have hpayload : (c.encode z ++ rest).take (c.encodedLen z) = c.encode z := List.take_left
  unfold decodeMessage
  simp only [hfirst, hn, hlen, hdrop, hall, hpayload, c.decode_encode]
  rw [if_neg (by omega), if_neg (by omega)]
  rfl

/-- A message is decoded from fewer than 2^32 bytes, and from four less than there are. -/
theorem decodeMessage_ok {buf rest : Bytes} (h : decodeMessage c buf = .ok (z, rest)) :
    ∃ bs, bs.length < 2 ^ 32 ∧ bs.length + 4 ≤ buf.length ∧ c.decode bs = .ok z := by
  unfold decodeMessage at h
  simp only at h
  split at h
  · cases h
  · next hfour =>
    split at h
    · cases h
    · next hlen =>
      have hread : ((buf.drop 4).take (fromBeBytes (buf.take 4))).length = fromBeBytes (buf.take 4) :=
        List.length_take_of_le (by rw [List.length_drop]; omega)
      have hlt := fromBeBytes_lt (buf.take 4)
      rw [List.length_take_of_le (Nat.le_of_not_lt hfour)] at hlt
      refine ⟨(buf.drop 4).take (fromBeBytes (buf.take 4)), ?_, ?_, ?_⟩
      · rw [hread]
        exact hlt
      · rw [hread]
        omega
      · split at h
        · next w hw =>
          cases h
          exact hw
        · cases h

/-- What follows a message does not matter to it. -/
theorem decodeMessage_append {buf rest : Bytes} (h : decodeMessage c buf = .ok (z, rest)) (more : Bytes) :
    decodeMessage c (buf ++ more) = .ok (z, rest ++ more) := by
  unfold decodeMessage at h ⊢
  simp only at h ⊢
  split at h
  · cases h
  · next hfour =>
    split at h
    · cases h
    · next hlen =>
      have hfirst : (buf ++ more).take 4 = buf.take 4 := List.take_append_of_le_length (Nat.le_of_not_lt hfour)
      have hpayload : ((buf ++ more).drop 4).take (fromBeBytes (buf.take 4)) =
          (buf.drop 4).take (fromBeBytes (buf.take 4)) := by
        rw [List.drop_append_of_le_length (Nat.le_of_not_lt hfour), List.take_append_of_le_length]
        rw [List.length_drop]
        omega
      have hrest : (buf ++ more).drop (4 + fromBeBytes (buf.take 4)) = buf.drop (4 + fromBeBytes (buf.take 4)) ++ more :=
        List.drop_append_of_le_length (Nat.le_of_not_lt hlen)
      rw [if_neg (by rw [List.length_append]; omega), hfirst, if_neg (by rw [List.length_append]; omega), hpayload, hrest]
      split at h
      · next w hw =>
        cases h
        rfl
      · cases h

end Frames

end Zht
