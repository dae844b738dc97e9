/-
How a `ZPack` becomes bytes. The generated encoder and decoder are a parameter, a `Codec`, with the
one thing the transports rely on: decoding gives back what was encoded. `Codec.protobuf` is the
encoding of `zpack.proto` by the protobuf rules: defaults are left out, a later field replaces an
earlier one, unknown fields are skipped.
-/
import Zht.Lib.Protobuf
import Zht.Proto.ZPack

namespace Zht

open Lib.Protobuf

/-- `encode_to_vec` and `decode`. -/
structure Codec where
  encode : ZPack → Bytes
  decode : Bytes → Except String ZPack
  decode_encode : ∀ z, decode (encode z) = .ok z

/-- `encoded_len`. -/
def Codec.encodedLen (c : Codec) (z : ZPack) : Nat := (c.encode z).length

namespace ZPack

def bytesField (number : Nat) (bs : Bytes) : List Field := if bs = [] then [] else [⟨number, .bytes bs⟩]

def boolField (number : Nat) (b : Bool) : List Field := if b then [⟨number, .varint 1⟩] else []

/-- An `int32` goes out as the 64-bit two's complement of its value. -/
def int32Field (number : Nat) (n : Int32) : List Field :=
  if n = 0 then [] else [⟨number, .varint (n.toInt % 2 ^ 64).toNat⟩]

def fields (z : ZPack) : List Field :=
  bytesField 1 z.opcode ++ bytesField 2 z.key ++ bytesField 3 z.val ++ bytesField 4 z.newval ++ bytesField 5 z.lease ++
    boolField 6 z.valnull ++ boolField 7 z.newvalnull ++ int32Field 8 z.replicanum

/-- One field merged into a message; `none` when its wire type is not that of the field. -/
def mergeField (z : ZPack) (f : Field) : Option ZPack :=
  match f.number, f.value with
  | 1, .bytes bs => some { z with opcode := bs }
  | 2, .bytes bs => some { z with key := bs }
  | 3, .bytes bs => some { z with val := bs }
  | 4, .bytes bs => some { z with newval := bs }
  | 5, .bytes bs => some { z with lease := bs }
  | 6, .varint n => some { z with valnull := n ≠ 0 }
  | 7, .varint n => some { z with newvalnull := n ≠ 0 }
  -- the low 32 bits
  | 8, .varint n => some { z with replicanum := Int32.ofNat n }
  | number, _ => if 1 ≤ number ∧ number ≤ 8 then none else some z

def mergeFields (z : ZPack) (fs : List Field) : Option ZPack := fs.foldlM mergeField z

def decodeProtobuf (bs : Bytes) : Except String ZPack :=
  match (decodeFields bs).bind (mergeFields {}) with
  | some z => .ok z
  | none => .error "failed to decode Protobuf message"

theorem ofNat_toInt (n : Int32) : Int32.ofNat (n.toInt % 2 ^ 64).toNat = n := by
  have hlo := n.le_toInt
  have hhi := n.toInt_lt
  apply Int32.toInt_inj.1
  rw [Int32.toInt_ofNat']
  have hcast : ((n.toInt % 2 ^ 64).toNat : Int) = n.toInt % 2 ^ 64 := Int.toNat_of_nonneg (by omega)
  have hsize : Int32.size = 4294967296 := rfl
  rw [hcast, Int.bmod_def, hsize]
  split <;> omega

theorem mergeFields_append (z : ZPack) (fs gs : List Field) :
    mergeFields z (fs ++ gs) = (mergeFields z fs).bind (mergeFields · gs) := by
  unfold mergeFields
  rw [List.foldlM_append]
  rfl

/-- A field that is left out when it has its default merges to its value either way. -/
theorem mergeFields_default {isDefault : Prop} [Decidable isDefault] {z w : ZPack} {f : Field}
    (hdefault : isDefault → w = z) (hmerge : mergeField z f = some w) :
    mergeFields z (if isDefault then [] else [f]) = some w := by
  split
  · next h => rw [hdefault h]; rfl
  · simp [mergeFields, hmerge]

/-- Merging the fields of a message rebuilds it. -/
theorem mergeFields_fields (z : ZPack) : mergeFields {} z.fields = some z := by
  obtain ⟨opcode, key, val, newval, lease, valnull, newvalnull, replicanum⟩ := z
  have h1 : mergeFields {} (bytesField 1 opcode) = some { opcode } :=
    mergeFields_default (fun h => by rw [h]) rfl
  have h2 : mergeFields { opcode } (bytesField 2 key) = some { opcode, key } :=
    mergeFields_default (fun h => by rw [h]) rfl
  have h3 : mergeFields { opcode, key } (bytesField 3 val) = some { opcode, key, val } :=
    mergeFields_default (fun h => by rw [h]) rfl
  have h4 : mergeFields { opcode, key, val } (bytesField 4 newval) = some { opcode, key, val, newval } :=
    mergeFields_default (fun h => by rw [h]) rfl
  have h5 : mergeFields { opcode, key, val, newval } (bytesField 5 lease) =
      some { opcode, key, val, newval, lease } :=
    mergeFields_default (fun h => by rw [h]) rfl
  have h6 : mergeFields { opcode, key, val, newval, lease } (boolField 6 valnull) =
      some { opcode, key, val, newval, lease, valnull } := by
    cases valnull <;> rfl
  have h7 : mergeFields { opcode, key, val, newval, lease, valnull } (boolField 7 newvalnull) =
      some { opcode, key, val, newval, lease, valnull, newvalnull } := by
    cases newvalnull <;> rfl
  have h8 : mergeFields { opcode, key, val, newval, lease, valnull, newvalnull } (int32Field 8 replicanum) =
      some { opcode, key, val, newval, lease, valnull, newvalnull, replicanum } :=
    mergeFields_default (fun h => by rw [h]) (by simp only [mergeField, ofNat_toInt])
  simp only [fields, mergeFields_append, h1, h2, h3, h4, h5, h6, h7, h8, Option.bind_some]

end ZPack

/-- The encoding of `zpack.proto`. -/
def Codec.protobuf : Codec where
  encode z := encodeFields z.fields
  decode := ZPack.decodeProtobuf
  decode_encode z := by
    simp [ZPack.decodeProtobuf, decodeFields_encode, ZPack.mergeFields_fields]

example : Codec.protobuf.encode { opcode := [0x30], replicanum := -1 } =
    [0x0a, 1, 0x30, 0x40, 0xff, 0xff, 0xff, 0xff, 0xff, 0xff, 0xff, 0xff, 0xff, 1] := by decide

/-! ## The length of an encoding -/

/-- The decoder makes no message whose encoding is much longer than the bytes it was read from: the
encoder writes a field once, behind the shortest header there is, and only an `int32` may take a few
bytes less elsewhere. -/
def Codec.Compact (c : Codec) : Prop := ∀ bs z, c.decode bs = .ok z → c.encodedLen z ≤ bs.length + 11

namespace ZPack

/-- The bytes a message takes but for its `int32`. -/
def plainLen (z : ZPack) : Nat := (encodeFields ({ z with replicanum := 0 } : ZPack).fields).length

theorem length_bytesField_le (number : Nat) (bs : Bytes) :
    (encodeFields (bytesField number bs)).length ≤ (encodeField ⟨number, .bytes bs⟩).length := by
  unfold bytesField
  split
  · exact Nat.zero_le _
  · simp [encodeFields]

theorem length_boolField_le (number n : Nat) (h : number < 16) :
    (encodeFields (boolField number (n ≠ 0))).length ≤ (encodeField ⟨number, .varint n⟩).length := by
  have hkey := List.length_pos_iff.2 (encodeVarint_ne_nil (number * 8))
  have hn := List.length_pos_iff.2 (encodeVarint_ne_nil n)
  have hkey' : (encodeVarint (number * 8)).length ≤ 1 := length_varintFrom_of_lt (k := 0) (by omega)
  have hone : (encodeVarint 1).length = 1 := rfl
  unfold boolField
  split
  · simp only [encodeFields, List.flatMap_cons, List.flatMap_nil, List.append_nil, encodeField, List.length_append,
      hone]
    omega
  · exact Nat.zero_le _

theorem plainLen_eq (z : ZPack) : z.plainLen = (encodeFields (bytesField 1 z.opcode)).length +
    (encodeFields (bytesField 2 z.key)).length + (encodeFields (bytesField 3 z.val)).length +
    (encodeFields (bytesField 4 z.newval)).length + (encodeFields (bytesField 5 z.lease)).length +
    (encodeFields (boolField 6 z.valnull)).length + (encodeFields (boolField 7 z.newvalnull)).length := by
  simp only [plainLen, fields, int32Field, ↓reduceIte, List.append_nil, encodeFields, List.flatMap_append,
    List.length_append]

theorem plainLen_mergeField {z w : ZPack} {f : Field} (h : mergeField z f = some w) :
    w.plainLen ≤ z.plainLen + (encodeField f).length := by
  obtain ⟨number, value⟩ := f
  have hbytes := length_bytesField_le number
  have hbool := length_boolField_le number
  unfold mergeField at h
  simp only at h
  rw [plainLen_eq, plainLen_eq]
  split at h
  case h_1 bs | h_2 bs | h_3 bs | h_4 bs | h_5 bs =>
    cases h
    have := hbytes bs
    simp only
    omega
  case h_6 n | h_7 n =>
    cases h
    have := hbool n (by decide)
    simp only
    omega
  case h_8 n =>
    cases h
    simp only
    omega
  case h_9 =>
    split at h
    · cases h
    · cases h
      omega

theorem plainLen_mergeFields {z w : ZPack} {fs : List Field} (h : mergeFields z fs = some w) :
    w.plainLen ≤ z.plainLen + (encodeFields fs).length := by
  induction fs generalizing z with
  | nil =>
    cases h
    exact Nat.le_refl _
  | cons f fs ih =>
    unfold mergeFields at h
    rw [List.foldlM_cons] at h
    obtain ⟨v, hv, h⟩ := Option.bind_eq_some_iff.1 h
    have hstep := plainLen_mergeField hv
    have hrest := ih h
    have hcons : (encodeFields (f :: fs)).length = (encodeField f).length + (encodeFields fs).length :=
      List.length_append
    omega

theorem length_fields_le (z : ZPack) : (encodeFields z.fields).length ≤ z.plainLen + 11 := by
  have hreplica : (encodeFields (int32Field 8 z.replicanum)).length ≤ 11 := by
    unfold int32Field
    split
    · exact Nat.zero_le _
    · have hkey : (encodeVarint (8 * 8)).length = 1 := rfl
      have hn : (encodeVarint (z.replicanum.toInt % 2 ^ 64).toNat).length ≤ 10 :=
        length_varintFrom_of_lt (k := 9) (by omega)
      simp only [encodeFields, List.flatMap_cons, List.flatMap_nil, List.append_nil, encodeField, List.length_append,
        hkey]
      omega
  rw [plainLen_eq]
  simp only [fields, encodeFields, List.flatMap_append, List.length_append] at hreplica ⊢
  omega

theorem plainLen_decodeProtobuf {bs : Bytes} {z : ZPack} (h : decodeProtobuf bs = .ok z) :
    z.plainLen ≤ bs.length := by
  unfold decodeProtobuf at h
  split at h
  · next w hw =>
    cases h
    obtain ⟨fs, hfs, hmerge⟩ := Option.bind_eq_some_iff.1 hw
    have hplain := plainLen_mergeFields hmerge
    have hread := length_encodeFields_le hfs
    have hempty : plainLen {} = 0 := rfl
    omega
  · cases h

end ZPack

theorem Codec.protobuf_compact : Codec.protobuf.Compact := fun _ z h =>
  Nat.le_trans z.length_fields_le (Nat.add_le_add_right (ZPack.plainLen_decodeProtobuf h) 11)

end Zht
