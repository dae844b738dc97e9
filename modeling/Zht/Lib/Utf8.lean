/-
UTF-8 over byte lists: the bytes of a string, strict decoding (`fromUtf8`, which fails on the first
malformed sequence) and lossy decoding (`fromUtf8Lossy`, which replaces every maximal malformed
sequence by one replacement character). Both read back the bytes of a string as that string.
-/
import Mathlib.Data.List.Basic

namespace Lib.Utf8

/-- The UTF-8 bytes of a string. -/
def utf8Bytes (s : String) : List UInt8 := s.toList.flatMap String.utf8EncodeChar

/-- The first character of a byte list and the bytes after it. -/
def decodeChar (bs : List UInt8) : Option (Char × List UInt8) :=
  match bs.toByteArray.utf8DecodeChar? 0 with
  | some c => some (c, bs.drop c.utf8Size)
  | none => none

theorem decodeChar_encode (c : Char) (rest : List UInt8) :
    decodeChar (String.utf8EncodeChar c ++ rest) = some (c, rest) := by
  have h : (String.utf8EncodeChar c ++ rest).toByteArray.utf8DecodeChar? 0 = some c := by
    rw [List.toByteArray_append]
    exact ByteArray.utf8DecodeChar?_utf8EncodeChar_append
  simp only [decodeChar, h]
  rw [← String.length_utf8EncodeChar, List.drop_left]

theorem decodeChar_some {bs rest : List UInt8} {c : Char} (h : decodeChar bs = some (c, rest)) :
    bs = String.utf8EncodeChar c ++ rest := by
  unfold decodeChar at h
  cases hd : bs.toByteArray.utf8DecodeChar? 0 with
  | none => rw [hd] at h; cases h
  | some d =>
    rw [hd] at h
    simp only [Option.some.injEq, Prod.mk.injEq] at h
    obtain ⟨rfl, rfl⟩ := h
    obtain ⟨l, hl⟩ := ByteArray.exists_of_utf8DecodeChar?_eq_some hd
    have hb : bs = String.utf8EncodeChar d ++ l.data.toList := by
      have := congrArg (fun b : ByteArray => b.data.toList) hl
      simpa using this
    rw [hb, ← String.length_utf8EncodeChar, List.drop_left]

theorem encodeChar_pos (c : Char) : 0 < (String.utf8EncodeChar c).length := by
  rw [String.length_utf8EncodeChar]; exact c.utf8Size_pos

/-! ## Strict decoding -/

/-- The characters of well-formed UTF-8; `fuel` is at least the number of bytes. -/
def strictChars : Nat → List UInt8 → Option (List Char)
  | _, [] => some []
  | 0, _ :: _ => none
  | fuel + 1, b :: bs =>
    match decodeChar (b :: bs) with
    | some (c, rest) => (strictChars fuel rest).map (c :: ·)
    | none => none

/-- The string of well-formed UTF-8 bytes, `none` when they are malformed. -/
def fromUtf8 (bs : List UInt8) : Option String := (strictChars bs.length bs).map String.ofList

theorem strictChars_encode (cs : List Char) (fuel : Nat) (h : (cs.flatMap String.utf8EncodeChar).length ≤ fuel) :
    strictChars fuel (cs.flatMap String.utf8EncodeChar) = some cs := by
  induction cs generalizing fuel with
  | nil => cases fuel <;> rfl
  | cons c cs ih =>
    rw [List.flatMap_cons] at h ⊢
    have hpos := encodeChar_pos c
    rw [List.length_append] at h
    obtain ⟨b, bs, hb⟩ := List.exists_cons_of_length_pos hpos
    obtain ⟨fuel, rfl⟩ : ∃ n, fuel = n + 1 := ⟨fuel - 1, by omega⟩
    have hd := decodeChar_encode c (cs.flatMap String.utf8EncodeChar)
    rw [hb, List.cons_append] at hd ⊢
    rw [strictChars, hd]
    simp only
    rw [ih fuel (by omega)]
    rfl

theorem strictChars_some (fuel : Nat) (bs : List UInt8) (cs : List Char) (h : strictChars fuel bs = some cs) :
    bs = cs.flatMap String.utf8EncodeChar := by
  fun_induction strictChars fuel bs generalizing cs with
  | case1 => cases h; rfl
  | case2 => cases h
  | case3 fuel b bs c rest hd ih =>
    obtain ⟨ds, hds, rfl⟩ := Option.map_eq_some_iff.1 h
    rw [decodeChar_some hd, ih ds hds, List.flatMap_cons]
  | case4 => cases h

/-- Strict decoding succeeds exactly on the bytes of a string, and yields that string. -/
theorem fromUtf8_eq_some {bs : List UInt8} {s : String} : fromUtf8 bs = some s ↔ bs = utf8Bytes s := by
  unfold fromUtf8 utf8Bytes
  constructor
  · intro h
    simp only [Option.map_eq_some_iff] at h
    obtain ⟨cs, hcs, rfl⟩ := h
    rw [String.toList_ofList]
    exact strictChars_some _ _ _ hcs
  · rintro rfl
    rw [strictChars_encode _ _ (Nat.le_refl _), Option.map_some, String.ofList_toList]

@[simp] theorem fromUtf8_utf8Bytes (s : String) : fromUtf8 (utf8Bytes s) = some s := fromUtf8_eq_some.2 rfl

/-! ## Lossy decoding -/

/-- A continuation byte, `10xxxxxx`. -/
def isCont (b : UInt8) : Bool := b &&& 0xC0 == 0x80

/-- The number of bytes a malformed sequence at the head takes: the longest prefix of it that
could still have become a character, at least one byte. -/
def malformedLen (bs : List UInt8) : Nat :=
  let b0 := bs.getD 0 0
  let b1 := bs.getD 1 0
  let b2 := bs.getD 2 0
  if 0xE0 ≤ b0 ∧ b0 ≤ 0xEF then
    if (b0 = 0xE0 ∧ 0xA0 ≤ b1 ∧ b1 ≤ 0xBF) ∨ (0xE1 ≤ b0 ∧ b0 ≤ 0xEC ∧ 0x80 ≤ b1 ∧ b1 ≤ 0xBF) ∨
        (b0 = 0xED ∧ 0x80 ≤ b1 ∧ b1 ≤ 0x9F) ∨ (0xEE ≤ b0 ∧ 0x80 ≤ b1 ∧ b1 ≤ 0xBF) then 2 else 1
  else if 0xF0 ≤ b0 ∧ b0 ≤ 0xF4 then
    if (b0 = 0xF0 ∧ 0x90 ≤ b1 ∧ b1 ≤ 0xBF) ∨ (0xF1 ≤ b0 ∧ b0 ≤ 0xF3 ∧ 0x80 ≤ b1 ∧ b1 ≤ 0xBF) ∨
        (b0 = 0xF4 ∧ 0x80 ≤ b1 ∧ b1 ≤ 0x8F) then
      if isCont b2 then 3 else 2
    else 1
  else 1

/-- The characters of a byte list, `U+FFFD` for every malformed sequence; `fuel` is at least the
number of bytes. -/
def lossyChars : Nat → List UInt8 → List Char
  | _, [] => []
  | 0, _ :: _ => []
  | fuel + 1, b :: bs =>
    match decodeChar (b :: bs) with
    | some (c, rest) => c :: lossyChars fuel rest
    | none => '\uFFFD' :: lossyChars fuel ((b :: bs).drop (malformedLen (b :: bs)))

/-- The string of a byte list, malformed sequences replaced. -/
def fromUtf8Lossy (bs : List UInt8) : String := String.ofList (lossyChars bs.length bs)

theorem lossyChars_of_strict (fuel : Nat) (bs : List UInt8) (cs : List Char) (h : strictChars fuel bs = some cs) :
    lossyChars fuel bs = cs := by
  fun_induction strictChars fuel bs generalizing cs with
  | case1 fuel => cases h; cases fuel <;> rfl
  | case2 => cases h
  | case3 fuel b bs c rest hd ih =>
    obtain ⟨ds, hds, rfl⟩ := Option.map_eq_some_iff.1 h
    simp only [lossyChars, hd, ih ds hds]
  | case4 => cases h

@[simp] theorem fromUtf8Lossy_utf8Bytes (s : String) : fromUtf8Lossy (utf8Bytes s) = s := by
  have h : strictChars (utf8Bytes s).length (utf8Bytes s) = some s.toList :=
    strictChars_encode s.toList _ (Nat.le_refl _)
  unfold fromUtf8Lossy
  rw [lossyChars_of_strict _ _ _ h, String.ofList_toList]

theorem fromUtf8Lossy_eq_empty {bs : List UInt8} : fromUtf8Lossy bs = "" ↔ bs = [] := by
  cases bs with
  | nil => simp [fromUtf8Lossy, lossyChars]
  | cons b bs =>
    have hne : lossyChars (b :: bs).length (b :: bs) ≠ [] := by
      rw [List.length_cons, lossyChars]
      split <;> exact List.cons_ne_nil _ _
    simp only [fromUtf8Lossy, reduceCtorEq, iff_false]
    intro h
    have := congrArg String.toList h
    rw [String.toList_ofList] at this
    exact hne this

/-! ## The error of strict decoding -/

/-- The number of bytes before the first malformed sequence; `fuel` is at least the number of bytes. -/
def validUpTo : Nat → List UInt8 → Nat
  | _, [] => 0
  | 0, _ :: _ => 0
  | fuel + 1, b :: bs =>
    match decodeChar (b :: bs) with
    | some (c, rest) => c.utf8Size + validUpTo fuel rest
    | none => 0

/-- The text of the error strict decoding fails with: the sequence is cut short by the end of the
bytes, or it is malformed. -/
def utf8ErrorText (bs : List UInt8) : String :=
  let index := validUpTo bs.length bs
  let bad := bs.drop index
  let lead := bad.getD 0 0
  if malformedLen bad = bad.length ∧ 0xC2 ≤ lead ∧ lead ≤ 0xF4 then
    "incomplete utf-8 byte sequence from index " ++ index.repr
  else "invalid utf-8 sequence of " ++ (malformedLen bad).repr ++ " bytes from index " ++ index.repr

/-! ## The bytes of a string -/

@[simp] theorem utf8Bytes_append (s t : String) : utf8Bytes (s ++ t) = utf8Bytes s ++ utf8Bytes t := by
  simp [utf8Bytes]

@[simp] theorem utf8Bytes_ofList (cs : List Char) :
    utf8Bytes (String.ofList cs) = cs.flatMap String.utf8EncodeChar := by
  simp [utf8Bytes]

theorem utf8Bytes_inj {s t : String} (h : utf8Bytes s = utf8Bytes t) : s = t := by
  have := fromUtf8_utf8Bytes s
  rw [h, fromUtf8_utf8Bytes] at this
  exact (Option.some.inj this).symm

/-- What follows the bytes of some characters among the bytes of others are bytes of characters again. -/
theorem flatMap_encode_cancel {cs ds : List Char} {rest : List UInt8}
    (h : cs.flatMap String.utf8EncodeChar ++ rest = ds.flatMap String.utf8EncodeChar) :
    ∃ es, ds = cs ++ es ∧ rest = es.flatMap String.utf8EncodeChar := by
  induction cs generalizing ds with
  | nil => exact ⟨ds, rfl, h⟩
  | cons c cs ih =>
    rw [List.flatMap_cons, List.append_assoc] at h
    cases ds with
    | nil =>
      have hpos := encodeChar_pos c
      have hlength := congrArg List.length h
      rw [List.length_append, List.flatMap_nil, List.length_nil] at hlength
      omega
    | cons d ds =>
      have hfirst := decodeChar_encode c (cs.flatMap String.utf8EncodeChar ++ rest)
      rw [h, List.flatMap_cons, decodeChar_encode] at hfirst
      obtain ⟨rfl, htail⟩ := Prod.mk.inj (Option.some.inj hfirst)
      obtain ⟨es, rfl, hrest⟩ := ih htail.symm
      exact ⟨es, rfl, hrest⟩

/-- Decoding goes on behind the bytes of a string. -/
theorem fromUtf8_append (s : String) (bs : List UInt8) :
    fromUtf8 (utf8Bytes s ++ bs) = (fromUtf8 bs).map (s ++ ·) := by
  cases hb : fromUtf8 bs with
  | some t =>
    rw [fromUtf8_eq_some.1 hb, ← utf8Bytes_append, fromUtf8_utf8Bytes, Option.map_some]
  | none =>
    rw [Option.map_none, Option.eq_none_iff_forall_ne_some]
    intro t ht
    obtain ⟨es, -, hes⟩ := flatMap_encode_cancel (fromUtf8_eq_some.1 ht)
    rw [hes, ← utf8Bytes_ofList, fromUtf8_utf8Bytes] at hb
    cases hb

/-- Bytes at the front of a string's that are a string's too are those of its front. -/
theorem exists_of_fromUtf8_take {s t : String} {n : Nat} (h : fromUtf8 ((utf8Bytes s).take n) = some t) :
    ∃ u, s = t ++ u := by
  have hbytes := List.take_append_drop n (utf8Bytes s)
  rw [fromUtf8_eq_some.1 h] at hbytes
  obtain ⟨es, hes, -⟩ := flatMap_encode_cancel hbytes
  refine ⟨String.ofList es, String.toList_inj.1 ?_⟩
  rw [hes, String.toList_append, String.toList_ofList]

/-! ## ASCII -/

theorem encodeChar_ascii {c : Char} (h : c.toNat < 128) : String.utf8EncodeChar c = [UInt8.ofNat c.toNat] := by
  have hc : c.val.toNat ≤ 127 := Nat.le_of_lt_succ h
  unfold String.utf8EncodeChar
  rw [if_pos hc]
  rfl

theorem length_utf8Bytes_ascii {s : String} (h : ∀ c ∈ s.toList, c.toNat < 128) :
    (utf8Bytes s).length = s.toList.length := by
  unfold utf8Bytes
  rw [List.length_flatMap, List.map_congr_left (g := fun _ => 1), List.map_const', List.sum_replicate_nat, Nat.mul_one]
  intro c hc
  rw [encodeChar_ascii (h c hc)]
  rfl

end Lib.Utf8
