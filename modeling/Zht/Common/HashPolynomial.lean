/-
The routing hash in exact arithmetic. A step of `gen_hash` multiplies by 2^6 + 2^16 - 1 = 65599 and adds
a byte, all modulo 2^64; so the hash is the polynomial of the bytes in front of the first zero one.
-/
import Mathlib.Data.Nat.ModEq
import Zht.Common.Basic
import Zht.Lib.Horner

namespace Zht

open Lib Lib.Horner

/-- The bytes before the first zero byte. -/
def cString (data : Bytes) : Bytes := data.takeWhile (· ≠ 0)

theorem cString_append {a : Bytes} (h : 0 ∉ a) (b : Bytes) : cString (a ++ b) = a ++ cString b := by
  have ha : ∀ x ∈ a, decide (x ≠ 0) = true := fun x hx => decide_eq_true fun he => h (he ▸ hx)
  unfold cString
  rw [List.takeWhile_append_of_pos ha]

theorem cString_of_not_mem {a : Bytes} (h : 0 ∉ a) : cString a = a := by
  have happ := cString_append h []
  have hnil : cString [] = [] := rfl
  rwa [List.append_nil, hnil, List.append_nil] at happ

/-- One byte more: the shifts drop what the modulus does. -/
theorem toNat_hashStep (hash : UInt64) (byte : UInt8) :
    (byte.toUInt64 + (hash <<< 6) + (hash <<< 16) - hash).toNat = (hash.toNat * 65599 + byte.toNat) % 2 ^ 64 := by
  have h6 : (6 : UInt64).toNat % 64 = 6 := rfl
  have h16 : (16 : UInt64).toNat % 64 = 16 := rfl
  have hlt := hash.toNat_lt
  rw [UInt64.toNat_sub, UInt64.toNat_add, UInt64.toNat_add, UInt64.toNat_shiftLeft, UInt64.toNat_shiftLeft, h6, h16,
    UInt8.toNat_toUInt64, Nat.shiftLeft_eq, Nat.shiftLeft_eq]
  omega

/-- The hash continued from `hash`. -/
theorem toNat_genHashFrom :
    ∀ (data : Bytes) (hash : UInt64), (genHashFrom hash data).toNat =
      (hash.toNat * 65599 ^ (cString data).length + horner 65599 ((cString data).map UInt8.toNat)) % 2 ^ 64
  | [], hash => by
    have hlt := Nat.mod_eq_of_lt hash.toNat_lt
    simp [genHashFrom, cString, horner, hlt]
  | byte :: rest, hash => by
    rw [genHashFrom]
    by_cases hzero : byte = 0
    · have hlt := Nat.mod_eq_of_lt hash.toNat_lt
      simp [cString, horner, hzero, hlt]
    · have hcons : cString (byte :: rest) = byte :: cString rest := List.takeWhile_cons_of_pos (decide_eq_true hzero)
      -- the modulus of this step is lost in the one of the rest
      have hmod : (hash.toNat * 65599 + byte.toNat) % 2 ^ 64 * 65599 ^ (cString rest).length +
            horner 65599 ((cString rest).map UInt8.toNat) ≡
          (hash.toNat * 65599 + byte.toNat) * 65599 ^ (cString rest).length +
            horner 65599 ((cString rest).map UInt8.toNat) [MOD 2 ^ 64] :=
        ((Nat.mod_modEq _ _).mul_right _).add_right _
      rw [if_neg hzero, toNat_genHashFrom rest, toNat_hashStep, hmod, hcons, List.map_cons, horner_cons,
        List.length_cons, List.length_map]
      congr 1
      ring

theorem toNat_genHash (data : Bytes) :
    (genHash data).toNat = horner 65599 ((cString data).map UInt8.toNat) % 2 ^ 64 := by
  rw [genHash, toNat_genHashFrom, UInt64.toNat_zero, Nat.zero_mul, Nat.zero_add]

/-- The hash of every byte string is the base-65599 polynomial of the bytes before its first zero,
modulo 2^64; so a text without a zero byte moves up by the bytes that come after it. -/
theorem genHash_polynomial :
    (∀ data : Bytes, (genHash data).toNat =
      (∑ i : Fin (cString data).length, (cString data)[i].toNat * 65599 ^ ((cString data).length - 1 - i)) % 2 ^ 64) ∧
      ∀ a b : Bytes, 0 ∉ a →
        (genHash (a ++ b)).toNat = ((genHash a).toNat * 65599 ^ (cString b).length + (genHash b).toNat) % 2 ^ 64 := by
  constructor
  · intro data
    rw [toNat_genHash, horner_map_eq_sum]
  · intro a b ha
    rw [toNat_genHash, toNat_genHash, toNat_genHash, cString_append ha, cString_of_not_mem ha, List.map_append,
      horner_append, List.length_map]
    exact (((Nat.mod_modEq _ _).mul_right _).add (Nat.mod_modEq _ _)).symm

end Zht
