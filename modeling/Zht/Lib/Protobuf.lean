/-
The protobuf wire format: varints, fields that carry a number or bytes, and a message as its fields
in order. What was encoded is decoded to the same fields (`decodeFields_encode`), and no shorter
bytes are (`length_encodeFields_le`). Numbers are not bounded here; the fixed-width wire types are
refused.
-/
import Mathlib.Algebra.Group.Nat.Defs
import Mathlib.Data.List.Basic

namespace Lib.Protobuf

/-! ## Varints -/

/-- Seven bits a byte, lowest first; every byte but the last has its high bit set. -/
def varintFrom : Nat → Nat → List UInt8
  | 0, _ => []
  | fuel + 1, n => if n < 128 then [UInt8.ofNat n] else UInt8.ofNat (n % 128 + 128) :: varintFrom fuel (n / 128)

def encodeVarint (n : Nat) : List UInt8 := varintFrom (n + 1) n

def decodeVarint : List UInt8 → Option (Nat × List UInt8)
  | [] => none
  | b :: rest =>
    if b.toNat < 128 then some (b.toNat, rest)
    else
      match decodeVarint rest with
      | some (n, rest) => some (b.toNat - 128 + 128 * n, rest)
      | none => none

theorem decodeVarint_from {fuel n : Nat} (h : n < fuel) (rest : List UInt8) :
    decodeVarint (varintFrom fuel n ++ rest) = some (n, rest) := by
  induction fuel generalizing n with
  | zero => omega
  | succ fuel ih =>
    by_cases hn : n < 128
    · have hb : (UInt8.ofNat n).toNat = n := by
        rw [UInt8.toNat_ofNat']; omega
      simp [varintFrom, hn, decodeVarint, hb]
    · have hb : (UInt8.ofNat (n % 128 + 128)).toNat = n % 128 + 128 := by
        rw [UInt8.toNat_ofNat']; omega
      have hrest : decodeVarint (varintFrom fuel (n / 128) ++ rest) = some (n / 128, rest) := ih (by omega)
      simp only [varintFrom, hn, ↓reduceIte, List.cons_append, decodeVarint, hb, hrest]
      rw [if_neg (by omega)]
      simp only [Option.some.injEq, Prod.mk.injEq, and_true]
      omega

@[simp] theorem decodeVarint_encode (n : Nat) (rest : List UInt8) :
    decodeVarint (encodeVarint n ++ rest) = some (n, rest) :=
  decodeVarint_from (Nat.lt_succ_self n) rest

theorem encodeVarint_ne_nil (n : Nat) : encodeVarint n ≠ [] := by
  unfold encodeVarint varintFrom
  split <;> simp

/-! ## Fields -/

inductive Value
  | varint (n : Nat)
  | bytes (bs : List UInt8)
  deriving DecidableEq, Repr

structure Field where
  number : Nat
  value : Value
  deriving DecidableEq, Repr

def encodeField (f : Field) : List UInt8 :=
  match f.value with
  | .varint n => encodeVarint (f.number * 8) ++ encodeVarint n
  | .bytes bs => encodeVarint (f.number * 8 + 2) ++ encodeVarint bs.length ++ bs

def decodeField (bs : List UInt8) : Option (Field × List UInt8) := do
  let (key, bs) ← decodeVarint bs
  let (n, bs) ← decodeVarint bs
  if key % 8 = 0 then some (⟨key / 8, .varint n⟩, bs)
  else if key % 8 = 2 ∧ n ≤ bs.length then some (⟨key / 8, .bytes (bs.take n)⟩, bs.drop n)
  else none

theorem decodeField_encode (f : Field) (rest : List UInt8) :
    decodeField (encodeField f ++ rest) = some (f, rest) := by
  obtain ⟨number, n | bs⟩ := f
  · have hdiv : number * 8 / 8 = number := by omega
    simp [encodeField, decodeField, hdiv]
  · have hdiv : (number * 8 + 2) / 8 = number := by omega
    have hmod : (number * 8 + 2) % 8 = 2 := by omega
    simp [encodeField, decodeField, hdiv, hmod]

theorem length_encodeField_pos (f : Field) : 0 < (encodeField f).length := by
  obtain ⟨number, n | bs⟩ := f
  · have := List.length_pos_iff.2 (encodeVarint_ne_nil (number * 8))
    simp only [encodeField, List.length_append]
    omega
  · have := List.length_pos_iff.2 (encodeVarint_ne_nil (number * 8 + 2))
    simp only [encodeField, List.length_append]
    omega

/-! ## Messages -/

def encodeFields (fs : List Field) : List UInt8 := fs.flatMap encodeField

def decodeFieldsFrom : Nat → List UInt8 → Option (List Field)
  | _, [] => some []
  | 0, _ :: _ => none
  | fuel + 1, b :: bs => do
    let (f, rest) ← decodeField (b :: bs)
    let fs ← decodeFieldsFrom fuel rest
    return f :: fs

/-- A field takes a byte at least, so there are no more fields than bytes. -/
def decodeFields (bs : List UInt8) : Option (List Field) := decodeFieldsFrom bs.length bs

theorem decodeFieldsFrom_encode (fs : List Field) {fuel : Nat} (h : (encodeFields fs).length ≤ fuel) :
    decodeFieldsFrom fuel (encodeFields fs) = some fs := by
  induction fs generalizing fuel with
  | nil => cases fuel <;> rfl
  | cons f fs ih =>
    have hpos := length_encodeField_pos f
    have hcons : encodeFields (f :: fs) = encodeField f ++ encodeFields fs := rfl
    rw [hcons, List.length_append] at h
    rw [hcons]
    cases fuel with
    | zero => omega
    | succ fuel =>
      have hne : encodeField f ++ encodeFields fs ≠ [] := by
        intro he
        rw [(List.append_eq_nil_iff.1 he).1] at hpos
        exact Nat.lt_irrefl 0 hpos
      obtain ⟨b, bs, hb⟩ := List.exists_cons_of_ne_nil hne
      have hf := decodeField_encode f (encodeFields fs)
      rw [hb] at hf ⊢
      have hrest : decodeFieldsFrom fuel (encodeFields fs) = some fs := ih (by omega)
      simp only [decodeFieldsFrom, hf, Option.bind_eq_bind, Option.bind_some, hrest]
      rfl

theorem decodeFields_encode (fs : List Field) : decodeFields (encodeFields fs) = some fs :=
  decodeFieldsFrom_encode fs (Nat.le_refl _)

/-! ## The shortest encoding -/

/-- No bytes are read as a number in fewer than its own encoding takes. -/
theorem length_varintFrom_le (fuel : Nat) {n : Nat} {bs rest : List UInt8} (h : decodeVarint bs = some (n, rest)) :
    (varintFrom fuel n).length + rest.length ≤ bs.length := by
  induction bs generalizing fuel n rest with
  | nil => cases h
  | cons b bs ih =>
    rw [decodeVarint] at h
    split at h
    · next hb =>
      cases h
      cases fuel with
      | zero => simp [varintFrom]
      | succ fuel => simp [varintFrom, hb, Nat.add_comm]
    · cases hd : decodeVarint bs with
      | none => rw [hd] at h; cases h
      | some p =>
        obtain ⟨m, rest'⟩ := p
        rw [hd] at h
        cases h
        have hdiv : (b.toNat - 128 + 128 * m) / 128 = m := by
          have := b.toNat_lt
          omega
        cases fuel with
        | zero =>
          have := ih 0 hd
          simp only [varintFrom, List.length_nil, List.length_cons] at this ⊢
          omega
        | succ fuel =>
          have := ih fuel hd
          unfold varintFrom
          split
          · simp only [List.length_cons, List.length_nil]
            omega
          · rw [hdiv, List.length_cons, List.length_cons]
            omega

theorem length_encodeVarint_le {n : Nat} {bs rest : List UInt8} (h : decodeVarint bs = some (n, rest)) :
    (encodeVarint n).length + rest.length ≤ bs.length := length_varintFrom_le _ h

theorem length_varintFrom_of_lt {k fuel n : Nat} (h : n < 128 ^ (k + 1)) : (varintFrom fuel n).length ≤ k + 1 := by
  induction k generalizing fuel n with
  | zero =>
    cases fuel with
    | zero => simp [varintFrom]
    | succ fuel => simp [varintFrom, show n < 128 by omega]
  | succ k ih =>
    cases fuel with
    | zero => simp [varintFrom]
    | succ fuel =>
      unfold varintFrom
      split
      · simp
      · rw [List.length_cons]
        exact Nat.succ_le_succ (ih (Nat.div_lt_of_lt_mul (by rw [Nat.pow_succ] at h; omega)))

theorem length_encodeField_le {f : Field} {bs rest : List UInt8} (h : decodeField bs = some (f, rest)) :
    (encodeField f).length + rest.length ≤ bs.length := by
  unfold decodeField at h
  obtain ⟨⟨key, bs₁⟩, hkey, h⟩ := Option.bind_eq_some_iff.1 h
  obtain ⟨⟨n, bs₂⟩, hn, h⟩ := Option.bind_eq_some_iff.1 h
  have hkeyLen := length_encodeVarint_le hkey
  have hnLen := length_encodeVarint_le hn
  simp only at h
  split at h
  · next hwire =>
    cases h
    have hkey' : key / 8 * 8 = key := by omega
    simp only [encodeField, hkey', List.length_append]
    omega
  · split at h
    · next hwire =>
      cases h
      have hkey' : key / 8 * 8 + 2 = key := by omega
      have htake : (bs₂.take n).length = n := List.length_take_of_le hwire.2
      simp only [encodeField, hkey', htake, List.length_append, List.length_drop]
      omega
    · cases h

theorem length_encodeFieldsFrom_le {fuel : Nat} {fs : List Field} {bs : List UInt8}
    (h : decodeFieldsFrom fuel bs = some fs) : (encodeFields fs).length ≤ bs.length := by
  induction fuel generalizing fs bs with
  | zero =>
    cases bs with
    | nil => cases h; exact Nat.le_refl _
    | cons b bs => cases h
  | succ fuel ih =>
    cases bs with
    | nil => cases h; exact Nat.le_refl _
    | cons b bs =>
      rw [decodeFieldsFrom] at h
      obtain ⟨⟨f, rest⟩, hf, h⟩ := Option.bind_eq_some_iff.1 h
      obtain ⟨gs, hgs, h⟩ := Option.bind_eq_some_iff.1 h
      cases h
      have hfLen := length_encodeField_le hf
      have hgsLen := ih hgs
      show (encodeField f ++ encodeFields gs).length ≤ _
      rw [List.length_append]
      omega

/-- Of all the bytes that are read as some fields, their own encoding is the shortest. -/
theorem length_encodeFields_le {fs : List Field} {bs : List UInt8} (h : decodeFields bs = some fs) :
    (encodeFields fs).length ≤ bs.length := length_encodeFieldsFrom_le h

end Lib.Protobuf
