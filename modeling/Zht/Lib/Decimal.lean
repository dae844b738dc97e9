/-
Decimal numbers as a bounded integer type parses them: an optional plus sign, or a minus sign where the
type is signed, then at least one digit, and no value past the bound. What `Nat.repr` prints is read
back, and padded to a width it fits takes exactly that many bytes.
-/
import Mathlib.Algebra.Group.Nat.Defs
import Zht.Lib.Text

namespace Lib.Decimal

open Lib.Utf8 Lib.Text

/-- Why a text is no number of the type. -/
inductive IntError
  | empty
  | invalidDigit
  | posOverflow
  deriving DecidableEq, Repr

/-- The text of the error. -/
def IntError.text : IntError → String
  | empty => "cannot parse integer from empty string"
  | invalidDigit => "invalid digit found in string"
  | posOverflow => "number too large to fit in target type"

/-- The digits after the value `acc`; the first character at fault decides the error. -/
def parseDigits (bound : Nat) : Nat → List Char → Except IntError Nat
  | acc, [] => .ok acc
  | acc, c :: cs =>
    if c.isDigit then
      let acc := 10 * acc + (c.toNat - '0'.toNat)
      if acc < bound then parseDigits bound acc cs else .error .posOverflow
    else .error .invalidDigit

/-- A number below `bound`. -/
def parseUnsigned (bound : Nat) (s : String) : Except IntError Nat :=
  match s.toList with
  | [] => .error .empty
  -- a sign alone is no number
  | ['+'] => .error .invalidDigit
  | '+' :: cs => parseDigits bound 0 cs
  | cs => parseDigits bound 0 cs

theorem le_ofDigitChars (cs : List Char) (acc : Nat) : acc ≤ Nat.ofDigitChars 10 cs acc := by
  induction cs generalizing acc with
  | nil => exact Nat.le_refl _
  | cons c cs ih =>
    rw [Nat.ofDigitChars_cons]
    exact Nat.le_trans (by omega) (ih _)

theorem parseDigits_of_lt {bound : Nat} {cs : List Char} (hd : ∀ c ∈ cs, c.isDigit = true) {acc : Nat}
    (h : Nat.ofDigitChars 10 cs acc < bound) : parseDigits bound acc cs = .ok (Nat.ofDigitChars 10 cs acc) := by
  induction cs generalizing acc with
  | nil => rfl
  | cons c cs ih =>
    rw [Nat.ofDigitChars_cons] at h ⊢
    have hacc : 10 * acc + (c.toNat - '0'.toNat) < bound := Nat.lt_of_le_of_lt (le_ofDigitChars cs _) h
    rw [parseDigits, if_pos (hd c List.mem_cons_self)]
    simp only [if_pos hacc]
    exact ih (fun d hd' => hd d (List.mem_cons_of_mem _ hd')) h

theorem digits_repr (n : Nat) : ∀ c ∈ n.repr.toList, c.isDigit = true := by
  intro c hc
  rw [Nat.toList_repr] at hc
  exact Nat.isDigit_of_mem_toDigits (by decide) (by decide) hc

/-- Digits with a value below the bound are read, however many zeros they start with. -/
theorem parseUnsigned_digits {bound : Nat} {cs : List Char} (hne : cs ≠ []) (hd : ∀ c ∈ cs, c.isDigit = true)
    (h : Nat.ofDigitChars 10 cs 0 < bound) :
    parseUnsigned bound (String.ofList cs) = .ok (Nat.ofDigitChars 10 cs 0) := by
  have hparse := parseDigits_of_lt hd h
  unfold parseUnsigned
  rw [String.toList_ofList]
  split
  · exact absurd rfl hne
  · exact absurd (hd '+' List.mem_cons_self) (by decide)
  · exact absurd (hd '+' List.mem_cons_self) (by decide)
  · exact hparse

/-- A printed number below the bound is read back. -/
theorem parseUnsigned_repr {bound n : Nat} (h : n < bound) : parseUnsigned bound n.repr = .ok n := by
  have hval : Nat.ofDigitChars 10 n.repr.toList 0 = n := by
    rw [Nat.toList_repr, Nat.ofDigitChars_ten_toDigits]
  have hne : n.repr.toList ≠ [] := by
    rw [Nat.toList_repr]
    exact Nat.toDigits_ne_nil
  have hparse := parseUnsigned_digits hne (digits_repr n) (hval.symm ▸ h)
  rwa [String.ofList_toList, hval] at hparse

theorem digit_toNat {c : Char} (h : c.isDigit = true) : 48 ≤ c.toNat ∧ c.toNat ≤ 57 := by
  simp only [Char.isDigit, Bool.and_eq_true, decide_eq_true_eq] at h
  exact ⟨h.1, h.2⟩

theorem digit_not_whitespace {c : Char} (h : c.isDigit = true) : isWhitespace c = false := by
  obtain ⟨h1, h2⟩ := digit_toNat h
  have hall : ∀ n : Fin 58, 48 ≤ n.val → isWhitespace (Char.ofNat n.val) = false := by decide
  have := hall ⟨c.toNat, by omega⟩ h1
  rwa [Char.ofNat_toNat] at this

/-! ## What is no number -/

theorem digits_of_parseDigits {bound n : Nat} :
    ∀ {cs : List Char} {acc : Nat}, parseDigits bound acc cs = .ok n → ∀ c ∈ cs, c.isDigit = true
  | [], _, _ => List.forall_mem_nil _
  | c :: cs, acc, h => by
    rw [parseDigits] at h
    split at h
    · next hc =>
      simp only at h
      split at h
      · exact List.forall_mem_cons.2 ⟨hc, digits_of_parseDigits h⟩
      · cases h
    · cases h

/-- A text with white space in it is no unsigned number. -/
theorem parseUnsigned_blank {bound n : Nat} {s : String} {c : Char} (hc : c ∈ s.toList)
    (hblank : isWhitespace c = true) : parseUnsigned bound s ≠ .ok n := by
  have hdigits : ∀ {cs}, c ∈ cs → parseDigits bound 0 cs ≠ .ok n := by
    rintro cs hmem hok
    rw [digit_not_whitespace (digits_of_parseDigits hok c hmem)] at hblank
    cases hblank
  unfold parseUnsigned
  split
  · exact nofun
  · exact nofun
  · next cs hplus =>
    rw [hplus] at hc
    rcases List.mem_cons.1 hc with rfl | hmem
    · exact absurd hblank (by decide)
    · exact hdigits hmem
  · exact hdigits hc

/-! ## Signed numbers -/

/-- A number of a signed type from `-bound` on, or `none`. -/
def parseSigned (bound : Nat) (s : String) : Option Int :=
  match s.toList with
  | '-' :: c :: cs => (parseDigits (bound + 1) 0 (c :: cs)).toOption.map fun n : Nat => -(n : Int)
  | _ => (parseUnsigned bound s).toOption.map Int.ofNat

theorem toOption_eq_none {ε α : Type} {x : Except ε α} (h : ∀ a, x ≠ .ok a) : x.toOption = none := by
  cases x with
  | error e => rfl
  | ok a => exact absurd rfl (h a)

/-- Nor is it a signed one. -/
theorem parseSigned_blank {bound : Nat} {s : String} {c : Char} (hc : c ∈ s.toList)
    (hblank : isWhitespace c = true) : parseSigned bound s = none := by
  unfold parseSigned
  split
  · next d cs hminus =>
    rw [hminus] at hc
    rw [toOption_eq_none, Option.map_none]
    rintro n hok
    rcases List.mem_cons.1 hc with rfl | hmem
    · exact absurd hblank (by decide)
    · rw [digit_not_whitespace (digits_of_parseDigits hok c hmem)] at hblank
      cases hblank
  · rw [toOption_eq_none fun n => parseUnsigned_blank hc hblank, Option.map_none]

example : parseSigned (2 ^ 31) "-2147483648" = some (-2147483648) ∧ parseSigned (2 ^ 31) "2147483648" = none ∧
    parseSigned (2 ^ 31) "-" = none := by decide

/-! ## Fields of fixed width -/

section Padded

variable (n : Nat)

theorem repr_cleanStart : CleanStart n.repr.toList := fun c hc =>
  digit_not_whitespace (digits_repr n c (List.mem_of_mem_head? hc))

theorem repr_cleanEnd : CleanEnd n.repr.toList := fun c hc =>
  digit_not_whitespace (digits_repr n c (List.mem_of_mem_getLast? hc))

theorem trim_padStart_repr (width : Nat) : trim (padStart width n.repr) = n.repr :=
  trim_padStart (repr_cleanStart n) (repr_cleanEnd n)

theorem trim_padEnd_repr (width : Nat) : trim (padEnd width n.repr) = n.repr :=
  trim_padEnd Nat.repr_ne_empty (repr_cleanStart n) (repr_cleanEnd n)

/-- A padded number takes the field, or as many bytes as it has digits when they are more. -/
theorem length_padStart_repr_eq_max (width : Nat) :
    (utf8Bytes (padStart width n.repr)).length = max width n.repr.length := by
  rw [length_utf8Bytes_ascii, padStart, String.toList_ofList, List.length_append, List.length_replicate,
    String.length_toList]
  · omega
  · intro c hc
    rcases mem_padStart hc with rfl | hc
    · decide
    · exact Nat.lt_of_le_of_lt (digit_toNat (digits_repr n c hc)).2 (by decide)

theorem length_padEnd_repr_eq_max (width : Nat) :
    (utf8Bytes (padEnd width n.repr)).length = max width n.repr.length := by
  rw [length_utf8Bytes_ascii, padEnd, String.toList_ofList, List.length_append, List.length_replicate,
    String.length_toList]
  · omega
  · intro c hc
    rcases mem_padEnd hc with rfl | hc
    · decide
    · exact Nat.lt_of_le_of_lt (digit_toNat (digits_repr n c hc)).2 (by decide)

/-- A padded number in a field it fits is a field of exactly that many bytes. -/
theorem length_padStart_repr {width : Nat} (hw : 0 < width) (h : n < 10 ^ width) :
    (utf8Bytes (padStart width n.repr)).length = width := by
  rw [length_padStart_repr_eq_max, Nat.max_eq_left ((Nat.length_repr_le_iff hw).2 h)]

theorem length_padEnd_repr {width : Nat} (hw : 0 < width) (h : n < 10 ^ width) :
    (utf8Bytes (padEnd width n.repr)).length = width := by
  rw [length_padEnd_repr_eq_max, Nat.max_eq_left ((Nat.length_repr_le_iff hw).2 h)]

/-- No byte of a padded number is below the space. -/
theorem space_le_of_mem_padStart_repr {width : Nat} {b : UInt8} (h : b ∈ utf8Bytes (padStart width n.repr)) :
    32 ≤ b.toNat := by
  obtain ⟨c, hc, hb⟩ := List.mem_flatMap.1 h
  have hrange : 32 ≤ c.toNat ∧ c.toNat < 128 := by
    rcases mem_padStart hc with rfl | hc
    · decide
    · obtain ⟨hlo, hhi⟩ := digit_toNat (digits_repr n c hc)
      omega
  rw [encodeChar_ascii hrange.2, List.mem_singleton] at hb
  rw [hb, UInt8.toNat_ofNat']
  omega

end Padded

end Lib.Decimal
