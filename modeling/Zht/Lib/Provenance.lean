/-
Byte streams whose bytes remember where they come from: the frame they were written as part of, and
their place in it. The marks are read by statements about a program, never by the program.
-/
import Mathlib.Data.List.Basic

namespace Lib

/-- A byte with the frame it was written in and its place there. -/
structure Tagged (φ : Type) where
  frame : φ
  pos : Nat
  byte : UInt8
  deriving DecidableEq, Repr

/-- Bytes in the order they are read. -/
abbrev Stream (φ : Type) := List (Tagged φ)

namespace Stream

variable {φ : Type}

def bytes (s : Stream φ) : List UInt8 := s.map Tagged.byte

/-- The bytes of a frame, marked, from place `pos` on. -/
def markFrom (frame : φ) : Nat → List UInt8 → Stream φ
  | _, [] => []
  | pos, b :: bs => ⟨frame, pos, b⟩ :: markFrom frame (pos + 1) bs

/-- The bytes of a frame, marked. -/
def mark (frame : φ) (bs : List UInt8) : Stream φ := markFrom frame 0 bs

/-- The frame the bytes belong to: they start at its first byte, and none is of another frame. -/
def origin [DecidableEq φ] : Stream φ → Option φ
  | [] => none
  | t :: s => if t.pos = 0 ∧ ∀ u ∈ s, u.frame = t.frame then some t.frame else none

@[simp] theorem bytes_nil : bytes ([] : Stream φ) = [] := rfl

@[simp] theorem bytes_append (s t : Stream φ) : bytes (s ++ t) = s.bytes ++ t.bytes := List.map_append

@[simp] theorem length_bytes (s : Stream φ) : s.bytes.length = s.length := List.length_map ..

@[simp] theorem bytes_markFrom (frame : φ) (pos : Nat) (bs : List UInt8) : (markFrom frame pos bs).bytes = bs := by
  induction bs generalizing pos with
  | nil => rfl
  | cons b bs ih => exact congrArg (b :: ·) (ih (pos + 1))

@[simp] theorem bytes_mark (frame : φ) (bs : List UInt8) : (mark frame bs).bytes = bs := bytes_markFrom frame 0 bs

@[simp] theorem length_mark (frame : φ) (bs : List UInt8) : (mark frame bs).length = bs.length := by
  rw [← length_bytes, bytes_mark]

theorem mem_markFrom {frame : φ} {pos : Nat} {bs : List UInt8} {t : Tagged φ} (h : t ∈ markFrom frame pos bs) :
    t.frame = frame ∧ pos ≤ t.pos := by
  induction bs generalizing pos with
  | nil => cases h
  | cons b bs ih =>
    rcases List.mem_cons.1 h with rfl | h
    · exact ⟨rfl, Nat.le_refl _⟩
    · exact ⟨(ih h).1, Nat.le_of_succ_le (ih h).2⟩

theorem frame_of_mem_mark {frame : φ} {bs : List UInt8} {t : Tagged φ} (h : t ∈ mark frame bs) : t.frame = frame :=
  (mem_markFrom h).1

section Origin

variable [DecidableEq φ]

/-- What starts a marked frame, and is not empty, belongs to it. -/
theorem origin_of_append_eq_mark {frame : φ} {bs : List UInt8} {s rest : Stream φ} (hne : s ≠ [])
    (h : s ++ rest = mark frame bs) : s.origin = some frame := by
  cases s with
  | nil => exact absurd rfl hne
  | cons t s =>
    cases bs with
    | nil => cases h
    | cons b bs =>
      rw [mark, markFrom, List.cons_append, List.cons.injEq] at h
      obtain ⟨rfl, h⟩ := h
      have hall : ∀ u ∈ s, u.frame = frame := by
        intro u hu
        exact (mem_markFrom (h ▸ List.mem_append_left rest hu)).1
      rw [origin, if_pos ⟨rfl, hall⟩]

/-- Bytes that belong to a frame hold its first byte. -/
theorem first_mem_of_origin {frame : φ} {s : Stream φ} (h : s.origin = some frame) :
    ∃ t ∈ s, t.frame = frame ∧ t.pos = 0 := by
  cases s with
  | nil => cases h
  | cons t s =>
    rw [origin] at h
    split at h
    · next hc => exact ⟨t, List.mem_cons_self, Option.some.inj h, hc.1⟩
    · cases h

/-- How many times the first byte of a frame stands in a stream. -/
def firsts (frame : φ) (s : Stream φ) : Nat := s.countP fun t => t.frame = frame ∧ t.pos = 0

@[simp] theorem firsts_nil (frame : φ) : firsts frame ([] : Stream φ) = 0 := rfl

@[simp] theorem firsts_append (frame : φ) (s t : Stream φ) :
    firsts frame (s ++ t) = firsts frame s + firsts frame t := List.countP_append

theorem firsts_take_le (frame : φ) (s : Stream φ) (n : Nat) : firsts frame (s.take n) ≤ firsts frame s :=
  (List.take_sublist n s).countP_le

theorem firsts_eq_zero {frame : φ} {s : Stream φ} : firsts frame s = 0 ↔ ∀ t ∈ s, t.frame = frame → t.pos ≠ 0 := by
  simp [firsts, List.countP_eq_zero]

theorem firsts_pos_of_origin {frame : φ} {s : Stream φ} (h : s.origin = some frame) : 0 < firsts frame s := by
  obtain ⟨t, ht, hf⟩ := first_mem_of_origin h
  exact List.countP_pos_iff.2 ⟨t, ht, by simpa using hf⟩

/-- A marked frame has one first byte. -/
theorem firsts_mark_le (frame f : φ) (bs : List UInt8) : firsts f (mark frame bs) ≤ 1 := by
  cases bs with
  | nil => exact Nat.zero_le 1
  | cons b bs =>
    have htail : firsts f (markFrom frame 1 bs) = 0 :=
      firsts_eq_zero.2 fun t ht _ => Nat.ne_of_gt (mem_markFrom ht).2
    have hcons : mark frame (b :: bs) = [⟨frame, 0, b⟩] ++ markFrom frame 1 bs := rfl
    rw [hcons, firsts_append, htail]
    exact List.countP_le_length

end Origin

end Stream

end Lib
