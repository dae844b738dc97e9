/-
A list as a ring: the walk that visits the elements after a place, going around the end. A walk
shorter than the ring visits distinct elements and does not come back to where it started.
-/
import Mathlib.Data.List.Nodup
import Mathlib.Data.Nat.ModEq

namespace Lib.Ring

variable {α : Type}

/-- The next `n` elements after the place `start`. -/
def walk (l : List α) (start n : Nat) : List α :=
  (List.range' 1 n).filterMap fun offset => l[(start + offset) % l.length]?

/-- Two steps of one round are at different places. -/
theorem place_ne {len start a b : Nat} (hab : a < b) (hb : b < a + len) : (start + a) % len ≠ (start + b) % len := by
  intro h
  have hmod : a ≡ b [MOD len] := Nat.ModEq.add_left_cancel' start h
  have hdvd : len ∣ b - a := (Nat.modEq_iff_dvd' hab.le).1 hmod
  have hle := Nat.le_of_dvd (by omega) hdvd
  omega

/-- The elements of a walk are at the places of its steps. -/
theorem mem_walk {l : List α} {start n : Nat} {x : α} :
    x ∈ walk l start n ↔ ∃ offset, 1 ≤ offset ∧ offset ≤ n ∧ l[(start + offset) % l.length]? = some x := by
  unfold walk
  rw [List.mem_filterMap]
  constructor
  · rintro ⟨offset, ho, hx⟩
    rw [List.mem_range'_1] at ho
    exact ⟨offset, ho.1, by omega, hx⟩
  · rintro ⟨offset, h₁, h₂, hx⟩
    refine ⟨offset, ?_, hx⟩
    rw [List.mem_range'_1]
    omega

/-- Without repetitions, equal elements are at equal places. -/
theorem place_eq_of_getElem? {l : List α} (hnd : l.Nodup) {i j : Nat} {x : α} (hi : l[i]? = some x)
    (hj : l[j]? = some x) : i = j := by
  obtain ⟨hi', rfl⟩ := List.getElem?_eq_some_iff.1 hi
  obtain ⟨hj', he⟩ := List.getElem?_eq_some_iff.1 hj
  exact (hnd.getElem_inj_iff.1 he).symm

/-- A walk of at most one round visits distinct elements. -/
theorem nodup_walk {l : List α} (hnd : l.Nodup) {n : Nat} (hn : n ≤ l.length) (start : Nat) : (walk l start n).Nodup := by
  unfold walk
  rw [List.Nodup, List.pairwise_filterMap]
  have hsteps : (List.range' 1 n).Pairwise (· < ·) := List.pairwise_lt_range'
  apply List.Pairwise.imp_of_mem _ hsteps
  rintro a b ha hb hab x hx y hy rfl
  rw [List.mem_range'_1] at ha hb
  exact place_ne hab (by omega) (place_eq_of_getElem? hnd hx hy)

/-- A walk of less than a round does not reach its start. -/
theorem start_not_mem_walk {l : List α} (hnd : l.Nodup) {n : Nat} (hn : n < l.length) {start : Nat} {x : α}
    (hx : l[start % l.length]? = some x) : x ∉ walk l start n := by
  intro hmem
  obtain ⟨offset, h₁, h₂, hy⟩ := mem_walk.1 hmem
  have hplace : (start + 0) % l.length = (start + offset) % l.length := place_eq_of_getElem? hnd hx hy
  exact place_ne (by omega) (by omega) hplace

end Lib.Ring
