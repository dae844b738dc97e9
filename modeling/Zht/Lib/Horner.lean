/-
Polynomials by Horner's rule: a fold over the coefficients, highest first. What a fold was at before
moves up by the number of the coefficients that come after (`foldl_horner`), which gives the rule for
lists put together, the sum of the powers, and the bound on a number with digits in some base.
-/
import Mathlib.Algebra.BigOperators.Fin
import Mathlib.Tactic.Ring

namespace Lib.Horner

variable {R : Type} [CommSemiring R]

/-- The polynomial with these coefficients, at `x`. -/
def horner (x : R) (ds : List R) : R := ds.foldl (fun acc d => acc * x + d) 0

theorem foldl_horner (x : R) :
    ∀ (ds : List R) (acc : R), ds.foldl (fun acc d => acc * x + d) acc = acc * x ^ ds.length + horner x ds
  | [], acc => by simp [horner]
  | d :: ds, acc => by
    have hrest := foldl_horner x ds (acc * x + d)
    have hfirst := foldl_horner x ds (0 * x + d)
    rw [horner, List.foldl_cons, List.foldl_cons, hrest, hfirst, List.length_cons]
    ring

theorem horner_cons (x d : R) (ds : List R) : horner x (d :: ds) = d * x ^ ds.length + horner x ds := by
  rw [horner, List.foldl_cons, foldl_horner, zero_mul, zero_add]

theorem horner_append (x : R) (as bs : List R) : horner x (as ++ bs) = horner x as * x ^ bs.length + horner x bs := by
  rw [horner, List.foldl_append, foldl_horner]
  rfl

/-- The sum of the coefficients times their powers. -/
theorem horner_map_eq_sum {α : Type} (x : R) (f : α → R) :
    ∀ ds : List α, horner x (ds.map f) = ∑ i : Fin ds.length, f ds[i] * x ^ (ds.length - 1 - i)
  | [] => rfl
  | d :: ds => by
    rw [List.map_cons, horner_cons, horner_map_eq_sum x f ds, List.length_map]
    simp only [List.length_cons, Fin.sum_univ_succ]
    congr 1
    apply Finset.sum_congr rfl
    rintro i -
    have hexp : ds.length + 1 - 1 - (i.succ : Fin (ds.length + 1)).val = ds.length - 1 - i.val := by
      rw [Fin.val_succ]
      omega
    rw [hexp]
    rfl

/-- As many digits as there are stay below that power of the base. -/
theorem horner_lt {base : ℕ} : ∀ {ds : List ℕ}, (∀ d ∈ ds, d < base) → horner base ds < base ^ ds.length
  | [], _ => Nat.zero_lt_one
  | d :: ds, h => by
    have hd : d + 1 ≤ base := h d List.mem_cons_self
    have hds := horner_lt fun e he => h e (List.mem_cons_of_mem d he)
    calc horner base (d :: ds) = d * base ^ ds.length + horner base ds := horner_cons base d ds
      _ < d * base ^ ds.length + base ^ ds.length := Nat.add_lt_add_left hds _
      _ = (d + 1) * base ^ ds.length := (Nat.succ_mul _ _).symm
      _ ≤ base * base ^ ds.length := Nat.mul_le_mul_right _ hd
      _ = base ^ (d :: ds).length := by rw [List.length_cons, Nat.pow_succ, Nat.mul_comm]

end Lib.Horner
