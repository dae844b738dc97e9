/-
Histories of uses, newest first. `byRecency` lists each used key once, most recent first, and the
distance of a key is the number of other keys used since its last use: a key stands at its distance
in the recency list (`idxOf_byRecency`), so the first `c` places hold the used keys at a distance
below `c`. A bounded recency list is the front of the unbounded one (`take_push`, `promote_take`).
-/
import Zht.Lib.Recency
import Mathlib.Data.Finset.Card

namespace Lib.Recency

variable {κ υ : Type} [DecidableEq κ]

/-- Every used key once, most recent first. -/
def byRecency : List κ → List κ
  | [] => []
  | k :: us => k :: (byRecency us).filter (· ≠ k)

/-- How many other keys were used since the last use of the key. -/
def distance (k : κ) (us : List κ) : Nat := (us.takeWhile (· ≠ k)).toFinset.card

/-! ## The recency list -/

theorem mem_byRecency {k : κ} {us : List κ} : k ∈ byRecency us ↔ k ∈ us := by
  induction us with
  | nil => rfl
  | cons q us ih =>
    rw [byRecency, List.mem_cons, List.mem_cons, List.mem_filter, ih]
    by_cases hk : k = q
    · simp [hk]
    · simp [hk]

theorem nodup_byRecency (us : List κ) : (byRecency us).Nodup := by
  induction us with
  | nil => exact List.nodup_nil
  | cons q us ih =>
    refine List.nodup_cons.2 ⟨?_, ih.filter _⟩
    rw [List.mem_filter]
    simp

/-- The keys in front of a key are those used since. -/
theorem mem_takeWhile_byRecency {k q : κ} {us : List κ} :
    q ∈ (byRecency us).takeWhile (· ≠ k) ↔ q ∈ us.takeWhile (· ≠ k) := by
  induction us with
  | nil => rfl
  | cons r us ih =>
    rw [byRecency]
    by_cases hr : r = k
    · subst hr
      rw [List.takeWhile_cons_of_neg (by simp), List.takeWhile_cons_of_neg (by simp)]
    · rw [List.takeWhile_cons_of_pos (by simpa using hr), List.takeWhile_cons_of_pos (by simpa using hr),
        List.takeWhile_filter]
      -- the filter drops `r` alone, which does not stop the walk to `k`
      have hwalk : (fun a => !decide (a ≠ r) || decide (a ≠ k)) = fun a => decide (a ≠ k) := by
        funext a
        by_cases ha : a = r
        · subst ha
          simp [hr]
        · simp [ha]
      rw [hwalk, List.mem_cons, List.mem_cons, List.mem_filter, ih]
      by_cases hq : q = r
      · simp [hq]
      · simp [hq]

omit [DecidableEq κ] in
theorem length_takeWhile_eq_findIdx (p : κ → Bool) (l : List κ) :
    (l.takeWhile p).length = l.findIdx (fun a => !p a) := by
  rw [List.takeWhile_eq_take_findIdx_not, List.length_take, Nat.min_eq_left List.findIdx_le_length]

/-- A key's place in the recency list is its distance. -/
theorem idxOf_byRecency (k : κ) (us : List κ) : (byRecency us).idxOf k = distance k us := by
  have hset : (us.takeWhile (· ≠ k)).toFinset = ((byRecency us).takeWhile (· ≠ k)).toFinset := by
    ext q
    rw [List.mem_toFinset, List.mem_toFinset, mem_takeWhile_byRecency]
  have hnodup : ((byRecency us).takeWhile (· ≠ k)).Nodup := (nodup_byRecency us).sublist (List.takeWhile_sublist _)
  rw [distance, hset, List.toFinset_card_of_nodup hnodup, length_takeWhile_eq_findIdx, List.idxOf]
  congr 1
  funext a
  by_cases ha : a = k
  · simp [ha]
  · simp [ha]

/-- The first places hold the used keys at a smaller distance. -/
theorem mem_take_byRecency {c : Nat} {k : κ} {us : List κ} :
    k ∈ (byRecency us).take c ↔ k ∈ us ∧ distance k us < c := by
  constructor
  · intro h
    have hk := List.mem_of_mem_take h
    rw [List.mem_take_iff_idxOf_lt hk, idxOf_byRecency] at h
    exact ⟨mem_byRecency.1 hk, h⟩
  · rintro ⟨hk, hd⟩
    rw [List.mem_take_iff_idxOf_lt (mem_byRecency.2 hk), idxOf_byRecency]
    exact hd

/-! ## Bounded lists -/

theorem lookup_take {c : Nat} {k : κ} {v : υ} {l : List (κ × υ)} (h : (l.take c).lookup k = some v) :
    l.lookup k = some v := by
  have hsplit : (l.take c ++ l.drop c).lookup k = some v := by
    rw [List.lookup_append, h]
    rfl
  rwa [List.take_append_drop] at hsplit

/-- One place more is enough to lose one key. -/
theorem take_delete {l : List (κ × υ)} (h : (keys l).Nodup) (k : κ) (c : Nat) :
    (delete k (l.take (c + 1))).take c = (delete k l).take c := by
  unfold delete
  induction l generalizing c with
  | nil => rfl
  | cons p l ih =>
    have hnd := List.nodup_cons.1 h
    rw [List.take_succ_cons]
    by_cases hp : p.1 = k
    · -- the rest has no other pair of the key
      have hrest : ∀ q ∈ l, q.1 ≠ k := fun q hq he => hnd.1 (hp.trans he.symm ▸ mem_keys.2 ⟨q.2, hq⟩)
      rw [List.filter_cons_of_neg (by simpa using hp), List.filter_cons_of_neg (by simpa using hp),
        List.filter_eq_self.2 fun q hq => by simpa using hrest q (List.mem_of_mem_take hq),
        List.filter_eq_self.2 fun q hq => by simpa using hrest q hq, List.take_take, Nat.min_self]
    · rw [List.filter_cons_of_pos (by simpa using hp), List.filter_cons_of_pos (by simpa using hp)]
      cases c with
      | zero => rfl
      | succ c => rw [List.take_succ_cons, List.take_succ_cons, ih hnd.2]

theorem take_push {l : List (κ × υ)} (h : (keys l).Nodup) (k : κ) (v : υ) (c : Nat) :
    (push k v (l.take c)).take c = (push k v l).take c := by
  cases c with
  | zero => rfl
  | succ c => rw [push, push, List.take_succ_cons, List.take_succ_cons, take_delete h]

/-- A hit in the front of the list is a push, and changes no value. -/
theorem promote_take {l : List (κ × υ)} (h : (keys l).Nodup) {k : κ} {v : υ} {c : Nat}
    (hk : (l.take c).lookup k = some v) : promote k (l.take c) = (push k v l).take c := by
  have hnd : (keys (l.take c)).Nodup := h.sublist ((List.take_sublist c l).map _)
  have hlen : (promote k (l.take c)).length ≤ c := by
    rw [length_promote hnd]
    exact List.length_take_le c l
  rw [← take_push h, ← List.take_of_length_le hlen, promote, hk]

theorem lookup_push (k q : κ) (v : υ) (l : List (κ × υ)) :
    (push k v l).lookup q = if q = k then some v else l.lookup q := by
  unfold push
  by_cases hq : q = k
  · subst hq
    rw [if_pos rfl, List.lookup_cons_self]
  · rw [if_neg hq, lookup_cons_ne hq, lookup_delete_ne hq]

/-- A key pushed with the value it has. -/
theorem lookup_push_of_lookup {k : κ} {v : υ} {l : List (κ × υ)} (h : l.lookup k = some v) (q : κ) :
    (push k v l).lookup q = l.lookup q := by
  rw [lookup_push]
  by_cases hq : q = k
  · rw [if_pos hq, hq, h]
  · rw [if_neg hq]

theorem keys_push (k : κ) (v : υ) (l : List (κ × υ)) : keys (push k v l) = k :: (keys l).filter (· ≠ k) := by
  show k :: keys (delete k l) = _
  rw [keys_delete]

omit [DecidableEq κ] in
theorem keys_take (c : Nat) (l : List (κ × υ)) : keys (l.take c) = (keys l).take c := List.map_take

end Lib.Recency
