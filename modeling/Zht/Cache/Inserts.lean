/-
The two inserts. `insert` evicts in a loop, `insert_with_eviction` once. The entry put in front leaves
the map at most one over the capacity, and over it only if the key is new and the cache was full: so
the loop runs at most once, and takes the entry the other one takes.
-/
import Zht.Cache.Lru

namespace Zht

open Lib Lib.Recency

section Inserts

variable {κ υ : Type} [DecidableEq κ]

/-! ## The rounds of the loop -/

namespace LruInner

/-- How often the body of the eviction loop runs; `none` when it never stops. -/
def evictRuns (maxSize : Nat) (map : HashMap κ (υ × Nat)) : List κ → Option Nat
  | [] => if map.keys.card ≤ maxSize then some 0 else none
  | back :: rest =>
    if map.keys.card ≤ maxSize then some 0 else (evictRuns maxSize (map.erase back) rest).map (· + 1)

/-- The loop takes as many keys off the back as it runs rounds. -/
theorem evictLoop_eq (maxSize : Nat) :
    ∀ (backs : List κ) (map : HashMap κ (υ × Nat)),
      evictLoop maxSize map backs = (evictRuns maxSize map backs).map fun runs =>
        { map := (backs.take runs).foldl (fun map key => map.erase key) map, order := (backs.drop runs).reverse }
  | [], map => by
    unfold evictLoop evictRuns
    split <;> rfl
  | back :: rest, map => by
    rw [evictLoop, evictRuns]
    split
    · rfl
    · rw [evictLoop_eq maxSize rest, Option.map_map]
      rfl

theorem evictRuns_of_le {maxSize : Nat} {map : HashMap κ (υ × Nat)} (h : map.keys.card ≤ maxSize) (backs : List κ) :
    evictRuns maxSize map backs = some 0 := by
  cases backs <;> rw [evictRuns, if_pos h]

theorem evictRuns_cons {maxSize : Nat} {map : HashMap κ (υ × Nat)} (h : ¬ map.keys.card ≤ maxSize) (back : κ)
    (rest : List κ) :
    evictRuns maxSize map (back :: rest) = (evictRuns maxSize (map.erase back) rest).map (· + 1) := by
  rw [evictRuns, if_neg h]

theorem lookup_place (i : LruInner κ υ) (k : κ) (v : υ) : (i.place k v).map.lookup k = some (v, 0) := by
  unfold place
  exact Finmap.lookup_insert _

end LruInner

namespace LruCache

/-- The rounds of the loop of `insert`. -/
def insertRuns (c : LruCache κ υ) (key : κ) (value : υ) : Option Nat :=
  LruInner.evictRuns c.maxSize (c.inner.place key value).map (c.inner.place key value).order.reverse

theorem insert_eq (c : LruCache κ υ) (k : κ) (v : υ) :
    c.insert k v = (c.insertRuns k v).map fun runs =>
      { c with
        inner :=
          { map := ((c.inner.place k v).order.reverse.take runs).foldl (fun map key => map.erase key)
              (c.inner.place k v).map
            order := ((c.inner.place k v).order.reverse.drop runs).reverse } } := by
  unfold insert insertRuns
  simp only
  rw [LruInner.evictLoop_eq, Option.map_map]
  rfl

end LruCache

/-! ## One call -/

namespace Refines

variable {c : LruCache κ υ} {l : List (κ × υ)}

theorem contains_iff (h : Refines c l) (k : κ) : c.contains k = true ↔ k ∈ keys l := by
  rw [LruCache.contains, Finmap.lookup_isSome, h.coupled.mem_map]

theorem len_eq (h : Refines c l) : c.len = l.length := h.coupled.card

/-- Behind the entry put in front there is one too many exactly if the key is new and the cache full. -/
theorem len_place_le_iff (h : Refines c l) (k : κ) (v : υ) :
    (c.inner.place k v).len ≤ c.maxSize ↔ (k ∈ keys l ∨ l.length ≠ c.maxSize) := by
  have hbound := h.bound
  rw [LruInner.len, (h.coupled.place k v).card, push, List.length_cons]
  by_cases hk : k ∈ keys l
  · have hdelete := length_delete_of_mem h.coupled.nodup hk
    simp only [hk, true_or, iff_true]
    omega
  · rw [delete_of_not_mem hk]
    simp only [hk, false_or]
    omega

/-- No eviction. -/
theorem insert_fits (h : Refines c l) {k : κ} (hfits : k ∈ keys l ∨ l.length ≠ c.maxSize) (v : υ) :
    c.insertRuns k v = some 0 ∧ c.insert k v = some { c with inner := c.inner.place k v } ∧
      c.insertWithEviction k v = (none, { c with inner := c.inner.place k v }) := by
  have hlen := (h.len_place_le_iff k v).2 hfits
  have hruns : c.insertRuns k v = some 0 := LruInner.evictRuns_of_le hlen _
  refine ⟨hruns, ?_, ?_⟩
  · rw [LruCache.insert_eq, hruns]
    simp
  · unfold LruCache.insertWithEviction
    exact if_neg (Nat.not_lt.2 hlen)

/-- One eviction: the last key goes, and its value is returned. -/
theorem insert_full {init : List (κ × υ)} {back k : κ} {w : υ} (h : Refines c (init ++ [(back, w)]))
    (hk : k ∉ keys (init ++ [(back, w)])) (hfull : (init ++ [(back, w)]).length = c.maxSize) (v : υ) :
    c.insertRuns k v = some 1 ∧
      c.insert k v = some { c with
        inner := ⟨(c.inner.place k v).map.erase back, (c.inner.place k v).order.dropLast⟩ } ∧
      c.insertWithEviction k v = (some w, { c with
        inner := ⟨(c.inner.place k v).map.erase back, (c.inner.place k v).order.dropLast⟩ }) := by
  have hplace := h.coupled.place k v
  rw [push, delete_of_not_mem hk, ← List.cons_append] at hplace
  have horder : (c.inner.place k v).order = keys ((k, v) :: init) ++ [back] := hplace.order.trans List.map_append
  have hover : ¬ (c.inner.place k v).len ≤ c.maxSize := by
    rw [LruInner.len, hplace.card, List.cons_append, List.length_cons, hfull]
    omega
  have hpop : ((c.inner.place k v).map.erase back).keys.card ≤ c.maxSize := by
    rw [hplace.popBack.card, ← hfull]
    simp
  have hvalue : ((c.inner.place k v).map.lookup back).map Prod.fst = some w := by
    rw [hplace.lookup, lookup_concat hplace.nodup]
  have hruns : c.insertRuns k v = some 1 := by
    rw [LruCache.insertRuns, horder, List.reverse_append, List.reverse_singleton, List.singleton_append,
      LruInner.evictRuns_cons hover, LruInner.evictRuns_of_le hpop]
    rfl
  refine ⟨hruns, ?_, ?_⟩
  · rw [LruCache.insert_eq, hruns, horder]
    simp
  · unfold LruCache.insertWithEviction
    simp only
    rw [if_pos (Nat.not_le.1 hover), horder, List.getLast?_concat]
    simp only [hvalue]

end Refines

/-! ## Every reachable cache -/

/-- After any calls on a fresh cache, the two inserts leave the same cache; the loop runs at most once;
a value is returned exactly if the key is new and the cache full, and then it is the one of the least
recently used key; and the key put in is there afterwards, with its value. -/
theorem inserts_agree (capacity : Nat) (hc : 0 < capacity) (ops : List (LruOp κ υ)) :
    ∃ as c, Machine.tryRun LruOp.exec (LruCache.new capacity hc) ops = some (as, c) ∧ ∀ k v,
      c.insert k v = some (c.insertWithEviction k v).2 ∧
      (∃ runs ≤ 1, c.insertRuns k v = some runs) ∧
      (∀ w, (c.insertWithEviction k v).1 = some w ↔
        c.contains k = false ∧ c.len = capacity ∧ ∃ q, c.keysLru.getLast? = some q ∧ (c.fetch q).1 = some w) ∧
      ((c.insertWithEviction k v).2.fetch k).1 = some v := by
  obtain ⟨c, hrun, hm, h⟩ := Refines.fresh capacity hc ops
  refine ⟨_, c, hrun, fun k v => ?_⟩
  generalize Machine.after (LruOp.reference capacity) [] ops = l at h
  have hplaced := LruInner.lookup_place c.inner k v
  by_cases hfits : k ∈ keys l ∨ l.length ≠ c.maxSize
  · obtain ⟨hruns, hinsert, hevict⟩ := h.insert_fits hfits v
    refine ⟨by rw [hinsert, hevict], ⟨0, Nat.zero_le 1, hruns⟩, fun w => ?_, ?_⟩
    · rw [hevict]
      refine iff_of_false (by simp) ?_
      rintro ⟨hnew, hlen, -⟩
      rw [← Bool.not_eq_true, h.contains_iff] at hnew
      rw [h.len_eq, ← hm] at hlen
      exact hfits.elim hnew fun hne => hne hlen
    · rw [hevict, LruCache.fetch_fst]
      simp only [hplaced, Option.map_some]
  · rw [not_or, not_not] at hfits
    obtain ⟨hk, hfull⟩ := hfits
    obtain ⟨init, ⟨back, value⟩, rfl⟩ : ∃ init p, l = init ++ [p] := by
      have hne : l ≠ [] := by
        rintro rfl
        exact absurd hfull (Nat.ne_of_lt c.pos)
      exact ⟨l.dropLast, l.getLast hne, (List.dropLast_concat_getLast hne).symm⟩
    obtain ⟨hruns, hinsert, hevict⟩ := h.insert_full hk hfull v
    have hlast : c.keysLru.getLast? = some back := by
      have horder : c.keysLru = keys init ++ [back] := h.coupled.order.trans List.map_append
      rw [horder, List.getLast?_concat]
    have hvalue : (c.fetch back).1 = some value := by
      rw [LruCache.fetch_fst, h.coupled.lookup, lookup_concat h.coupled.nodup]
    have hback : k ≠ back := by
      rintro rfl
      exact hk (mem_keys.2 ⟨value, List.mem_append_right _ List.mem_cons_self⟩)
    refine ⟨by rw [hinsert, hevict], ⟨1, Nat.le_refl 1, hruns⟩, fun w => ?_, ?_⟩
    · rw [hevict, hlast]
      have hnew : c.contains k = false := by
        rw [← Bool.not_eq_true, h.contains_iff]
        exact hk
      simp [hnew, h.len_eq, hfull, hm, hvalue]
    · rw [hevict, LruCache.fetch_fst]
      simp only [Finmap.lookup_erase_ne hback, hplaced, Option.map_some]

end Inserts

/-- Capacity one: the other entry goes, and its value is returned. -/
theorem inserts_agree_one :
    ∃ as c, Machine.tryRun LruOp.exec (LruCache.new 1 (by decide) : LruCache String String) [.insert "a" "1"] =
        some (as, c) ∧ c.insert "b" "2" = some (c.insertWithEviction "b" "2").2 := by
  obtain ⟨as, c, hrun, hk⟩ := inserts_agree (κ := String) (υ := String) 1 (by decide) [.insert "a" "1"]
  exact ⟨as, c, hrun, (hk "b" "2").1⟩

end Zht
