/-
What an LRU cache holds, from the calls alone. A use of a key is an insert of it or a fetch or a
touch that finds it; as long as nothing is removed, the cache is the front of the list of every key
ever inserted, most recently used first (`Stacked`), so a key is there exactly when fewer than the
capacity of other keys were used since its last use.
-/
import Zht.Cache.Lru
import Zht.Lib.UseHistory

namespace Zht

open Lib Lib.Recency

section Uses

variable {κ υ : Type} [DecidableEq κ]

/-- The calls that take nothing away but by eviction. -/
def LruOp.Retains : LruOp κ υ → Prop
  | remove _ | clear => False
  | _ => True

/-- The key the call uses. -/
def LruOp.use (c : LruCache κ υ) : LruOp κ υ → Option κ
  | insert key _ | insertWithEviction key _ => some key
  | fetch key | touch key => if c.contains key then some key else none
  | _ => none

/-- The value the call gives the key. -/
def LruOp.written (k : κ) : LruOp κ υ → Option υ
  | insert key value | insertWithEviction key value => if k = key then some value else none
  | _ => none

/-- The uses of the calls, newest first. -/
def LruCache.uses (c : LruCache κ υ) : List (LruOp κ υ) → List κ
  | [] => []
  | op :: ops =>
    match op.exec c with
    | none => []
    | some (_, c') => c'.uses ops ++ (op.use c).toList

/-- The value of the last insert of the key. -/
def lastInsert (k : κ) (ops : List (LruOp κ υ)) : Option υ := ops.reverse.findSome? (LruOp.written k)

/-! ## Last inserts -/

theorem lastInsert_cons (k : κ) (op : LruOp κ υ) (ops : List (LruOp κ υ)) :
    lastInsert k (op :: ops) = (lastInsert k ops).or (op.written k) := by
  unfold lastInsert
  rw [List.reverse_cons, List.findSome?_append, List.findSome?_singleton]

theorem LruOp.isSome_written {k : κ} {op : LruOp κ υ} :
    (op.written k).isSome = true ↔ ∃ v, op = .insert k v ∨ op = .insertWithEviction k v := by
  cases op with
  | insert q v | insertWithEviction q v =>
    by_cases hk : k = q
    · simp [written, hk]
    · simp [written, hk, Ne.symm hk]
  | _ => simp [written]

theorem isSome_lastInsert {k : κ} {ops : List (LruOp κ υ)} :
    (lastInsert k ops).isSome = true ↔ ∃ v, .insert k v ∈ ops ∨ .insertWithEviction k v ∈ ops := by
  unfold lastInsert
  rw [List.isSome_findSome?, List.any_reverse, List.any_eq_true]
  constructor
  · rintro ⟨op, hop, hw⟩
    obtain ⟨v, rfl | rfl⟩ := LruOp.isSome_written.1 hw
    · exact ⟨v, .inl hop⟩
    · exact ⟨v, .inr hop⟩
  · rintro ⟨v, h | h⟩
    · exact ⟨_, h, LruOp.isSome_written.2 ⟨v, .inl rfl⟩⟩
    · exact ⟨_, h, LruOp.isSome_written.2 ⟨v, .inr rfl⟩⟩

/-! ## The front of the list -/

/-- A cache that holds the front of an unbounded recency list, whose keys are the used ones. -/
structure Stacked (c : LruCache κ υ) (l : List (κ × υ)) (us : List κ) : Prop where
  front : Refines c (l.take c.maxSize)
  keys : keys l = byRecency us

namespace Stacked

variable {c : LruCache κ υ} {l : List (κ × υ)} {us : List κ}

theorem nodup (h : Stacked c l us) : (Recency.keys l).Nodup := h.keys ▸ nodup_byRecency us

/-- The key in front of the list. -/
theorem push (h : Stacked c l us) {c' : LruCache κ υ} {k : κ} {v : υ} (hm : c'.maxSize = c.maxSize)
    (hr : Refines c' ((Recency.push k v l).take c.maxSize)) : Stacked c' (Recency.push k v l) (k :: us) := by
  constructor
  · rw [hm]
    exact hr
  · rw [keys_push, h.keys, byRecency]

theorem contains_eq (h : Stacked c l us) (k : κ) : c.contains k = ((l.take c.maxSize).lookup k).isSome := by
  rw [LruCache.contains, ← h.front.coupled.lookup, Option.isSome_map]

/-- A fetch or a touch: a miss changes nothing, and a hit puts the key in front with the value it has. -/
theorem hit_cases (h : Stacked c l us) (k : κ) :
    ((if c.contains k then some k else none) = none ∧ promote k (l.take c.maxSize) = l.take c.maxSize) ∨
      ∃ v, (if c.contains k then some k else none) = some k ∧
        promote k (l.take c.maxSize) = (Recency.push k v l).take c.maxSize ∧
        ∀ q, (Recency.push k v l).lookup q = l.lookup q := by
  rw [h.contains_eq]
  cases hk : (l.take c.maxSize).lookup k with
  | none => exact .inl ⟨rfl, by rw [promote, hk]⟩
  | some v => exact .inr ⟨v, rfl, promote_take h.nodup hk, lookup_push_of_lookup (lookup_take hk)⟩

/-- What a call does to the front: nothing but put the key it uses before the others. -/
theorem reference_eq (h : Stacked c l us) {op : LruOp κ υ} (hop : op.Retains) :
    (op.use c = none ∧ (op.reference c.maxSize (l.take c.maxSize)).2 = l.take c.maxSize ∧ ∀ k, op.written k = none) ∨
      ∃ k v, op.use c = some k ∧ (op.reference c.maxSize (l.take c.maxSize)).2 = (Recency.push k v l).take c.maxSize ∧
        ∀ q, (Recency.push k v l).lookup q = (op.written q).or (l.lookup q) := by
  have hinsert : ∀ k v, (Recency.push k v (l.take c.maxSize)).take c.maxSize = (Recency.push k v l).take c.maxSize :=
    fun k v => take_push h.nodup k v c.maxSize
  have hwritten : ∀ k v q, (Recency.push k v l).lookup q = (if q = k then some v else none).or (l.lookup q) := by
    intro k v q
    rw [lookup_push]
    by_cases hq : q = k
    · rw [if_pos hq, if_pos hq, Option.some_or]
    · rw [if_neg hq, if_neg hq, Option.none_or]
  cases op with
  | insert k v => exact .inr ⟨k, v, rfl, hinsert k v, hwritten k v⟩
  | insertWithEviction k v => exact .inr ⟨k, v, rfl, hinsert k v, hwritten k v⟩
  | fetch k | touch k =>
    rcases h.hit_cases k with ⟨hu, hp⟩ | ⟨v, hu, hp, hl⟩
    · exact .inl ⟨hu, hp, fun _ => rfl⟩
    · exact .inr ⟨k, v, hu, hp, hl⟩
  | contains k => exact .inl ⟨rfl, rfl, fun _ => rfl⟩
  | remove k => exact hop.elim
  | clear => exact hop.elim

/-- One call returns, and the cache holds the front of the list with the used key before the others. -/
theorem exec (h : Stacked c l us) {op : LruOp κ υ} (hop : op.Retains) :
    ∃ a c' l', op.exec c = some (a, c') ∧ c'.maxSize = c.maxSize ∧ Stacked c' l' ((op.use c).toList ++ us) ∧
      ∀ k, l'.lookup k = (op.written k).or (l.lookup k) := by
  obtain ⟨c', he, hm, hr⟩ := h.front.exec op
  rcases h.reference_eq hop with ⟨hu, hl, hw⟩ | ⟨k, v, hu, hl, hw⟩
  · rw [hl] at hr
    refine ⟨_, c', l, he, hm, ?_, fun k => by rw [hw, Option.none_or]⟩
    rw [hu]
    exact ⟨hm ▸ hr, h.keys⟩
  · rw [hl] at hr
    refine ⟨_, c', Recency.push k v l, he, hm, ?_, hw⟩
    rw [hu]
    exact h.push hm hr

/-- A run returns, and the cache holds the front of the list of everything used. -/
theorem run (h : Stacked c l us) {ops : List (LruOp κ υ)} (hops : ∀ op ∈ ops, op.Retains) :
    ∃ as c' l', Machine.tryRun LruOp.exec c ops = some (as, c') ∧ c'.maxSize = c.maxSize ∧
      Stacked c' l' (c.uses ops ++ us) ∧ ∀ k, l'.lookup k = (lastInsert k ops).or (l.lookup k) := by
  induction ops generalizing c l us with
  | nil => exact ⟨[], c, l, rfl, rfl, h, fun _ => rfl⟩
  | cons op ops ih =>
    obtain ⟨a, c₁, l₁, he, hm₁, h₁, hl₁⟩ := h.exec (hops op List.mem_cons_self)
    obtain ⟨as, c₂, l₂, hrun, hm₂, h₂, hl₂⟩ := ih h₁ fun o ho => hops o (List.mem_cons_of_mem _ ho)
    refine ⟨a :: as, c₂, l₂, ?_, hm₂.trans hm₁, ?_, fun k => ?_⟩
    · simp only [Machine.tryRun, he, hrun]
      rfl
    · simp only [LruCache.uses, he]
      rwa [List.append_assoc]
    · rw [hl₂, hl₁, lastInsert_cons, Option.or_assoc]

/-- A key is there when its distance is below the capacity. -/
theorem contains_iff (h : Stacked c l us) (k : κ) :
    c.contains k = true ↔ (l.lookup k).isSome ∧ distance k us < c.maxSize := by
  have hmem : ∀ {l : List (κ × υ)}, (l.lookup k).isSome = true ↔ k ∈ Recency.keys l := by
    intro l
    rw [Option.isSome_iff_ne_none, ne_eq, lookup_eq_none_iff, not_not]
  rw [h.contains_eq, hmem, hmem, keys_take, h.keys, mem_take_byRecency, mem_byRecency]

theorem fetch_eq (h : Stacked c l us) {k : κ} (hk : c.contains k = true) : (c.fetch k).1 = l.lookup k := by
  rw [h.contains_eq] at hk
  obtain ⟨v, hv⟩ := Option.isSome_iff_exists.1 hk
  rw [lookup_take hv]
  unfold LruCache.fetch
  rcases h.front.coupled.lookup_cases k with ⟨-, hl, -⟩ | ⟨w, n, hm, hl, -⟩
  · rw [hl] at hv
    cases hv
  · rw [hm, ← hv, hl]

end Stacked

/-- After any calls that remove nothing, a key is in the cache exactly when it was inserted and fewer
than the capacity of other keys were used since its last use; `fetch` then returns the value of its
last insert. -/
theorem contains_iff_distance (capacity : Nat) (hc : 0 < capacity) (ops : List (LruOp κ υ))
    (hops : ∀ op ∈ ops, op.Retains) :
    ∃ as c, Machine.tryRun LruOp.exec (LruCache.new capacity hc) ops = some (as, c) ∧ ∀ k,
      (c.contains k = true ↔
        (∃ v, .insert k v ∈ ops ∨ .insertWithEviction k v ∈ ops) ∧
          distance k ((LruCache.new capacity hc).uses ops) < capacity) ∧
      (c.contains k = true → (c.fetch k).1 = lastInsert k ops) := by
  have hfresh : Stacked (LruCache.new capacity hc : LruCache κ υ) [] [] := by
    refine ⟨?_, rfl⟩
    rw [List.take_nil]
    exact ⟨Coupled.empty, Nat.zero_le _⟩
  obtain ⟨as, c, l, hrun, hm, h, hl⟩ := hfresh.run hops
  have hlast : ∀ k, l.lookup k = lastInsert k ops := by
    intro k
    rw [hl, List.lookup_nil, Option.or_none]
  refine ⟨as, c, hrun, fun k => ⟨?_, fun hk => ?_⟩⟩
  · rw [h.contains_iff, hlast, isSome_lastInsert, hm, List.append_nil]
    rfl
  · rw [h.fetch_eq hk, hlast]

end Uses

/-- Capacity two: `a` was used again after `b`, so `c` puts `b` out, and a fetch of `b` is no use. -/
theorem contains_iff_distance_two :
    ∃ as c, Machine.tryRun LruOp.exec (LruCache.new 2 (by decide) : LruCache String String)
        [.insert "a" "1", .insert "b" "2", .touch "a", .insertWithEviction "c" "3", .fetch "b"] = some (as, c) ∧
      c.contains "a" = true ∧ (c.fetch "a").1 = some "1" ∧ c.contains "b" = false := by
  obtain ⟨as, c, hrun, hk⟩ := contains_iff_distance 2 (by decide)
    [.insert "a" "1", .insert "b" "2", .touch "a", .insertWithEviction "c" "3", .fetch "b"]
    (by simp [LruOp.Retains])
  have huses : (LruCache.new 2 (by decide) : LruCache String String).uses
      [.insert "a" "1", .insert "b" "2", .touch "a", .insertWithEviction "c" "3", .fetch "b"] = ["c", "a", "b", "a"] := by
    decide
  rw [huses] at hk
  have ha : c.contains "a" = true := (hk "a").1.2 ⟨⟨"1", by simp⟩, by decide⟩
  refine ⟨as, c, hrun, ha, (hk "a").2 ha, ?_⟩
  rw [← Bool.not_eq_true, (hk "b").1]
  rintro ⟨-, hd⟩
  exact absurd hd (by decide)

end Zht
