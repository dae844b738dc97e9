/-
`LruCache`: a map of the entries and a deque of the keys, front = most recently used. The two are
changed by separate steps of every operation; `Coupled` says what keeps them one thing, a recency
list. `lru_refines_reference` is the refinement of the reference list over whole runs, which also
shows that the eviction loop always ends.
-/
import Zht.Lib.HashMap
import Zht.Lib.Machine
import Zht.Lib.Recency

namespace Zht

open Lib Lib.Recency

section Cache

variable {κ υ : Type} [DecidableEq κ]

/-- Each key's value, with an index into the deque that nothing reads, and the access order. -/
structure LruInner (κ υ : Type) where
  map : HashMap κ (υ × Nat)
  order : List κ

/-- A cache; a capacity of zero is refused when it is made. -/
structure LruCache (κ υ : Type) where
  maxSize : Nat
  pos : 0 < maxSize
  inner : LruInner κ υ

namespace LruInner

/-- `map.len()`. -/
def len (i : LruInner κ υ) : Nat := i.map.keys.card

/-- The first occurrence of the key leaves the deque. -/
def removeOrder (i : LruInner κ υ) (key : κ) : LruInner κ υ := { i with order := i.order.erase key }

def touch (i : LruInner κ υ) (key : κ) : LruInner κ υ :=
  match i.map.lookup key with
  | none => i
  | some _ => { i with order := key :: (i.removeOrder key).order }

/-- The entry in front, whether or not the key was there: `insert` up to its eviction. -/
def place (i : LruInner κ υ) (key : κ) (value : υ) : LruInner κ υ :=
  let i := match i.map.lookup key with
    | some _ => i.removeOrder key
    | none => i
  { map := i.map.insert key (value, 0), order := key :: i.order }

/-- The eviction loop, over the deque from its back; `none` when it runs forever, which it does
once the deque is empty while the map is still too large. -/
def evictLoop (maxSize : Nat) (map : HashMap κ (υ × Nat)) : List κ → Option (LruInner κ υ)
  | [] => if map.keys.card ≤ maxSize then some { map, order := [] } else none
  | back :: rest =>
    if map.keys.card ≤ maxSize then some { map, order := (back :: rest).reverse }
    else evictLoop maxSize (map.erase back) rest

end LruInner

namespace LruCache

def new (maxSize : Nat) (h : 0 < maxSize) : LruCache κ υ := { maxSize, pos := h, inner := { map := ∅, order := [] } }

/-- `none` when the eviction loop never ends. -/
def insert (c : LruCache κ υ) (key : κ) (value : υ) : Option (LruCache κ υ) :=
  let inner := c.inner.place key value
  (LruInner.evictLoop c.maxSize inner.map inner.order.reverse).map fun inner => { c with inner }

def insertWithEviction (c : LruCache κ υ) (key : κ) (value : υ) : Option υ × LruCache κ υ :=
  let inner := c.inner.place key value
  -- one eviction, where `insert` has a loop
  if c.maxSize < inner.len then
    match inner.order.getLast? with
    | none => (none, { c with inner })
    | some evictedKey =>
      ((inner.map.lookup evictedKey).map Prod.fst,
        { c with inner := { map := inner.map.erase evictedKey, order := inner.order.dropLast } })
  else (none, { c with inner })

def fetch (c : LruCache κ υ) (key : κ) : Option υ × LruCache κ υ :=
  match c.inner.map.lookup key with
  | some (value, _) => (some value, { c with inner := c.inner.touch key })
  | none => (none, c)

theorem fetch_fst (c : LruCache κ υ) (k : κ) : (c.fetch k).1 = (c.inner.map.lookup k).map Prod.fst := by
  unfold fetch
  cases c.inner.map.lookup k <;> rfl

def contains (c : LruCache κ υ) (key : κ) : Bool := (c.inner.map.lookup key).isSome

def remove (c : LruCache κ υ) (key : κ) : Option υ × LruCache κ υ :=
  let inner := c.inner.removeOrder key
  ((inner.map.lookup key).map Prod.fst, { c with inner := { inner with map := inner.map.erase key } })

def touch (c : LruCache κ υ) (key : κ) : LruCache κ υ := { c with inner := c.inner.touch key }

def len (c : LruCache κ υ) : Nat := c.inner.len

def clear (c : LruCache κ υ) : LruCache κ υ := { c with inner := { map := ∅, order := [] } }

def keysLru (c : LruCache κ υ) : List κ := c.inner.order

end LruCache

/-! ## Calls -/

inductive LruOp (κ υ : Type)
  | insert (key : κ) (value : υ)
  | insertWithEviction (key : κ) (value : υ)
  | fetch (key : κ)
  | touch (key : κ)
  | contains (key : κ)
  | remove (key : κ)
  | clear

/-- What a call returns. -/
inductive LruAnswer (υ : Type)
  | unit
  | value (v : Option υ)
  | present (b : Bool)
  deriving DecidableEq, Repr

/-- One call; `none` when it never returns. -/
def LruOp.exec (c : LruCache κ υ) : LruOp κ υ → Option (LruAnswer υ × LruCache κ υ)
  | insert key value => (c.insert key value).map (.unit, ·)
  | insertWithEviction key value => some (Prod.map .value id (c.insertWithEviction key value))
  | fetch key => some (Prod.map .value id (c.fetch key))
  | touch key => some (.unit, c.touch key)
  | contains key => some (.present (c.contains key), c)
  | remove key => some (Prod.map .value id (c.remove key))
  | clear => some (.unit, c.clear)

/-! ## The reference -/

/-- The same call on the recency list of a cache of capacity `c`. -/
def LruOp.reference (c : Nat) (l : List (κ × υ)) : LruOp κ υ → LruAnswer υ × List (κ × υ)
  | insert key value => (.unit, (push key value l).take c)
  | insertWithEviction key value => (.value (((push key value l)[c]?).map Prod.snd), (push key value l).take c)
  | fetch key => (.value (l.lookup key), promote key l)
  | touch key => (.unit, promote key l)
  | contains key => (.present (l.lookup key).isSome, l)
  | remove key => (.value (l.lookup key), delete key l)
  | clear => (.unit, [])

/-! ## The coupling -/

/-- The deque and the map are the keys and the values of one recency list. -/
structure Coupled (i : LruInner κ υ) (l : List (κ × υ)) : Prop where
  order : i.order = keys l
  nodup : (keys l).Nodup
  lookup : ∀ k, (i.map.lookup k).map Prod.fst = l.lookup k

namespace Coupled

variable {i : LruInner κ υ} {l : List (κ × υ)}

theorem mem_map (h : Coupled i l) (k : κ) : k ∈ i.map ↔ k ∈ keys l := by
  rw [← Finmap.lookup_isSome, ← Option.isSome_map, h.lookup, Option.isSome_iff_ne_none, ne_eq, lookup_eq_none_iff,
    not_not]

/-- The size of the map is the length of the list. -/
theorem card (h : Coupled i l) : i.map.keys.card = l.length := by
  have hkeys : i.map.keys = (keys l).toFinset := by
    ext k
    rw [Finmap.mem_keys, h.mem_map, List.mem_toFinset]
  rw [hkeys, List.toFinset_card_of_nodup h.nodup, length_keys]

theorem empty : Coupled (⟨∅, []⟩ : LruInner κ υ) [] :=
  ⟨rfl, List.nodup_nil, fun k => by rw [Finmap.lookup_empty]; rfl⟩

/-- A key in neither of them, or in both. -/
theorem lookup_cases (h : Coupled i l) (k : κ) :
    (i.map.lookup k = none ∧ l.lookup k = none ∧ k ∉ keys l) ∨
      ∃ v n, i.map.lookup k = some (v, n) ∧ l.lookup k = some v ∧ k ∈ keys l := by
  have hk := h.lookup k
  cases hm : i.map.lookup k with
  | none =>
    rw [hm] at hk
    exact .inl ⟨rfl, hk.symm, lookup_eq_none_iff.1 hk.symm⟩
  | some p =>
    rw [hm] at hk
    exact .inr ⟨p.1, p.2, rfl, hk.symm, mem_of_lookup hk.symm⟩

theorem remove (h : Coupled i l) (k : κ) : Coupled { i.removeOrder k with map := i.map.erase k } (delete k l) := by
  refine ⟨?_, nodup_delete h.nodup k, fun q => ?_⟩
  · rw [keys_delete_erase h.nodup, ← h.order]
    rfl
  · by_cases hq : q = k
    · subst hq
      rw [Finmap.lookup_erase, lookup_delete_self]
      rfl
    · rw [Finmap.lookup_erase_ne hq, lookup_delete_ne hq, h.lookup]

/-- The key's old position goes, and the key is put in front with its value. -/
theorem front (h : Coupled i l) (k : κ) (v : υ) (n : Nat) :
    Coupled { map := i.map.insert k (v, n), order := k :: (i.removeOrder k).order } (push k v l) := by
  refine ⟨?_, nodup_push h.nodup k v, fun q => ?_⟩
  · show k :: i.order.erase k = k :: keys (delete k l)
    rw [keys_delete_erase h.nodup, h.order]
  · by_cases hq : q = k
    · subst hq
      rw [Finmap.lookup_insert, push, List.lookup_cons_self]
      rfl
    · rw [Finmap.lookup_insert_of_ne _ hq, push, lookup_cons_ne hq, lookup_delete_ne hq, h.lookup]

theorem place (h : Coupled i l) (k : κ) (v : υ) : Coupled (i.place k v) (push k v l) := by
  have hfront := h.front k v 0
  unfold LruInner.place
  rcases h.lookup_cases k with ⟨hm, -, hk⟩ | ⟨w, n, hm, -, -⟩
  · rw [hm]
    -- an absent key has no position to lose
    have : (i.removeOrder k).order = i.order := List.erase_of_not_mem (h.order ▸ hk)
    rwa [this] at hfront
  · rw [hm]
    exact hfront

theorem touch (h : Coupled i l) (k : κ) : Coupled (i.touch k) (promote k l) := by
  unfold LruInner.touch promote
  rcases h.lookup_cases k with ⟨hm, hl, -⟩ | ⟨v, n, hm, hl, -⟩
  · rw [hm, hl]
    exact h
  · rw [hm, hl]
    have hfront := h.front k v n
    -- only the deque moves: the map has the entry already
    rwa [HashMap.insert_eq_self.2 hm] at hfront

/-- The last key of the deque and its entry go together. -/
theorem popBack {k : κ} {v : υ} (h : Coupled i (l ++ [(k, v)])) : Coupled ⟨i.map.erase k, keys l⟩ l := by
  have hk : k ∉ keys l := not_mem_keys_of_concat h.nodup
  have hsub : (keys l).Sublist (keys (l ++ [(k, v)])) := (List.sublist_append_left l _).map Prod.fst
  refine ⟨rfl, h.nodup.sublist hsub, fun q => ?_⟩
  by_cases hq : q = k
  · subst hq
    rw [Finmap.lookup_erase, lookup_eq_none_iff.2 hk]
    rfl
  · rw [Finmap.lookup_erase_ne hq, h.lookup, List.lookup_append, lookup_cons_ne hq]
    simp

/-- The eviction loop ends, and leaves the first `c` pairs. -/
theorem evictLoop (c : Nat) {map : HashMap κ (υ × Nat)} (h : Coupled ⟨map, keys l⟩ l) :
    ∃ i', LruInner.evictLoop c map (keys l).reverse = some i' ∧ Coupled i' (l.take c) := by
  induction l using List.reverseRecOn generalizing map with
  | nil =>
    have hcard : map.keys.card ≤ c := by
      rw [h.card]
      exact Nat.zero_le c
    refine ⟨⟨map, []⟩, ?_, by rw [List.take_nil]; exact h⟩
    show (if map.keys.card ≤ c then _ else _) = _
    rw [if_pos hcard]
  | append_singleton l p ih =>
    obtain ⟨k, v⟩ := p
    have hkeys : (keys (l ++ [(k, v)])).reverse = k :: (keys l).reverse := by simp [keys]
    have hlen : (l ++ [(k, v)]).length = l.length + 1 := List.length_append
    rw [hkeys, LruInner.evictLoop]
    by_cases hcard : map.keys.card ≤ c
    · rw [if_pos hcard, ← hkeys, List.reverse_reverse]
      rw [h.card] at hcard
      exact ⟨_, rfl, by rw [List.take_of_length_le hcard]; exact h⟩
    · rw [if_neg hcard]
      rw [h.card, hlen] at hcard
      rw [List.take_append_of_le_length (by omega)]
      exact ih h.popBack

/-- One eviction is enough for a list that is one pair too long. -/
theorem evictOne {c : Nat} (h : Coupled i l) (hc : l.length = c + 1) :
    ∃ k, i.order.getLast? = some k ∧ (i.map.lookup k).map Prod.fst = (l[c]?).map Prod.snd ∧
      Coupled ⟨i.map.erase k, i.order.dropLast⟩ (l.take c) := by
  obtain ⟨init, ⟨k, v⟩, rfl⟩ : ∃ init p, l = init ++ [p] :=
    ⟨l.dropLast, l.getLast (by rintro rfl; cases hc), (List.dropLast_concat_getLast _).symm⟩
  have hinit : init.length = c := by simpa using hc
  have hkeys : i.order = keys init ++ [k] := h.order.trans List.map_append
  refine ⟨k, by rw [hkeys, List.getLast?_concat], ?_, ?_⟩
  · rw [h.lookup, lookup_concat h.nodup, ← hinit]
    simp
  · have hpop := h.popBack
    rw [hkeys, List.dropLast_concat, ← hinit, List.take_left]
    exact hpop

end Coupled

/-! ## The refinement -/

/-- A cache and its reference list. -/
structure Refines (c : LruCache κ υ) (l : List (κ × υ)) : Prop where
  coupled : Coupled c.inner l
  bound : l.length ≤ c.maxSize

namespace Refines

variable {c : LruCache κ υ} {l : List (κ × υ)}

theorem length_push (h : Refines c l) (k : κ) (v : υ) : (push k v l).length ≤ c.maxSize + 1 :=
  Nat.succ_le_succ (Nat.le_trans (length_delete_le k l) h.bound)

theorem insert (h : Refines c l) (k : κ) (v : υ) :
    ∃ c', c.insert k v = some c' ∧ c'.maxSize = c.maxSize ∧ Refines c' ((push k v l).take c.maxSize) := by
  have hplace := h.coupled.place k v
  simp only [LruCache.insert, hplace.order]
  have hplace' : Coupled ⟨(c.inner.place k v).map, keys (push k v l)⟩ (push k v l) := hplace.order ▸ hplace
  obtain ⟨i, hi, hc⟩ := hplace'.evictLoop c.maxSize
  rw [hi]
  exact ⟨_, rfl, rfl, hc, List.length_take_le _ _⟩

theorem insertWithEviction (h : Refines c l) (k : κ) (v : υ) :
    (c.insertWithEviction k v).1 = ((push k v l)[c.maxSize]?).map Prod.snd ∧
      (c.insertWithEviction k v).2.maxSize = c.maxSize ∧
      Refines (c.insertWithEviction k v).2 ((push k v l).take c.maxSize) := by
  have hplace := h.coupled.place k v
  have hlen := h.length_push k v
  unfold LruCache.insertWithEviction
  simp only
  by_cases hover : c.maxSize < (c.inner.place k v).len
  · rw [if_pos hover]
    rw [LruInner.len, hplace.card] at hover
    obtain ⟨k', hlast, hval, hc⟩ := hplace.evictOne (Nat.le_antisymm hlen hover)
    rw [hlast]
    exact ⟨hval, rfl, hc, List.length_take_le _ _⟩
  · rw [if_neg hover]
    rw [LruInner.len, hplace.card, Nat.not_lt] at hover
    rw [List.getElem?_eq_none hover, List.take_of_length_le hover]
    exact ⟨rfl, rfl, hplace, hover⟩

/-- One call answers as the reference does and keeps the coupling. -/
theorem exec (h : Refines c l) (op : LruOp κ υ) :
    ∃ c', op.exec c = some ((op.reference c.maxSize l).1, c') ∧ c'.maxSize = c.maxSize ∧
      Refines c' (op.reference c.maxSize l).2 := by
  cases op with
  | insert k v =>
    obtain ⟨c', hi, hm, hr⟩ := h.insert k v
    exact ⟨c', by rw [LruOp.exec, hi]; rfl, hm, hr⟩
  | insertWithEviction k v =>
    obtain ⟨ha, hm, hr⟩ := h.insertWithEviction k v
    exact ⟨_, by rw [LruOp.exec, LruOp.reference, ← ha]; rfl, hm, hr⟩
  | fetch k =>
    have htouch : Refines { c with inner := c.inner.touch k } (promote k l) :=
      ⟨h.coupled.touch k, by rw [length_promote h.coupled.nodup]; exact h.bound⟩
    simp only [LruOp.exec, LruCache.fetch, LruOp.reference]
    -- a miss changes neither, a hit promotes in both
    rcases h.coupled.lookup_cases k with ⟨hm, hl, -⟩ | ⟨v, n, hm, hl, -⟩
    · rw [hm, hl]
      refine ⟨c, rfl, rfl, ?_⟩
      rw [promote, hl]
      exact h
    · rw [hm, hl]
      exact ⟨_, rfl, rfl, htouch⟩
  | touch k =>
    exact ⟨_, rfl, rfl, h.coupled.touch k, by
      show (promote k l).length ≤ c.maxSize
      rw [length_promote h.coupled.nodup]; exact h.bound⟩
  | contains k =>
    refine ⟨c, ?_, rfl, h⟩
    rw [LruOp.exec, LruOp.reference, LruCache.contains, ← h.coupled.lookup, Option.isSome_map]
  | remove k =>
    refine ⟨(c.remove k).2, ?_, rfl, h.coupled.remove k, Nat.le_trans (length_delete_le k l) h.bound⟩
    rw [LruOp.exec, LruOp.reference, ← h.coupled.lookup]
    rfl
  | clear => exact ⟨_, rfl, rfl, Coupled.empty, Nat.zero_le _⟩

end Refines

/-- A fresh cache comes to the end of any calls, and refines the reference list then. -/
theorem Refines.fresh (capacity : Nat) (hc : 0 < capacity) (ops : List (LruOp κ υ)) :
    ∃ c, Machine.tryRun LruOp.exec (LruCache.new capacity hc) ops =
        some (Machine.outputs (LruOp.reference capacity) [] ops, c) ∧
      c.maxSize = capacity ∧ Refines c (Machine.after (LruOp.reference capacity) [] ops) := by
  have hfresh : Refines (LruCache.new capacity hc : LruCache κ υ) [] := ⟨Coupled.empty, Nat.zero_le _⟩
  have hall : Machine.Along (LruOp.reference capacity) (fun _ _ => True) ([] : List (κ × υ)) ops :=
    Machine.along_of_forall fun _ _ => trivial
  exact Machine.tryRun_refines
    (R := fun (c : LruCache κ υ) l => c.maxSize = capacity ∧ Refines c l)
    (by
      rintro c l op ⟨rfl, h⟩ -
      obtain ⟨c', he, hm, hr⟩ := h.exec op
      exact ⟨c', he, hm, hr⟩)
    ⟨rfl, hfresh⟩ hall

/-- A fresh cache refines the reference list: after any sequence of calls the deque has no
duplicates and holds exactly the keys of the map, the size is within the capacity, `keysLru` is the
reference's keys and every call was answered as the reference answers it. -/
theorem lru_refines_reference (capacity : Nat) (hc : 0 < capacity) (ops : List (LruOp κ υ)) :
    ∃ c, Machine.tryRun LruOp.exec (LruCache.new capacity hc) ops =
        some (Machine.outputs (LruOp.reference capacity) [] ops, c) ∧
      c.inner.order.Nodup ∧ (∀ k, k ∈ c.inner.order ↔ k ∈ c.inner.map) ∧ c.len ≤ capacity ∧
      c.keysLru = keys (Machine.after (LruOp.reference capacity) [] ops) ∧
      ∀ k, (c.inner.map.lookup k).map Prod.fst = (Machine.after (LruOp.reference capacity) [] ops).lookup k := by
  obtain ⟨c, hrun, hm, hr⟩ := Refines.fresh capacity hc ops
  refine ⟨c, hrun, hr.coupled.order ▸ hr.coupled.nodup, fun k => ?_, ?_, hr.coupled.order, hr.coupled.lookup⟩
  · rw [hr.coupled.mem_map, hr.coupled.order]
  · show c.inner.map.keys.card ≤ capacity
    rw [hr.coupled.card]
    exact Nat.le_trans hr.bound (Nat.le_of_eq hm)

end Cache

/-- Capacity two, every kind of call. -/
theorem lru_refines_reference_two :
    ∃ c, Machine.tryRun LruOp.exec (LruCache.new 2 (by decide) : LruCache String String)
        [.insert "a" "1", .insert "b" "2", .fetch "a", .insertWithEviction "c" "3", .contains "b", .touch "a",
          .remove "c", .clear] =
      some (Machine.outputs (LruOp.reference 2) []
        [.insert "a" "1", .insert "b" "2", .fetch "a", .insertWithEviction "c" "3", .contains "b", .touch "a",
          .remove "c", .clear], c) ∧ c.keysLru = [] := by
  obtain ⟨c, hrun, -, -, -, hkeys, -⟩ := lru_refines_reference (κ := String) (υ := String) 2 (by decide)
    [.insert "a" "1", .insert "b" "2", .fetch "a", .insertWithEviction "c" "3", .contains "b", .touch "a",
      .remove "c", .clear]
  exact ⟨c, hrun, hkeys⟩

example : Machine.outputs (LruOp.reference 2) []
    [.insert "a" "1", .insert "b" "2", .fetch "a", .insertWithEviction "c" "3", .contains "b"] =
      [.unit, .unit, .value (some "1"), .value (some "2"), .present false] := by decide

end Zht
