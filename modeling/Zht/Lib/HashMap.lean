/-
Finite maps with an unspecified iteration order: a hash map is a `Finmap`, and whatever walks it
takes an `Order`, which lists the entries of every map, each once, in an order nothing fixes.
Results stated for every `Order` hold for every iteration order a program may meet.
-/
import Mathlib.Data.Finmap
import Mathlib.Data.List.Sort

namespace Lib

/-- A finite map, equal to another exactly when every lookup is. -/
abbrev HashMap (κ υ : Type) := Finmap (fun _ : κ => υ)

namespace HashMap

variable {κ υ : Type} [DecidableEq κ]

/-- The entries inserted from first to last. -/
def insertAll (entries : List (κ × υ)) (m : HashMap κ υ) : HashMap κ υ :=
  entries.foldl (fun acc p => acc.insert p.1 p.2) m

@[simp] theorem insertAll_nil (m : HashMap κ υ) : insertAll [] m = m := rfl

@[simp] theorem insertAll_cons (p : κ × υ) (entries : List (κ × υ)) (m : HashMap κ υ) :
    insertAll (p :: entries) m = insertAll entries (m.insert p.1 p.2) := rfl

theorem lookup_insertAll_of_not_mem {entries : List (κ × υ)} {k : κ} (h : k ∉ entries.map Prod.fst)
    (m : HashMap κ υ) : (insertAll entries m).lookup k = m.lookup k := by
  induction entries generalizing m with
  | nil => rfl
  | cons p entries ih =>
    simp only [List.map_cons, List.mem_cons, not_or] at h
    rw [insertAll_cons, ih h.2, Finmap.lookup_insert_of_ne _ h.1]

theorem lookup_insertAll_of_mem {entries : List (κ × υ)} (hnd : (entries.map Prod.fst).Nodup) {k : κ} {v : υ}
    (h : (k, v) ∈ entries) (m : HashMap κ υ) : (insertAll entries m).lookup k = some v := by
  induction entries generalizing m with
  | nil => cases h
  | cons p entries ih =>
    rw [List.map_cons, List.nodup_cons] at hnd
    rw [insertAll_cons]
    rcases List.mem_cons.1 h with rfl | h
    · rw [lookup_insertAll_of_not_mem hnd.1, Finmap.lookup_insert]
    · exact ih hnd.2 h _

/-- Inserting what is already there changes nothing, and inserting anything else does. -/
theorem insert_eq_self {m : HashMap κ υ} {k : κ} {v : υ} : m.insert k v = m ↔ m.lookup k = some v := by
  constructor
  · intro h
    rw [← h, Finmap.lookup_insert]
  · intro h
    apply Finmap.ext_lookup
    intro q
    by_cases hq : q = k
    · rw [hq, Finmap.lookup_insert, h]
    · rw [Finmap.lookup_insert_of_ne _ hq]

/-- Erasing a key changes nothing exactly if it is not there. -/
theorem erase_eq_self {m : HashMap κ υ} {k : κ} : m.erase k = m ↔ m.lookup k = none := by
  constructor
  · intro h
    rw [← h, Finmap.lookup_erase]
  · intro h
    apply Finmap.ext_lookup
    intro q
    by_cases hq : q = k
    · rw [hq, Finmap.lookup_erase, h]
    · rw [Finmap.lookup_erase_ne hq]

/-- Looking up a list of keys that are all there. -/
theorem mapM_lookup {m : HashMap κ υ} {g : κ → υ} {ks : List κ} (h : ∀ k ∈ ks, m.lookup k = some (g k)) :
    ks.mapM m.lookup = some (ks.map g) := by
  induction ks with
  | nil => rfl
  | cons k ks ih =>
    rw [List.mapM_cons, h k List.mem_cons_self, ih fun q hq => h q (List.mem_cons_of_mem _ hq)]
    rfl

/-- A list of keys can be looked up exactly if all are there. -/
theorem isSome_mapM_lookup {m : HashMap κ υ} {ks : List κ} :
    (ks.mapM m.lookup).isSome = true ↔ ∀ k ∈ ks, k ∈ m := by
  induction ks with
  | nil => simp
  | cons k ks ih =>
    rw [List.mapM_cons, List.forall_mem_cons, ← ih, ← Finmap.lookup_isSome]
    cases m.lookup k with
    | none => simp
    | some v => cases ks.mapM m.lookup <;> simp

/-! ## Sizes -/

/-- The number of entries. -/
def size (m : HashMap κ υ) : Nat := m.keys.card

omit [DecidableEq κ] in
@[simp] theorem size_empty : size (∅ : HashMap κ υ) = 0 := by
  rw [size, Finmap.keys_empty, Finset.card_empty]

theorem keys_insert (m : HashMap κ υ) (k : κ) (v : υ) : (m.insert k v).keys = insert k m.keys := by
  ext q
  rw [Finmap.mem_keys, Finmap.mem_insert, Finset.mem_insert, Finmap.mem_keys]

theorem size_insert_of_mem {m : HashMap κ υ} {k : κ} (h : k ∈ m) (v : υ) : size (m.insert k v) = size m := by
  rw [size, keys_insert, Finset.insert_eq_of_mem (Finmap.mem_keys.2 h), size]

theorem size_insert_of_not_mem {m : HashMap κ υ} {k : κ} (h : k ∉ m) (v : υ) :
    size (m.insert k v) = size m + 1 := by
  rw [size, keys_insert, Finset.card_insert_of_notMem fun hk => h (Finmap.mem_keys.1 hk), size]

theorem size_erase_of_mem {m : HashMap κ υ} {k : κ} (h : k ∈ m) : size (m.erase k) + 1 = size m := by
  rw [size, Finmap.keys_erase, Finset.card_erase_add_one (Finmap.mem_keys.2 h), size]

/-! ## Iteration orders -/

/-- The order a hash map is walked in: the entries of every map, each key once. -/
structure Order (κ υ : Type) [DecidableEq κ] where
  entries : HashMap κ υ → List (κ × υ)
  nodup : ∀ m, ((entries m).map Prod.fst).Nodup
  mem : ∀ m k v, (k, v) ∈ entries m ↔ m.lookup k = some v

namespace Order

/-- The keys in iteration order. -/
def keys (ord : Order κ υ) (m : HashMap κ υ) : List κ := (ord.entries m).map Prod.fst

theorem mem_keys (ord : Order κ υ) (m : HashMap κ υ) (k : κ) : k ∈ ord.keys m ↔ ∃ v, m.lookup k = some v := by
  unfold keys
  rw [List.mem_map]
  constructor
  · rintro ⟨⟨k, v⟩, hp, rfl⟩
    exact ⟨v, (ord.mem m k v).1 hp⟩
  · rintro ⟨v, hv⟩
    exact ⟨(k, v), (ord.mem m k v).2 hv, rfl⟩

/-- Inserting the listed entries into an empty map rebuilds the map. -/
theorem insertAll_entries (ord : Order κ υ) (m : HashMap κ υ) : insertAll (ord.entries m) ∅ = m := by
  apply Finmap.ext_lookup
  intro k
  cases hk : m.lookup k with
  | some v => exact lookup_insertAll_of_mem (ord.nodup m) ((ord.mem m k v).2 hk) ∅
  | none =>
    have hnot : k ∉ (ord.entries m).map Prod.fst := by
      intro h
      obtain ⟨v, hv⟩ := (ord.mem_keys m k).1 h
      rw [hk] at hv; cases hv
    rw [lookup_insertAll_of_not_mem hnot, Finmap.lookup_empty]

/-- Of several maps, one that has every key as the map it is assigned to; `n` bounds the maps. -/
theorem exists_assigned (ord : Order κ υ) (maps : Nat → HashMap κ υ) (assign : κ → Option Nat) (n : Nat) :
    ∃ m : HashMap κ υ, ∀ k, m.lookup k =
      (assign k).bind fun x => if x < n then (maps x).lookup k else none := by
  induction n with
  | zero => exact ⟨∅, fun k => by cases assign k <;> simp⟩
  | succ n ih =>
    obtain ⟨m, hm⟩ := ih
    let own := (ord.entries (maps n)).filter fun p => assign p.1 = some n
    have hsub : own.Sublist (ord.entries (maps n)) := List.filter_sublist
    have hnodup : (own.map Prod.fst).Nodup := (ord.nodup (maps n)).sublist (hsub.map Prod.fst)
    refine ⟨insertAll own m, fun k => ?_⟩
    by_cases hk : assign k = some n
    · rw [hk, Option.bind_some, if_pos (Nat.lt_succ_self n)]
      cases hl : (maps n).lookup k with
      | some v =>
        exact lookup_insertAll_of_mem hnodup (List.mem_filter.2 ⟨(ord.mem _ k v).2 hl, by simpa using hk⟩) m
      | none =>
        have hnot : k ∉ own.map Prod.fst := by
          intro hmem
          obtain ⟨v, hv⟩ := (ord.mem_keys (maps n) k).1 ((hsub.map Prod.fst).subset hmem)
          rw [hl] at hv
          cases hv
        rw [lookup_insertAll_of_not_mem hnot, hm, hk, Option.bind_some, if_neg (Nat.lt_irrefl n)]
    · have hnot : k ∉ own.map Prod.fst := by
        intro hmem
        obtain ⟨p, hp, rfl⟩ := List.mem_map.1 hmem
        exact hk (of_decide_eq_true (List.mem_filter.1 hp).2)
      rw [lookup_insertAll_of_not_mem hnot, hm]
      cases hx : assign k with
      | none => rfl
      | some x =>
        have hne : x ≠ n := fun he => hk (by rw [hx, he])
        rw [Option.bind_some, Option.bind_some]
        by_cases hlt : x < n
        · rw [if_pos hlt, if_pos (by omega)]
        · rw [if_neg hlt, if_neg (by omega)]

/-! ### A computable order -/

section Sorted

variable [LinearOrder κ]

/-- The keys of a map in increasing order. -/
def sortedKeys (m : HashMap κ υ) : List κ :=
  Finmap.liftOn m (fun s => s.keys.insertionSort (· ≤ ·)) (by
    intro s t h
    have hperm : (s.keys.insertionSort (· ≤ ·)).Perm (t.keys.insertionSort (· ≤ ·)) :=
      (List.perm_insertionSort _ _).trans ((List.Perm.map Sigma.fst h).trans (List.perm_insertionSort _ _).symm)
    exact hperm.eq_of_pairwise' (List.pairwise_insertionSort _ _) (List.pairwise_insertionSort _ _))

theorem mem_sortedKeys (m : HashMap κ υ) (k : κ) : k ∈ sortedKeys m ↔ ∃ v, m.lookup k = some v := by
  induction m using Finmap.induction_on with
  | H s =>
    rw [sortedKeys, Finmap.liftOn_toFinmap, List.mem_insertionSort, ← AList.mem_keys,
      Finmap.lookup_toFinmap, ← AList.lookup_isSome, Option.isSome_iff_exists]

omit [DecidableEq κ] in
theorem nodup_sortedKeys (m : HashMap κ υ) : (sortedKeys m).Nodup := by
  induction m using Finmap.induction_on with
  | H s =>
    rw [sortedKeys, Finmap.liftOn_toFinmap]
    exact (List.perm_insertionSort _ _).nodup_iff.2 s.keys_nodup

/-- The order by increasing keys. -/
def sorted : Order κ υ where
  entries m := (sortedKeys m).filterMap (fun k => (m.lookup k).map (k, ·))
  nodup m := by
    have : ((sortedKeys m).filterMap (fun k => (m.lookup k).map (k, ·))).map Prod.fst = sortedKeys m := by
      rw [List.map_filterMap]
      have hall : ∀ k ∈ sortedKeys m, ((m.lookup k).map (k, ·)).map Prod.fst = some k := by
        intro k hk
        obtain ⟨v, hv⟩ := (mem_sortedKeys m k).1 hk
        rw [hv]; rfl
      rw [List.filterMap_congr hall, List.filterMap_some]
    rw [this]
    exact nodup_sortedKeys m
  mem m k v := by
    rw [List.mem_filterMap]
    constructor
    · rintro ⟨k', -, h⟩
      simp only [Option.map_eq_some_iff, Prod.mk.injEq] at h
      obtain ⟨v', hv, rfl, rfl⟩ := h
      exact hv
    · intro h
      exact ⟨k, (mem_sortedKeys m k).2 ⟨v, h⟩, by rw [h]; rfl⟩

end Sorted

end Order

end HashMap

end Lib
