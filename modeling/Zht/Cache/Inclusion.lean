/-
A larger cache beside a smaller one. Fed the same calls, removals among them, the larger one holds
everything the smaller one does, with the same values and in the same order of use: it never misses where
the smaller one hits. What carries it is that the larger one is never ahead by more entries than it has
room for (`Included`), so that it evicts only where the smaller one does.
-/
import Zht.Cache.Lru

namespace Zht

open Lib Lib.Recency

section Inclusion

variable {κ υ : Type} [DecidableEq κ]

/-- The call found the key. -/
def LruOp.hit : LruOp κ υ × LruAnswer υ → Bool
  | (fetch _, .value v) | (remove _, .value v) => v.isSome
  | (contains _, .present b) => b
  | _ => false

/-- The lists of a cache of capacity `c` and of one of capacity `d`. -/
structure Included (c d : Nat) (l m : List (κ × υ)) : Prop where
  sub : l.Sublist m
  nodup : (keys m).Nodup
  bound : l.length ≤ c
  fits : m.length ≤ d
  gap : m.length + c ≤ l.length + d

namespace Included

variable {c d : Nat} {l m : List (κ × υ)}

omit [DecidableEq κ] in
theorem keys_sub (h : Included c d l m) : (keys l).Sublist (keys m) := h.sub.map _

omit [DecidableEq κ] in
theorem nodup_left (h : Included c d l m) : (keys l).Nodup := h.nodup.sublist h.keys_sub

/-- An entry that enters both, before either is cut. -/
theorem length_push_le (h : Included c d l m) (k : κ) (v : υ) :
    (push k v m).length + c ≤ (push k v l).length + d := by
  have hgap := h.gap
  have hpush : ∀ n : List (κ × υ), (push k v n).length = (delete k n).length + 1 := fun _ => rfl
  rw [hpush, hpush]
  by_cases hl : k ∈ keys l
  · have := length_delete_of_mem h.nodup_left hl
    have := length_delete_of_mem h.nodup (h.keys_sub.subset hl)
    omega
  · rw [delete_of_not_mem hl]
    have := length_delete_le k m
    omega

theorem insert (h : Included c d l m) (k : κ) (v : υ) :
    Included c d ((push k v l).take c) ((push k v m).take d) := by
  have hl : (push k v l).length ≤ c + 1 := Nat.succ_le_succ ((length_delete_le k l).trans h.bound)
  have hm : (push k v m).length ≤ d + 1 := Nat.succ_le_succ ((length_delete_le k m).trans h.fits)
  have hgap := h.length_push_le k v
  refine ⟨take_sublist_take ((delete_sublist_delete h.sub k).cons_cons _) hl hm hgap, ?_, List.length_take_le _ _,
    List.length_take_le _ _, ?_⟩
  · exact (nodup_push h.nodup k v).sublist ((List.take_sublist d _).map _)
  · rw [List.length_take, List.length_take]
    omega

theorem promote (h : Included c d l m) (k : κ) : Included c d (promote k l) (promote k m) := by
  have hlengths : (Recency.promote k m).length = m.length ∧ (Recency.promote k l).length = l.length :=
    ⟨length_promote h.nodup k, length_promote h.nodup_left k⟩
  have hsub : (Recency.promote k l).Sublist (Recency.promote k m) ∧ (keys (Recency.promote k m)).Nodup := by
    unfold Recency.promote
    cases hl : l.lookup k with
    | some v =>
      rw [lookup_of_sublist h.sub h.nodup hl]
      exact ⟨(delete_sublist_delete h.sub k).cons_cons _, nodup_push h.nodup k v⟩
    | none =>
      cases hm : m.lookup k with
      | none => exact ⟨h.sub, h.nodup⟩
      | some v => exact ⟨(sublist_delete h.sub (lookup_eq_none_iff.1 hl)).cons _, nodup_push h.nodup k v⟩
  refine ⟨hsub.1, hsub.2, ?_, ?_, ?_⟩
  · rw [hlengths.2]
    exact h.bound
  · rw [hlengths.1]
    exact h.fits
  · rw [hlengths.1, hlengths.2]
    exact h.gap

theorem delete (h : Included c d l m) (k : κ) : Included c d (delete k l) (delete k m) := by
  refine ⟨delete_sublist_delete h.sub k, nodup_delete h.nodup k, (length_delete_le k l).trans h.bound,
    (length_delete_le k m).trans h.fits, ?_⟩
  by_cases hl : k ∈ keys l
  · have hdl := length_delete_of_mem h.nodup_left hl
    have hdm := length_delete_of_mem h.nodup (h.keys_sub.subset hl)
    have := h.gap
    omega
  · rw [delete_of_not_mem hl]
    have := length_delete_le k m
    have := h.gap
    omega

/-- The step: the same call on both keeps the inclusion, and is answered alike where the smaller one hits. -/
theorem step (h : Included c d l m) (op : LruOp κ υ) :
    Included c d (op.reference c l).2 (op.reference d m).2 ∧
      (LruOp.hit (op, (op.reference c l).1) = true → (op.reference d m).1 = (op.reference c l).1) := by
  have hlookup : ∀ k, (l.lookup k).isSome = true → m.lookup k = l.lookup k := by
    intro k hk
    obtain ⟨v, hv⟩ := Option.isSome_iff_exists.1 hk
    rw [hv, lookup_of_sublist h.sub h.nodup hv]
  cases op with
  | insert k v => exact ⟨h.insert k v, fun hhit => by cases hhit⟩
  | insertWithEviction k v => exact ⟨h.insert k v, fun hhit => by cases hhit⟩
  | fetch k => exact ⟨h.promote k, fun hhit => congrArg LruAnswer.value (hlookup k hhit)⟩
  | touch k => exact ⟨h.promote k, fun hhit => by cases hhit⟩
  | contains k =>
    exact ⟨h, fun hhit => congrArg (fun v : Option υ => LruAnswer.present v.isSome) (hlookup k hhit)⟩
  | remove k => exact ⟨h.delete k, fun hhit => congrArg LruAnswer.value (hlookup k hhit)⟩
  | clear =>
    have hcd : 0 + c ≤ 0 + d := by
      have := h.gap
      have := h.sub.length_le
      omega
    exact ⟨⟨.slnil, List.nodup_nil, Nat.zero_le c, Nat.zero_le d, hcd⟩, fun hhit => by cases hhit⟩

/-- The run. -/
theorem run (h : Included c d l m) (ops : List (LruOp κ υ)) :
    Included c d (Machine.after (LruOp.reference c) l ops) (Machine.after (LruOp.reference d) m ops) ∧
      List.Forall₂ (fun e f => e.1 = f.1 ∧ (LruOp.hit e = true → f.2 = e.2)) (Machine.log (LruOp.reference c) l ops)
        (Machine.log (LruOp.reference d) m ops) := by
  induction ops generalizing l m with
  | nil => exact ⟨h, .nil⟩
  | cons op ops ih =>
    obtain ⟨hnext, hanswer⟩ := h.step op
    obtain ⟨hlast, hlogs⟩ := ih hnext
    exact ⟨hlast, .cons ⟨rfl, hanswer⟩ hlogs⟩

end Included

omit [DecidableEq κ] in
/-- Logs that agree wherever the first one has a hit: the second has no fewer. -/
theorem hits_le {xs ys : List (LruOp κ υ × LruAnswer υ)}
    (h : List.Forall₂ (fun e f => e.1 = f.1 ∧ (LruOp.hit e = true → f.2 = e.2)) xs ys) :
    xs.countP LruOp.hit ≤ ys.countP LruOp.hit := by
  induction h with
  | nil => exact Nat.le_refl 0
  | @cons e f xs ys hef _ ih =>
    obtain ⟨op, a⟩ := e
    obtain ⟨op', b⟩ := f
    obtain ⟨rfl, hanswer⟩ := hef
    rw [List.countP_cons, List.countP_cons]
    by_cases hhit : LruOp.hit (op, a) = true
    · have hb : b = a := hanswer hhit
      subst hb
      exact Nat.add_le_add_right ih _
    · rw [if_neg hhit]
      omega

/-- Two fresh caches fed the same calls, of any kinds: the keys of the smaller one are among those of the
larger, in the same order of use; every hit of the smaller is a hit of the larger with the same answer, so
that the larger has no fewer hits; and what a fetch finds in the smaller it finds in the larger. -/
theorem lru_inclusion {capacity more : Nat} (hc : 0 < capacity) (hm : 0 < more) (hle : capacity ≤ more)
    (ops : List (LruOp κ υ)) :
    ∃ as small bs large, Machine.tryRun LruOp.exec (LruCache.new capacity hc) ops = some (as, small) ∧
      Machine.tryRun LruOp.exec (LruCache.new more hm) ops = some (bs, large) ∧
      small.keysLru.Sublist large.keysLru ∧
      List.Forall₂ (fun e f => e.1 = f.1 ∧ (LruOp.hit e = true → f.2 = e.2)) (ops.zip as) (ops.zip bs) ∧
      (ops.zip as).countP LruOp.hit ≤ (ops.zip bs).countP LruOp.hit ∧
      ∀ k v, (small.fetch k).1 = some v → (large.fetch k).1 = some v := by
  have hfresh : Included capacity more ([] : List (κ × υ)) [] :=
    ⟨.slnil, List.nodup_nil, Nat.zero_le _, Nat.zero_le _, by simpa using hle⟩
  obtain ⟨hlast, hlogs⟩ := hfresh.run ops
  obtain ⟨small, hsmall, -, hrs⟩ := Refines.fresh capacity hc ops
  obtain ⟨large, hlarge, -, hrl⟩ := Refines.fresh more hm ops
  refine ⟨_, small, _, large, hsmall, hlarge, ?_, hlogs, hits_le hlogs, fun k v hv => ?_⟩
  · rw [LruCache.keysLru, LruCache.keysLru, hrs.coupled.order, hrl.coupled.order]
    exact hlast.keys_sub
  · rw [LruCache.fetch_fst, hrs.coupled.lookup] at hv
    rw [LruCache.fetch_fst, hrl.coupled.lookup]
    exact lookup_of_sublist hlast.sub hlast.nodup hv

end Inclusion

/-- Capacities one and two: what was removed and fetched again in between makes no difference. -/
theorem lru_inclusion_two :
    ∃ as small bs large,
      Machine.tryRun LruOp.exec (LruCache.new 1 (by decide) : LruCache String String)
        [.insert "a" "1", .insert "b" "2", .fetch "a", .remove "b", .contains "a"] = some (as, small) ∧
      Machine.tryRun LruOp.exec (LruCache.new 2 (by decide) : LruCache String String)
        [.insert "a" "1", .insert "b" "2", .fetch "a", .remove "b", .contains "a"] = some (bs, large) ∧
      small.keysLru.Sublist large.keysLru := by
  obtain ⟨as, small, bs, large, hsmall, hlarge, hkeys, -⟩ :=
    lru_inclusion (show 0 < 1 by decide) (show 0 < 2 by decide) (show 1 ≤ 2 by decide)
      [.insert "a" "1", .insert "b" "2", .fetch "a", .remove "b", .contains "a"]
  exact ⟨as, small, bs, large, hsmall, hlarge, hkeys⟩

end Zht
