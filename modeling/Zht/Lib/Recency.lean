/-
Recency lists: pairs of a key and its value, most recent first, each key once. `delete` drops a
key's pair, `push` puts a pair in front of the others and `promote` moves a key's pair to the
front; a list of bounded length keeps its first pairs.
-/
import Mathlib.Data.List.Nodup

namespace Lib.Recency

variable {κ υ : Type} [DecidableEq κ]

/-- The keys, most recent first. -/
def keys (l : List (κ × υ)) : List κ := l.map Prod.fst

def delete (k : κ) (l : List (κ × υ)) : List (κ × υ) := l.filter (fun p => p.1 ≠ k)

def push (k : κ) (v : υ) (l : List (κ × υ)) : List (κ × υ) := (k, v) :: delete k l

def promote (k : κ) (l : List (κ × υ)) : List (κ × υ) :=
  match l.lookup k with
  | some v => push k v l
  | none => l

/-! ## Lookups -/

omit [DecidableEq κ] in
theorem mem_keys {l : List (κ × υ)} {k : κ} : k ∈ keys l ↔ ∃ v, (k, v) ∈ l := by
  unfold keys
  simp

theorem lookup_eq_none_iff {l : List (κ × υ)} {k : κ} : l.lookup k = none ↔ k ∉ keys l := by
  rw [List.lookup_eq_none_iff, mem_keys]
  constructor
  · rintro h ⟨v, hv⟩
    simpa using h (k, v) hv
  · intro h p hp
    rw [bne_iff_ne]
    rintro rfl
    exact h ⟨p.2, hp⟩

omit [DecidableEq κ] in
theorem not_mem_keys_of_concat {l : List (κ × υ)} {k : κ} {v : υ} (h : (keys (l ++ [(k, v)])).Nodup) : k ∉ keys l := by
  have hkeys : keys (l ++ [(k, v)]) = keys l ++ [k] := List.map_append
  rw [hkeys, List.nodup_append] at h
  exact fun hm => h.2.2 k hm k (List.mem_singleton_self k) rfl

/-- The last pair is the one its key is looked up to. -/
theorem lookup_concat {l : List (κ × υ)} {k : κ} {v : υ} (h : (keys (l ++ [(k, v)])).Nodup) :
    (l ++ [(k, v)]).lookup k = some v := by
  rw [List.lookup_append, lookup_eq_none_iff.2 (not_mem_keys_of_concat h), List.lookup_cons_self]
  rfl

theorem lookup_cons_ne {k q : κ} (h : q ≠ k) (v : υ) (l : List (κ × υ)) :
    ((k, v) :: l).lookup q = l.lookup q := by
  rw [List.lookup_cons]
  have : (q == k) = false := beq_false_of_ne h
  rw [this]

theorem lookup_delete_ne {k q : κ} (h : q ≠ k) (l : List (κ × υ)) : (delete k l).lookup q = l.lookup q := by
  unfold delete
  induction l with
  | nil => rfl
  | cons p l ih =>
    obtain ⟨r, v⟩ := p
    by_cases hr : r = k
    · subst hr
      rw [List.filter_cons_of_neg (by simp), ih, lookup_cons_ne h]
    · rw [List.filter_cons_of_pos (by simpa using hr)]
      by_cases hq : q = r
      · subst hq
        rw [List.lookup_cons_self, List.lookup_cons_self]
      · rw [lookup_cons_ne hq, lookup_cons_ne hq, ih]

/-! ## Keys -/

theorem keys_delete (k : κ) (l : List (κ × υ)) : keys (delete k l) = (keys l).filter (fun q => q ≠ k) := by
  unfold keys delete
  rw [List.filter_map]
  rfl

theorem not_mem_keys_delete (k : κ) (l : List (κ × υ)) : k ∉ keys (delete k l) := by
  rw [keys_delete, List.mem_filter]
  simp

theorem lookup_delete_self (k : κ) (l : List (κ × υ)) : (delete k l).lookup k = none :=
  lookup_eq_none_iff.2 (not_mem_keys_delete k l)

theorem nodup_delete {l : List (κ × υ)} (h : (keys l).Nodup) (k : κ) : (keys (delete k l)).Nodup := by
  rw [keys_delete]
  exact h.filter _

theorem nodup_push {l : List (κ × υ)} (h : (keys l).Nodup) (k : κ) (v : υ) : (keys (push k v l)).Nodup :=
  List.nodup_cons.2 ⟨not_mem_keys_delete k l, nodup_delete h k⟩

theorem keys_delete_erase {l : List (κ × υ)} (h : (keys l).Nodup) (k : κ) : keys (delete k l) = (keys l).erase k := by
  rw [keys_delete, h.erase_eq_filter]
  congr 1
  funext q
  simp [bne, beq_eq_decide]

omit [DecidableEq κ] in
theorem length_keys (l : List (κ × υ)) : (keys l).length = l.length := List.length_map _

theorem length_delete_le (k : κ) (l : List (κ × υ)) : (delete k l).length ≤ l.length := List.length_filter_le _ _

theorem delete_of_not_mem {l : List (κ × υ)} {k : κ} (h : k ∉ keys l) : delete k l = l := by
  unfold delete
  rw [List.filter_eq_self]
  rintro p hp
  have hne : p.1 ≠ k := fun he => h (mem_keys.2 ⟨p.2, he ▸ hp⟩)
  simpa using hne

/-- Deleting a key that is there makes the list shorter. -/
theorem length_delete_of_mem {l : List (κ × υ)} (h : (keys l).Nodup) {k : κ} (hk : k ∈ keys l) :
    (delete k l).length + 1 = l.length := by
  have hpos : 0 < (keys l).length := List.length_pos_of_mem hk
  rw [← length_keys (delete k l), keys_delete_erase h, List.length_erase_of_mem hk, ← length_keys l]
  omega

theorem mem_of_lookup {l : List (κ × υ)} {k : κ} {v : υ} (h : l.lookup k = some v) : k ∈ keys l := by
  by_contra hk
  rw [lookup_eq_none_iff.2 hk] at h
  cases h

theorem length_promote {l : List (κ × υ)} (h : (keys l).Nodup) (k : κ) : (promote k l).length = l.length := by
  unfold promote
  cases hl : l.lookup k with
  | none => rfl
  | some v => exact length_delete_of_mem h (mem_of_lookup hl)

/-! ## Sublists -/

theorem delete_sublist_delete {l m : List (κ × υ)} (h : l.Sublist m) (k : κ) : (delete k l).Sublist (delete k m) :=
  h.filter _

/-- A key that is not in the shorter list may leave the longer one. -/
theorem sublist_delete {l m : List (κ × υ)} (h : l.Sublist m) {k : κ} (hk : k ∉ keys l) : l.Sublist (delete k m) := by
  have hd := delete_sublist_delete h k
  rwa [delete_of_not_mem hk] at hd

theorem lookup_of_mem {l : List (κ × υ)} (h : (keys l).Nodup) {k : κ} {v : υ} (hm : (k, v) ∈ l) :
    l.lookup k = some v := by
  induction l with
  | nil => cases hm
  | cons p l ih =>
    obtain ⟨q, w⟩ := p
    obtain ⟨hq, hl⟩ := List.nodup_cons.1 h
    rcases List.mem_cons.1 hm with hp | htail
    · cases hp
      exact List.lookup_cons_self
    · have hne : k ≠ q := fun hkq => hq (mem_keys.2 ⟨v, hkq ▸ htail⟩)
      rw [lookup_cons_ne hne, ih hl htail]

theorem mem_of_lookup_eq {l : List (κ × υ)} {k : κ} {v : υ} (h : l.lookup k = some v) : (k, v) ∈ l := by
  obtain ⟨before, after, rfl, -⟩ := List.lookup_eq_some_iff.1 h
  simp

/-- What a sublist finds, the list finds. -/
theorem lookup_of_sublist {l m : List (κ × υ)} (h : l.Sublist m) (hm : (keys m).Nodup) {k : κ} {v : υ}
    (hl : l.lookup k = some v) : m.lookup k = some v :=
  lookup_of_mem hm (h.subset (mem_of_lookup_eq hl))

/-- A sublist that is one too long where the list is stays one when both are cut. -/
theorem take_sublist_take {α : Type} {l m : List α} {c d : Nat} (h : l.Sublist m) (hl : l.length ≤ c + 1)
    (hm : m.length ≤ d + 1) (hgap : m.length + c ≤ l.length + d) : (l.take c).Sublist (m.take d) := by
  rcases Nat.lt_or_ge d m.length with hover | hfits
  · -- both lose their last element
    have hlc : c = l.length - 1 := by omega
    have hmd : d = m.length - 1 := by omega
    rw [hlc, hmd, ← List.dropLast_eq_take, ← List.dropLast_eq_take]
    have hrev := h.reverse.tail.reverse
    rwa [List.tail_reverse, List.tail_reverse, List.reverse_reverse, List.reverse_reverse] at hrev
  · rw [List.take_of_length_le hfits]
    exact (List.take_sublist c l).trans h

end Lib.Recency
