/-
What forwarded writes do to the value under one key, and when their order does not matter. A replica
gets each write of the primary `n` times, in an order of its own; it ends with the primary's value
under every order exactly when any two of the writes commute and, for `n` other than one, none of them
is an APPEND (`Write.orderFree_iff`).
-/
import Mathlib.Algebra.GroupWithZero.Nat
import Mathlib.Data.List.Perm.Basic
import Mathlib.Data.String.Basic
import Zht.Storage.Table

namespace Zht

/-! ## Writes -/

/-- A write, as far as the value under its key goes. -/
inductive Write
  | insert (value : String)
  | remove
  | append (value : String)
  deriving DecidableEq, Repr

namespace Write

def apply (current : Option String) : Write → Option String
  | insert value => some value
  | remove => none
  | append value =>
    match current with
    | some existing => some (existing ++ ":" ++ value)
    | none => some value

/-- The writes applied from first to last. -/
def applyAll (current : Option String) (ws : List Write) : Option String := ws.foldl apply current

/-- Two writes that may be swapped. -/
def Commute : Write → Write → Prop
  | insert v, insert w => v = w
  | remove, remove => True
  | append v, append w => v ++ ":" ++ w = w ++ ":" ++ v
  | insert _, remove | insert _, append _ | remove, insert _ | remove, append _ | append _, insert _
  | append _, remove => False

instance (v w : Write) : Decidable (Commute v w) := by
  cases v <;> cases w <;> unfold Commute <;> infer_instance

/-- The write adds to what is there. -/
def Grows : Write → Prop
  | append _ => True
  | insert _ | remove => False

instance (w : Write) : Decidable w.Grows := by
  cases w <;> unfold Grows <;> infer_instance

/-- Each write `n` times. -/
def copies (n : Nat) (ws : List Write) : List Write := ws.flatMap (List.replicate n)

theorem applyAll_append (current : Option String) (vs ws : List Write) :
    applyAll current (vs ++ ws) = applyAll (applyAll current vs) ws := List.foldl_append

/-! ## Enough -/

theorem apply_comm {v w : Write} (h : Commute v w) (current : Option String) :
    (w.apply (v.apply current)) = v.apply (w.apply current) := by
  cases v with
  | insert v =>
    cases w with
    | insert w => exact congrArg some h.symm
    | remove | append => exact absurd h id
  | remove =>
    cases w with
    | remove => rfl
    | insert | append => exact absurd h id
  | append v =>
    cases w with
    | insert | remove => exact absurd h id
    | append w =>
      cases current with
      | none => exact congrArg some h
      | some existing =>
        have hswap : existing ++ ":" ++ (v ++ ":" ++ w) = existing ++ ":" ++ (w ++ ":" ++ v) := by rw [h]
        simpa only [apply, String.append_assoc, Option.some.injEq] using hswap

instance : Std.Symm Commute where
  symm v w h := by
    cases v <;> cases w <;> first
      | exact h
      | exact h.symm

theorem commute_self (w : Write) : Commute w w := by
  cases w
  · rfl
  · trivial
  · rfl

theorem mem_copies {n : Nat} {ws : List Write} {w : Write} (h : w ∈ copies n ws) : w ∈ ws := by
  obtain ⟨v, hv, hw⟩ := List.mem_flatMap.1 h
  rw [List.eq_of_mem_replicate hw]
  exact hv

/-- A write that does not grow leaves the same after any number of copies. -/
theorem applyAll_replicate {w : Write} (h : ¬w.Grows) {n : Nat} (hn : 0 < n) (current : Option String) :
    applyAll current (List.replicate n w) = w.apply current := by
  induction n generalizing current with
  | zero => exact absurd hn (Nat.lt_irrefl 0)
  | succ n ih =>
    rw [List.replicate_succ]
    show applyAll (w.apply current) (List.replicate n w) = w.apply current
    rcases Nat.eq_zero_or_pos n with rfl | hpos
    · rfl
    · rw [ih hpos]
      cases w with
      | insert | remove => rfl
      | append => exact absurd trivial h

/-- The copies of a write add nothing, where it comes once or does not grow. -/
theorem applyAll_copies {n : Nat} (hn : 0 < n) {ws : List Write} (h : n ≠ 1 → ∀ w ∈ ws, ¬w.Grows)
    (current : Option String) : applyAll current (copies n ws) = applyAll current ws := by
  induction ws generalizing current with
  | nil => rfl
  | cons w ws ih =>
    have hhead : applyAll current (List.replicate n w) = w.apply current := by
      by_cases hone : n = 1
      · rw [hone]
        rfl
      · exact applyAll_replicate (h hone w List.mem_cons_self) hn current
    have hcons : copies n (w :: ws) = List.replicate n w ++ copies n ws := rfl
    rw [hcons, applyAll_append, hhead, ih fun hone v hv => h hone v (List.mem_cons_of_mem _ hv)]
    rfl

/-- Under any order of the copies. -/
theorem applyAll_of_perm {n : Nat} (hn : 0 < n) {ws arrived : List Write} (hcomm : ws.Pairwise Commute)
    (hgrow : n ≠ 1 → ∀ w ∈ ws, ¬w.Grows) (harrived : arrived.Perm (copies n ws)) (current : Option String) :
    applyAll current arrived = applyAll current ws := by
  have hall : ∀ v ∈ ws, ∀ w ∈ ws, Commute v w := by
    intro v hv w hw
    exact hcomm.forall_of_forall (fun u _ => commute_self u) hv hw
  rw [← applyAll_copies hn hgrow]
  refine harrived.foldl_eq' (fun v hv w hw x => ?_) current
  exact apply_comm (hall v (mem_copies (harrived.subset hv)) w (mem_copies (harrived.subset hw))) x

/-! ## No less than enough -/

/-- The length of a value, and one more for being there. -/
def size : Option String → Nat
  | none => 0
  | some value => value.length + 1

/-- What a write adds to a value, with the separator before it. -/
def growth : Write → Nat
  | append value => value.length + 1
  | insert _ | remove => 0

theorem size_apply {w : Write} (h : w.Grows) (current : Option String) :
    size (w.apply current) = size current + w.growth := by
  cases w with
  | insert | remove => exact absurd h id
  | append value =>
    cases current with
    | none => simp [apply, size, growth]
    | some existing =>
      have hcolon : (":" : String).length = 1 := rfl
      simp only [apply, size, growth, String.length_append, hcolon]
      omega

theorem size_applyAll {ws : List Write} (h : ∀ w ∈ ws, w.Grows) (current : Option String) :
    size (applyAll current ws) = size current + (ws.map growth).sum := by
  induction ws generalizing current with
  | nil => rfl
  | cons w ws ih =>
    show size (applyAll (w.apply current) ws) = _
    rw [ih fun v hv => h v (List.mem_cons_of_mem _ hv), size_apply (h w List.mem_cons_self), List.map_cons,
      List.sum_cons, Nat.add_assoc]

theorem sum_growth_copies (n : Nat) (ws : List Write) :
    ((copies n ws).map growth).sum = n * (ws.map growth).sum := by
  induction ws with
  | nil => rfl
  | cons w ws ih =>
    have hcons : copies n (w :: ws) = List.replicate n w ++ copies n ws := rfl
    rw [hcons, List.map_append, List.sum_append, ih, List.map_replicate, List.sum_replicate_nat, List.map_cons,
      List.sum_cons, Nat.mul_add]

theorem copies_append (n : Nat) (vs ws : List Write) : copies n (vs ++ ws) = copies n vs ++ copies n ws :=
  List.flatMap_append

/-- Copies of a write that does not grow, last of all, leave what it leaves. -/
theorem applyAll_last {w : Write} (h : ¬w.Grows) {n : Nat} (hn : 0 < n) (ws : List Write) (current : Option String) :
    applyAll current (copies n (ws ++ [w])) = w.apply none := by
  have hlast : copies n [w] = List.replicate n w := List.flatMap_singleton _ _
  rw [copies_append, applyAll_append, hlast, applyAll_replicate h hn]
  cases w with
  | insert | remove => rfl
  | append => exact absurd trivial h

/-- Copies of a write that grows, last of all, leave more than was there. -/
theorem size_lt_last {w : Write} (h : w.Grows) {n : Nat} (hn : 0 < n) (ws : List Write) (current : Option String) :
    size (applyAll current (copies n ws)) < size (applyAll current (copies n (ws ++ [w]))) := by
  have hlast : copies n [w] = List.replicate n w := List.flatMap_singleton _ _
  have hall : ∀ v ∈ List.replicate n w, v.Grows := by
    intro v hv
    rw [List.eq_of_mem_replicate hv]
    exact h
  have hpos : 0 < w.growth := by
    cases w with
    | insert | remove => exact absurd h id
    | append value => exact Nat.succ_pos _
  rw [copies_append, applyAll_append, hlast, size_applyAll hall, List.map_replicate, List.sum_replicate_nat]
  have := Nat.mul_pos hn hpos
  omega

section Necessary

variable {n : Nat} {ws : List Write} {current : Option String}

/-- Every order of the writes, each copied `n` times, leaves what the writes leave once. -/
def OrderFree (n : Nat) (ws : List Write) (current : Option String) : Prop :=
  ∀ order : List Write, order.Perm ws → applyAll current (copies n order) = applyAll current ws

/-- Two writes of an order-free list leave the same last, in either order. -/
theorem OrderFree.swap (h : OrderFree n ws current) {v w : Write} (hsub : [v, w].Sublist ws) :
    ∃ rest, applyAll current (copies n (rest ++ [v] ++ [w])) = applyAll current ws ∧
      applyAll current (copies n (rest ++ [w] ++ [v])) = applyAll current ws := by
  obtain ⟨rest, hrest⟩ := hsub.exists_perm_append
  have hvw : (rest ++ [v] ++ [w]).Perm ws := by
    rw [List.append_assoc]
    exact List.perm_append_comm.trans hrest.symm
  have hwv : (rest ++ [w] ++ [v]).Perm ws := by
    rw [List.append_assoc] at hvw ⊢
    exact ((List.Perm.swap v w []).append_left rest).trans hvw
  exact ⟨rest, h _ hvw, h _ hwv⟩

/-- With one write that grows all grow. -/
theorem OrderFree.same_kind (h : OrderFree n ws current) (hn : 0 < n) {v w : Write} (hsub : [v, w].Sublist ws) :
    v.Grows ↔ w.Grows := by
  obtain ⟨rest, hvw, hwv⟩ := h.swap hsub
  have hsame := hvw.trans hwv.symm
  by_cases hv : v.Grows <;> by_cases hw : w.Grows
  · exact iff_of_true hv hw
  · -- `w` last leaves no more than before `v`, and `v` last adds to what `w` leaves
    rw [applyAll_last hw hn] at hsame
    have hlt := size_lt_last hv hn (rest ++ [w]) current
    rw [← hsame, applyAll_last hw hn] at hlt
    exact absurd hlt (Nat.lt_irrefl _)
  · rw [applyAll_last hv hn] at hsame
    have hlt := size_lt_last hw hn (rest ++ [v]) current
    rw [hsame, applyAll_last hv hn] at hlt
    exact absurd hlt (Nat.lt_irrefl _)
  · exact iff_of_false hv hw

/-- An order-free list with a write that grows has all of them grow, and comes once. -/
theorem OrderFree.once (h : OrderFree n ws current) (hn : 0 < n) {w : Write} (hw : w ∈ ws) (hgrow : w.Grows) :
    (∀ v ∈ ws, v.Grows) ∧ n = 1 := by
  have hall : ∀ v ∈ ws, v.Grows := by
    intro v hv
    obtain ⟨before, after, rfl⟩ := List.append_of_mem hw
    rcases List.mem_append.1 hv with hv | hv
    · have hsub : [v, w].Sublist (before ++ w :: after) :=
        (List.singleton_sublist.2 hv).append ((List.singleton_sublist.2 List.mem_cons_self))
      exact (h.same_kind hn hsub).2 hgrow
    rcases List.mem_cons.1 hv with rfl | hv
    · exact hgrow
    · have hsub : [w, v].Sublist (before ++ w :: after) :=
        ((List.singleton_sublist.2 hv).cons_cons w).trans (List.sublist_append_right before (w :: after))
      exact (h.same_kind hn hsub).1 hgrow
  refine ⟨hall, ?_⟩
  have hcopies : ∀ v ∈ copies n ws, v.Grows := fun v hv => hall v (mem_copies hv)
  have hsize := congrArg size (h ws (.refl _))
  rw [size_applyAll hcopies, size_applyAll hall, sum_growth_copies] at hsize
  have hpos : 0 < (ws.map growth).sum := by
    obtain ⟨before, after, rfl⟩ := List.append_of_mem hw
    have hw0 : 0 < w.growth := by
      cases w with
      | insert | remove => exact absurd hgrow id
      | append value => exact Nat.succ_pos _
    simp only [List.map_append, List.map_cons, List.sum_append, List.sum_cons]
    omega
  have hmul : n * (ws.map growth).sum = 1 * (ws.map growth).sum := by omega
  exact Nat.eq_of_mul_eq_mul_right hpos hmul

theorem OrderFree.commute (h : OrderFree n ws current) (hn : 0 < n) {v w : Write} (hsub : [v, w].Sublist ws) :
    Commute v w := by
  have hkind := h.same_kind hn hsub
  obtain ⟨rest, hvw, hwv⟩ := h.swap hsub
  have hsame := hvw.trans hwv.symm
  cases v with
  | append v =>
    cases w with
    | insert | remove => exact absurd (hkind.1 trivial) id
    | append w =>
      obtain rfl := (h.once hn (hsub.subset List.mem_cons_self) trivial).2
      have hone : ∀ (x y : Write), applyAll current (copies 1 (rest ++ [x] ++ [y])) =
          y.apply (x.apply (applyAll current (copies 1 rest))) := by
        intro x y
        rw [copies_append, copies_append, applyAll_append, applyAll_append]
        rfl
      rw [hone, hone] at hsame
      cases hc : applyAll current (copies 1 rest) with
      | none =>
        rw [hc] at hsame
        exact Option.some.inj hsame
      | some existing =>
        rw [hc] at hsame
        have htext := congrArg String.toList (Option.some.inj hsame)
        simp only [String.toList_append, List.append_assoc, List.append_cancel_left_eq] at htext
        apply String.toList_inj.1
        simpa only [String.toList_append, List.append_assoc] using htext
  | insert v =>
    rw [applyAll_last (w := insert v) id hn] at hsame
    cases w with
    | append w => exact absurd (hkind.2 trivial) id
    | insert w =>
      rw [applyAll_last (w := insert w) id hn] at hsame
      exact (Option.some.inj hsame).symm
    | remove =>
      rw [applyAll_last (w := remove) id hn] at hsame
      cases hsame
  | remove =>
    rw [applyAll_last (w := remove) id hn] at hsame
    cases w with
    | append w => exact absurd (hkind.2 trivial) id
    | insert w =>
      rw [applyAll_last (w := insert w) id hn] at hsame
      cases hsame
    | remove => trivial

/-- The order of copied writes never matters exactly when they commute, and come once if they grow. -/
theorem orderFree_iff (hn : 0 < n) (ws : List Write) (current : Option String) :
    OrderFree n ws current ↔ ws.Pairwise Commute ∧ (n ≠ 1 → ∀ w ∈ ws, ¬w.Grows) := by
  constructor
  · intro h
    refine ⟨List.pairwise_iff_forall_sublist.2 fun hsub => h.commute hn hsub, fun hone w hw hgrow => ?_⟩
    exact hone (h.once hn hw hgrow).2
  · rintro ⟨hcomm, hgrow⟩ order horder
    exact applyAll_of_perm hn hcomm hgrow (horder.flatMap_right _) current

end Necessary

end Write

end Zht
