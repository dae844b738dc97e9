/-
Interleavings of tasks that each do a list of things in order: the order between the tasks is open.
Whatever the schedule, the things done are those of all tasks (`Interleaves.perm`), and to run the
tasks one after the other, in any order, is a schedule (`interleaves_flatten`).
-/
import Mathlib.Data.List.Perm.Basic

namespace Lib.Interleaving

variable {α β : Type}

/-- `out` is what the tasks do under some schedule. -/
inductive Interleaves : List (List α) → List α → Prop
  | nil : Interleaves [] []
  | finished {before after : List (List α)} {out : List α} :
    Interleaves (before ++ after) out → Interleaves (before ++ [] :: after) out
  | next {before after : List (List α)} {x : α} {rest out : List α} :
    Interleaves (before ++ rest :: after) out → Interleaves (before ++ (x :: rest) :: after) (x :: out)

/-- A schedule does everything once. -/
theorem Interleaves.perm {tasks : List (List α)} {out : List α} (h : Interleaves tasks out) :
    out.Perm tasks.flatten := by
  induction h with
  | nil => exact .refl _
  | @finished before after out _ ih => simpa using ih
  | @next before after x rest out _ ih =>
    refine (ih.cons x).trans ?_
    simp only [List.flatten_append, List.flatten_cons, List.cons_append]
    exact List.perm_middle.symm

/-- A schedule keeps the order within each task. -/
theorem Interleaves.sublist {tasks : List (List α)} {out : List α} (h : Interleaves tasks out) :
    ∀ task ∈ tasks, task.Sublist out := by
  induction h with
  | nil =>
    rintro task ⟨⟩
  | @finished before after out _ ih =>
    rintro task htask
    rcases List.mem_append.1 htask with hb | ha
    · exact ih task (List.mem_append_left _ hb)
    rcases List.mem_cons.1 ha with rfl | ha
    · exact List.nil_sublist _
    · exact ih task (List.mem_append_right _ ha)
  | @next before after x rest out _ ih =>
    rintro task htask
    rcases List.mem_append.1 htask with hb | ha
    · exact (ih task (List.mem_append_left _ hb)).cons _
    rcases List.mem_cons.1 ha with rfl | ha
    · exact (ih rest (List.mem_append_right _ List.mem_cons_self)).cons_cons _
    · exact (ih task (List.mem_append_right _ (List.mem_cons_of_mem _ ha))).cons _

/-- A task may be run to its end at once. -/
theorem Interleaves.run_through {before after : List (List α)} {out : List α} (h : Interleaves (before ++ after) out)
    (task : List α) : Interleaves (before ++ task :: after) (task ++ out) := by
  induction task with
  | nil => exact .finished h
  | cons x rest ih => exact .next ih

/-- The tasks run to their ends one after the other, in any order. -/
theorem interleaves_flatten {order tasks : List (List α)} (h : order.Perm tasks) :
    Interleaves tasks order.flatten := by
  induction order generalizing tasks with
  | nil =>
    rw [List.nil_perm.1 h]
    exact .nil
  | cons task order ih =>
    obtain ⟨before, after, rfl⟩ := List.append_of_mem (h.subset List.mem_cons_self)
    have hrest : order.Perm (before ++ after) := (h.trans List.perm_middle).cons_inv
    exact (ih hrest).run_through task

/-- Any order of what some elements give is an order of the elements. -/
theorem exists_perm_filterMap {f : α → Option β} {xs : List α} {ys : List β} (h : ys.Perm (xs.filterMap f)) :
    ∃ order : List α, order.Perm xs ∧ order.filterMap f = ys := by
  induction ys generalizing xs with
  | nil => exact ⟨xs, .refl _, (List.nil_perm.1 h)⟩
  | cons y ys ih =>
    obtain ⟨x, hx, hy⟩ := List.mem_filterMap.1 (h.subset List.mem_cons_self)
    obtain ⟨before, after, rfl⟩ := List.append_of_mem hx
    have hrest : ys.Perm ((before ++ after).filterMap f) := by
      rw [List.filterMap_append, List.filterMap_cons_some hy] at h
      rw [List.filterMap_append]
      exact (h.trans List.perm_middle).cons_inv
    obtain ⟨order, hperm, hmap⟩ := ih hrest
    refine ⟨x :: order, (hperm.cons x).trans List.perm_middle.symm, ?_⟩
    rw [List.filterMap_cons_some hy, hmap]

end Lib.Interleaving
