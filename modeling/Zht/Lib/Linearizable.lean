/-
Linearizability. Calls of a shared object overlap in time; a history of invocations and answers is
linearizable when it is one of calls made one at a time: in some order of the calls that have taken
effect each is answered as the sequential object answers it there, and none stands before a call that
was answered before it was made. The order grows along with the history, by `invoke`, `commit` and
`answer`. A call that changes nothing may learn only later where it took effect: `Point` keeps such a
place in the order while other calls go on, and `insert` puts the call there. An object that is stopped and
taken up again in the state it was in is linearizable as if it had never been stopped (`continue`).
-/
import Mathlib.Data.List.Nodup
import Zht.Lib.Machine

namespace Lib.Linearizable

variable {σ ι ο : Type}

inductive CallEvent (ι ο : Type)
  | invoke (call : Nat) (input : ι)
  | answer (call : Nat) (output : ο)
  deriving DecidableEq, Repr

/-- A call that has taken effect, with its input and what it is answered. -/
structure Done (ι ο : Type) where
  call : Nat
  input : ι
  output : ο
  deriving DecidableEq, Repr

/-- The first call is answered before the second is made. -/
def Precedes (history : List (CallEvent ι ο)) (c d : Nat) : Prop :=
  ∃ o i, [CallEvent.answer c o, CallEvent.invoke d i].Sublist history

/-- The order is one in which the calls of the history may have been made one at a time. -/
structure Linearizes (step : σ → ι → ο × σ) (s : σ) (history : List (CallEvent ι ο)) (order : List (Done ι ο)) :
    Prop where
  distinct : (order.map Done.call).Nodup
  invoked : ∀ d ∈ order, CallEvent.invoke d.call d.input ∈ history
  answered : ∀ c o, CallEvent.answer c o ∈ history → ∃ i, ⟨c, i, o⟩ ∈ order
  sequential : order.map Done.output = Machine.outputs step s (order.map Done.input)
  realTime : order.Pairwise fun c d => ¬ Precedes history d.call c.call

/-! ## What precedes what -/

theorem precedes_append_invoke {history : List (CallEvent ι ο)} {c d e : Nat} {i : ι}
    (h : Precedes (history ++ [.invoke e i]) c d) : Precedes history c d ∨ d = e := by
  obtain ⟨o, j, h⟩ := h
  rcases List.sublist_append_iff.1 h with ⟨xs, ys, he, hxs, hys⟩
  rcases List.sublist_singleton.1 hys with rfl | rfl
  · rw [List.append_nil] at he
    exact .inl ⟨o, j, he ▸ hxs⟩
  · have hlast := congrArg List.getLast? he
    rw [List.getLast?_append] at hlast
    exact .inr (by simpa using hlast : d = e ∧ j = i).1

theorem precedes_append_answer {history : List (CallEvent ι ο)} {c d e : Nat} {o : ο}
    (h : Precedes (history ++ [.answer e o]) c d) : Precedes history c d := by
  obtain ⟨p, j, h⟩ := h
  rcases List.sublist_append_iff.1 h with ⟨xs, ys, he, hxs, hys⟩
  rcases List.sublist_singleton.1 hys with rfl | rfl
  · rw [List.append_nil] at he
    exact ⟨p, j, he ▸ hxs⟩
  · have hlast := congrArg List.getLast? he
    rw [List.getLast?_append] at hlast
    simp at hlast

theorem precedes_of_answered {history : List (CallEvent ι ο)} {c : Nat} {o : ο} (h : CallEvent.answer c o ∈ history)
    (d : Nat) (i : ι) : Precedes (history ++ [.invoke d i]) c d :=
  ⟨o, i, (List.singleton_sublist.2 h).append (List.Sublist.refl [CallEvent.invoke d i])⟩

theorem Precedes.append {history : List (CallEvent ι ο)} {c d : Nat} (h : Precedes history c d)
    (more : List (CallEvent ι ο)) : Precedes (history ++ more) c d := by
  obtain ⟨o, i, h⟩ := h
  exact ⟨o, i, h.trans (List.sublist_append_left _ _)⟩

theorem Precedes.answer_mem {history : List (CallEvent ι ο)} {c d : Nat} (h : Precedes history c d) :
    ∃ o, CallEvent.answer c o ∈ history := by
  obtain ⟨o, i, h⟩ := h
  exact ⟨o, h.subset List.mem_cons_self⟩

theorem Precedes.invoke_mem {history : List (CallEvent ι ο)} {c d : Nat} (h : Precedes history c d) :
    ∃ i, CallEvent.invoke d i ∈ history := by
  obtain ⟨o, i, h⟩ := h
  exact ⟨i, h.subset (List.mem_cons_of_mem _ List.mem_cons_self)⟩

/-! ## The order grows with the history -/

namespace Linearizes

variable {step : σ → ι → ο × σ} {s : σ} {history : List (CallEvent ι ο)} {order before after : List (Done ι ο)}
  {c : Nat} {i : ι}

theorem nil : Linearizes step s [] [] where
  distinct := List.nodup_nil
  invoked := by simp
  answered := by simp
  sequential := rfl
  realTime := List.Pairwise.nil

/-- A call that has not taken effect is not answered, so it precedes none. -/
theorem not_precedes (h : Linearizes step s history order) (hc : c ∉ order.map Done.call) (d : Nat) :
    ¬ Precedes history c d := by
  intro hp
  obtain ⟨o, ho⟩ := hp.answer_mem
  obtain ⟨i, hi⟩ := h.answered c o ho
  exact hc (List.mem_map_of_mem hi)

/-- A call is made. -/
theorem invoke (h : Linearizes step s history order) (hc : c ∉ order.map Done.call) (i : ι) :
    Linearizes step s (history ++ [.invoke c i]) order where
  distinct := h.distinct
  invoked d hd := List.mem_append_left _ (h.invoked d hd)
  answered d o hd := by
    rcases List.mem_append.1 hd with hd | hd
    · exact h.answered d o hd
    · simp at hd
  sequential := h.sequential
  realTime := by
    refine h.realTime.imp_of_mem ?_
    intro d e hd _ hde hp
    rcases precedes_append_invoke hp with hp | rfl
    · exact hde hp
    · exact hc (List.mem_map_of_mem hd)

/-- A call that has taken effect is answered. -/
theorem answer (h : Linearizes step s history order) {d : Done ι ο} (hd : d ∈ order) :
    Linearizes step s (history ++ [.answer d.call d.output]) order where
  distinct := h.distinct
  invoked e he := List.mem_append_left _ (h.invoked e he)
  answered c o hc := by
    rcases List.mem_append.1 hc with hc | hc
    · exact h.answered c o hc
    · obtain ⟨rfl, rfl⟩ : c = d.call ∧ o = d.output := by simpa using hc
      exact ⟨d.input, hd⟩
  sequential := h.sequential
  realTime := h.realTime.imp fun hde hp => hde (precedes_append_answer hp)

/-- A call takes its place in the order, behind every call that was answered before it was made. -/
theorem place (h : Linearizes step s history (before ++ after)) (hc : c ∉ (before ++ after).map Done.call)
    (hi : CallEvent.invoke c i ∈ history) {o : ο} (hlate : ∀ d ∈ after, ¬ Precedes history d.call c)
    (hseq : (before ++ ⟨c, i, o⟩ :: after).map Done.output =
      Machine.outputs step s ((before ++ ⟨c, i, o⟩ :: after).map Done.input)) :
    Linearizes step s history (before ++ ⟨c, i, o⟩ :: after) where
  distinct := by
    have hperm : ((before ++ ⟨c, i, o⟩ :: after).map Done.call).Perm (c :: (before ++ after).map Done.call) :=
      List.perm_middle.map Done.call
    exact hperm.nodup_iff.2 (List.nodup_cons.2 ⟨hc, h.distinct⟩)
  invoked d hd := by
    rcases List.mem_cons.1 (List.perm_middle.subset hd) with rfl | hd
    · exact hi
    · exact h.invoked d hd
  answered d p hd := by
    obtain ⟨j, hj⟩ := h.answered d p hd
    exact ⟨j, List.perm_middle.symm.subset (List.mem_cons_of_mem _ hj)⟩
  sequential := hseq
  realTime := by
    obtain ⟨hbefore, hafter, hcross⟩ := List.pairwise_append.1 h.realTime
    refine List.pairwise_append.2 ⟨hbefore, List.pairwise_cons.2 ⟨hlate, hafter⟩, ?_⟩
    rintro d hd e he
    rcases List.mem_cons.1 he with rfl | he
    · exact h.not_precedes hc d.call
    · exact hcross d hd e he

/-- A call takes effect now. -/
theorem commit (h : Linearizes step s history order) (hc : c ∉ order.map Done.call)
    (hi : CallEvent.invoke c i ∈ history) :
    Linearizes step s history
      (order ++ [⟨c, i, (step (Machine.after step s (order.map Done.input)) i).1⟩]) := by
  have hall : Linearizes step s history (order ++ []) := by rwa [List.append_nil]
  refine hall.place (by rwa [List.append_nil]) hi (by simp) ?_
  rw [List.map_append, List.map_append, Machine.outputs_append, h.sequential]
  rfl

end Linearizes

/-- The order as a run of the sequential object. -/
theorem Linearizes.log_eq {step : σ → ι → ο × σ} {s : σ} {history : List (CallEvent ι ο)} {order : List (Done ι ο)}
    (h : Linearizes step s history order) :
    Machine.log step s (order.map Done.input) = order.map fun d => (d.input, d.output) := by
  rw [Machine.log, ← h.sequential, List.zip_map']

/-- Calls that were made one after the other take effect one after the other. -/
theorem sublist_of_precedes {history : List (CallEvent ι ο)} {order done : List (Done ι ο)}
    (hreal : order.Pairwise fun c d => ¬ Precedes history d.call c.call) (hmem : ∀ d ∈ done, d ∈ order)
    (hnodup : done.Nodup) (hchain : done.Pairwise fun d e => Precedes history d.call e.call) :
    done.Sublist order := by
  induction order generalizing done with
  | nil =>
    rw [List.eq_nil_iff_forall_not_mem.2 fun d hd => List.not_mem_nil (hmem d hd)]
  | cons x order ih =>
    rw [List.pairwise_cons] at hreal
    cases done with
    | nil => exact List.nil_sublist _
    | cons d done =>
      rw [List.nodup_cons] at hnodup
      rw [List.pairwise_cons] at hchain
      by_cases hd : d = x
      · subst hd
        refine (ih hreal.2 (fun e he => ?_) hnodup.2 hchain.2).cons_cons d
        exact (List.mem_cons.1 (hmem e (List.mem_cons_of_mem _ he))).resolve_left fun h => hnodup.1 (h ▸ he)
      · have hdo := (List.mem_cons.1 (hmem d List.mem_cons_self)).resolve_left hd
        refine (ih hreal.2 (fun e he => ?_) (List.nodup_cons.2 hnodup) (List.pairwise_cons.2 hchain)).cons x
        refine (List.mem_cons.1 (hmem e he)).resolve_left fun h => ?_
        subst h
        rcases List.mem_cons.1 he with rfl | he
        · exact hd rfl
        · exact hreal.1 d hdo (hchain.1 e he)

/-! ## Places in the order -/

section Point

variable {step : σ → ι → ο × σ} {s : σ} {history : List (CallEvent ι ο)} {order : List (Done ι ο)} {c : Nat}
  {P : σ → Prop}

/-- A place in the order, behind every call that was answered before this one was made, at which the
object is as `P` says. -/
def Point (step : σ → ι → ο × σ) (s : σ) (history : List (CallEvent ι ο)) (order : List (Done ι ο)) (c : Nat)
    (P : σ → Prop) : Prop :=
  ∃ before after, order = before ++ after ∧ P (Machine.after step s (before.map Done.input)) ∧
    ∀ d ∈ after, ¬ Precedes history d.call c

theorem Point.here (h : P (Machine.after step s (order.map Done.input))) : Point step s history order c P :=
  ⟨order, [], (List.append_nil order).symm, h, by simp⟩

theorem Point.imp {Q : σ → Prop} (h : Point step s history order c P) (hPQ : ∀ t, P t → Q t) :
    Point step s history order c Q := by
  obtain ⟨before, after, he, hP, hlate⟩ := h
  exact ⟨before, after, he, hPQ _ hP, hlate⟩

theorem Point.invoke (h : Point step s history order c P) {d : Nat} (hd : c ≠ d) (i : ι) :
    Point step s (history ++ [.invoke d i]) order c P := by
  obtain ⟨before, after, he, hP, hlate⟩ := h
  refine ⟨before, after, he, hP, fun e hmem hp => ?_⟩
  rcases precedes_append_invoke hp with hp | rfl
  · exact hlate e hmem hp
  · exact hd rfl

theorem Point.answer (h : Point step s history order c P) (d : Nat) (o : ο) :
    Point step s (history ++ [.answer d o]) order c P := by
  obtain ⟨before, after, he, hP, hlate⟩ := h
  exact ⟨before, after, he, hP, fun e hmem hp => hlate e hmem (precedes_append_answer hp)⟩

/-- Another call takes effect behind the place. -/
theorem Point.commit (h : Point step s history order c P) {d : Done ι ο} (hd : ¬ Precedes history d.call c) :
    Point step s history (order ++ [d]) c P := by
  obtain ⟨before, after, rfl, hP, hlate⟩ := h
  refine ⟨before, after ++ [d], List.append_assoc _ _ _, hP, fun e he => ?_⟩
  rcases List.mem_append.1 he with he | he
  · exact hlate e he
  · rw [List.mem_singleton.1 he]
    exact hd

/-- The inputs around one that changes nothing lead to the same states with and without it. -/
theorem after_idle {before : List ι} {i : ι}
    (h : (step (Machine.after step s before) i).2 = Machine.after step s before) (rest : List ι) :
    Machine.after step s (before ++ i :: rest) = Machine.after step s (before ++ rest) := by
  rw [Machine.after_append, Machine.after_cons, h, Machine.after_append]

/-- Another call takes its place in the order, before or behind this one, and changes nothing there. -/
theorem Point.insert {before after : List (Done ι ο)} (h : Point step s history (before ++ after) c P)
    {d : Done ι ο} (hd : ¬ Precedes history d.call c)
    (hidle : (step (Machine.after step s (before.map Done.input)) d.input).2 =
      Machine.after step s (before.map Done.input)) :
    Point step s history (before ++ d :: after) c P := by
  obtain ⟨left, right, he, hP, hlate⟩ := h
  rcases List.append_eq_append_iff.1 he with ⟨between, rfl, rfl⟩ | ⟨between, rfl, rfl⟩
  · -- the call is placed before this one's place
    refine ⟨before ++ d :: between, right, by simp, ?_, hlate⟩
    rw [List.map_append, List.map_cons, after_idle hidle, ← List.map_append]
    exact hP
  · refine ⟨left, between ++ d :: after, by simp, hP, fun e hmem => ?_⟩
    rcases List.mem_cons.1 (List.perm_middle.subset hmem) with rfl | hmem
    · exact hd
    · exact hlate e hmem

/-- A call that changes nothing at its place takes effect there. -/
theorem Linearizes.insert (h : Linearizes step s history order) (hc : c ∉ order.map Done.call) {i : ι}
    (hi : CallEvent.invoke c i ∈ history) {o : ο} (hpoint : Point step s history order c fun t => step t i = (o, t)) :
    ∃ before after, order = before ++ after ∧
      (step (Machine.after step s (before.map Done.input)) i).2 = Machine.after step s (before.map Done.input) ∧
      Linearizes step s history (before ++ ⟨c, i, o⟩ :: after) := by
  obtain ⟨before, after, rfl, hP, hlate⟩ := hpoint
  have hidle := congrArg Prod.snd hP
  refine ⟨before, after, rfl, hidle, h.place hc hi hlate ?_⟩
  have hseq := h.sequential
  rw [List.map_append, List.map_append, Machine.outputs_append] at hseq
  obtain ⟨hbefore, hafter⟩ := List.append_inj hseq (by rw [List.length_map, Machine.length_outputs, List.length_map])
  rw [List.map_append, List.map_append, List.map_cons, List.map_cons, Machine.outputs_append, Machine.outputs_cons,
    hP, hbefore, hafter]

end Point

/-! ## One history behind another -/

/-- The event of the same call under another number. -/
def CallEvent.rename (f : Nat → Nat) : CallEvent ι ο → CallEvent ι ο
  | .invoke c i => .invoke (f c) i
  | .answer c o => .answer (f c) o

def Done.rename (f : Nat → Nat) (d : Done ι ο) : Done ι ο := { d with call := f d.call }

/-- Numbered behind `n` others. -/
abbrev CallEvent.shift (n : Nat) : CallEvent ι ο → CallEvent ι ο := .rename (n + ·)

abbrev Done.shift (n : Nat) : Done ι ο → Done ι ο := .rename (n + ·)

section Rename

variable {history : List (CallEvent ι ο)} {f : Nat → Nat} {c d : Nat} {i : ι} {o : ο}

theorem invoke_mem_rename :
    CallEvent.invoke c i ∈ history.map (.rename f) ↔ ∃ d, c = f d ∧ CallEvent.invoke d i ∈ history := by
  rw [List.mem_map]
  constructor
  · rintro ⟨e, he, heq⟩
    cases e with
    | invoke d j =>
      obtain ⟨rfl, rfl⟩ := CallEvent.invoke.inj heq
      exact ⟨d, rfl, he⟩
    | answer d o => cases heq
  · rintro ⟨d, rfl, hd⟩
    exact ⟨_, hd, rfl⟩

theorem answer_mem_rename :
    CallEvent.answer c o ∈ history.map (.rename f) ↔ ∃ d, c = f d ∧ CallEvent.answer d o ∈ history := by
  rw [List.mem_map]
  constructor
  · rintro ⟨e, he, heq⟩
    cases e with
    | invoke d j => cases heq
    | answer d p =>
      obtain ⟨rfl, rfl⟩ := CallEvent.answer.inj heq
      exact ⟨d, rfl, he⟩
  · rintro ⟨d, rfl, hd⟩
    exact ⟨_, hd, rfl⟩

theorem Precedes.of_rename (hf : Function.Injective f) (h : Precedes (history.map (.rename f)) (f c) (f d)) :
    Precedes history c d := by
  obtain ⟨o, i, h⟩ := h
  obtain ⟨events, hsub, he⟩ := List.sublist_map_iff.1 h
  obtain ⟨first, rest, rfl, hfirst, hrest⟩ := List.map_eq_cons_iff.1 he.symm
  obtain ⟨second, rfl, hsecond⟩ := List.map_eq_singleton_iff.1 hrest
  cases first with
  | invoke => cases hfirst
  | answer c' o' =>
    cases second with
    | answer => cases hsecond
    | invoke d' i' =>
      obtain ⟨hc, rfl⟩ := CallEvent.answer.inj hfirst
      obtain ⟨hd, rfl⟩ := CallEvent.invoke.inj hsecond
      obtain rfl := hf hc
      obtain rfl := hf hd
      exact ⟨o', i', hsub⟩

theorem map_output_rename (order : List (Done ι ο)) : (order.map (.rename f)).map Done.output = order.map Done.output :=
  List.map_map

theorem map_input_rename (order : List (Done ι ο)) : (order.map (.rename f)).map Done.input = order.map Done.input :=
  List.map_map

theorem map_call_rename (order : List (Done ι ο)) : (order.map (.rename f)).map Done.call = (order.map Done.call).map f := by
  rw [List.map_map, List.map_map]
  rfl

/-- The numbers of the calls do not matter. -/
theorem Linearizes.rename {step : σ → ι → ο × σ} {s : σ} {order : List (Done ι ο)} (hf : Function.Injective f)
    (h : Linearizes step s history order) : Linearizes step s (history.map (.rename f)) (order.map (.rename f)) where
  distinct := by
    rw [map_call_rename]
    exact h.distinct.map hf
  invoked d hd := by
    obtain ⟨e, he, rfl⟩ := List.mem_map.1 hd
    exact invoke_mem_rename.2 ⟨e.call, rfl, h.invoked e he⟩
  answered c o hc := by
    obtain ⟨d, rfl, hd⟩ := answer_mem_rename.1 hc
    obtain ⟨i, hi⟩ := h.answered d o hd
    exact ⟨i, List.mem_map_of_mem (f := Done.rename f) hi⟩
  sequential := by
    rw [map_output_rename, map_input_rename]
    exact h.sequential
  realTime := by
    rw [List.pairwise_map]
    exact h.realTime.imp fun hde hp => hde (Precedes.of_rename hf hp)

end Rename

/-- A call of the first part precedes one that is not made in the second, in the first part. -/
theorem Precedes.left {history more : List (CallEvent ι ο)} {c d : Nat} (h : Precedes (history ++ more) c d)
    (hd : ∀ i, CallEvent.invoke d i ∉ more) : Precedes history c d := by
  obtain ⟨o, i, h⟩ := h
  obtain ⟨xs, ys, he, hxs, hys⟩ := List.sublist_append_iff.1 h
  rcases List.eq_nil_or_concat' ys with rfl | ⟨init, last, rfl⟩
  · rw [List.append_nil] at he
    exact ⟨o, i, he ▸ hxs⟩
  · have hlast := congrArg List.getLast? he
    rw [← List.append_assoc, List.getLast?_concat] at hlast
    obtain rfl : CallEvent.invoke d i = last := by simpa using hlast
    exact absurd (hys.subset (List.mem_append_right _ List.mem_cons_self)) (hd i)

/-- What precedes after the first part, where it is not answered, precedes in the second. -/
theorem Precedes.right {history more : List (CallEvent ι ο)} {c d : Nat} (h : Precedes (history ++ more) c d)
    (hc : ∀ o, CallEvent.answer c o ∉ history) : Precedes more c d := by
  obtain ⟨o, i, h⟩ := h
  obtain ⟨xs, ys, he, hxs, hys⟩ := List.sublist_append_iff.1 h
  cases xs with
  | nil =>
    rw [List.nil_append] at he
    exact ⟨o, i, he ▸ hys⟩
  | cons x xs =>
    rw [List.cons_append, List.cons.injEq] at he
    obtain ⟨rfl, -⟩ := he
    exact absurd (hxs.subset List.mem_cons_self) (hc o)

/-- The object is left to itself and goes on in the state it was in, with calls numbered on: the calls that
were under way and have not taken effect never do. -/
theorem Linearizes.continue {step : σ → ι → ο × σ} {s : σ} {history later : List (CallEvent ι ο)}
    {order next : List (Done ι ο)} {n : Nat} (h : Linearizes step s history order)
    (hn : ∀ d ∈ order, d.call < n) (h' : Linearizes step (Machine.after step s (order.map Done.input)) later next) :
    Linearizes step s (history ++ later.map (.shift n)) (order ++ next.map (.shift n)) := by
  have hshifted := h'.rename (f := (n + ·)) fun _ _ => Nat.add_left_cancel
  have hlate : ∀ d ∈ next.map (Done.shift n), n ≤ d.call := by
    intro d hd
    obtain ⟨e, -, rfl⟩ := List.mem_map.1 hd
    exact Nat.le_add_right n e.call
  have hfresh : ∀ c i, CallEvent.invoke c i ∈ later.map (CallEvent.shift n) → n ≤ c := by
    intro c i hc
    obtain ⟨d, rfl, -⟩ := invoke_mem_rename.1 hc
    exact Nat.le_add_right n d
  have hunseen : ∀ c o, n ≤ c → CallEvent.answer c o ∉ history := by
    intro c o hc ho
    obtain ⟨i, hi⟩ := h.answered c o ho
    have hlt : c < n := hn _ hi
    omega
  constructor
  · rw [List.map_append, List.nodup_append]
    refine ⟨h.distinct, hshifted.distinct, ?_⟩
    rintro c hc e he rfl
    obtain ⟨d, hd, rfl⟩ := List.mem_map.1 hc
    obtain ⟨f, hf, heq⟩ := List.mem_map.1 he
    have hlt := hn d hd
    have hge := hlate f hf
    omega
  · rintro d hd
    rcases List.mem_append.1 hd with hd | hd
    · exact List.mem_append_left _ (h.invoked d hd)
    · exact List.mem_append_right _ (hshifted.invoked d hd)
  · rintro c o hc
    rcases List.mem_append.1 hc with hc | hc
    · obtain ⟨i, hi⟩ := h.answered c o hc
      exact ⟨i, List.mem_append_left _ hi⟩
    · obtain ⟨i, hi⟩ := hshifted.answered c o hc
      exact ⟨i, List.mem_append_right _ hi⟩
  · rw [List.map_append, List.map_append, Machine.outputs_append, h.sequential, hshifted.sequential, map_input_rename]
  · have hearly : ∀ d ∈ order, ∀ i, CallEvent.invoke d.call i ∉ later.map (CallEvent.shift n) := by
      intro d hd i hi
      have hlt := hn d hd
      have hge := hfresh _ i hi
      omega
    refine List.pairwise_append.2 ⟨?_, ?_, ?_⟩
    · refine h.realTime.imp_of_mem ?_
      intro d e hd _ hde hp
      exact hde (hp.left (hearly d hd))
    · refine hshifted.realTime.imp_of_mem ?_
      intro d e _ he hde hp
      exact hde (hp.right fun o => hunseen _ o (hlate e he))
    · rintro d hd e he hp
      obtain ⟨i, hi⟩ := (hp.right fun o => hunseen _ o (hlate e he)).invoke_mem
      exact hearly d hd i hi

end Lib.Linearizable
