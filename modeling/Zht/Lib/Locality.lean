/-
Locality. Objects that stand side by side, each linearizable by itself, are linearizable as one object: the
orders of the objects are merged by taking, of the calls that stand first, the one that was made first. No
call that is left can precede it (`Linearizes.family`).
-/
import Mathlib.Algebra.Order.BigOperators.Group.Finset
import Mathlib.Data.Finset.Max
import Zht.Lib.Linearizable

namespace Lib.Linearizable

variable {σ ι ο κ : Type}

/-! ## When calls are made -/

namespace CallEvent

def call : CallEvent ι ο → Nat
  | invoke c _ | answer c _ => c

/-- The number of a call that is made. -/
def invoked : CallEvent ι ο → Option Nat
  | invoke c _ => some c
  | answer _ _ => none

@[simp] theorem call_invoke (c : Nat) (i : ι) : (invoke c i : CallEvent ι ο).call = c := rfl

@[simp] theorem call_answer (c : Nat) (o : ο) : (answer c o : CallEvent ι ο).call = c := rfl

@[simp] theorem invoked_invoke (c : Nat) (i : ι) : (invoke c i : CallEvent ι ο).invoked = some c := rfl

@[simp] theorem invoked_answer (c : Nat) (o : ο) : (answer c o : CallEvent ι ο).invoked = none := rfl

@[simp] theorem call_rename (f : Nat → Nat) (e : CallEvent ι ο) : (e.rename f).call = f e.call := by
  cases e <;> rfl

end CallEvent

/-- The calls made among those of some numbers. -/
theorem invoked_filter (p : Nat → Bool) (history : List (CallEvent ι ο)) :
    (history.filter fun e => p e.call).filterMap CallEvent.invoked =
      (history.filterMap CallEvent.invoked).filter p := by
  induction history with
  | nil => rfl
  | cons e history ih =>
    cases e with
    | answer c o => cases hp : p c <;> simp [List.filterMap_cons, hp, ih]
    | invoke c i => cases hp : p c <;> simp [hp, ih]

/-- Every call is made once, and none is answered before. -/
structure WellFormed (history : List (CallEvent ι ο)) : Prop where
  once : (history.filterMap CallEvent.invoked).Nodup
  made : ∀ c, ¬ Precedes history c c

/-- The place in the history at which a call is made. -/
def madeAt (history : List (CallEvent ι ο)) (c : Nat) : Nat := history.findIdx fun e => e.invoked = some c

theorem mem_invoked {history : List (CallEvent ι ο)} {c : Nat} {i : ι} (h : CallEvent.invoke c i ∈ history) :
    c ∈ history.filterMap CallEvent.invoked :=
  List.mem_filterMap.2 ⟨_, h, rfl⟩

namespace WellFormed

variable {history : List (CallEvent ι ο)}

theorem nil : WellFormed ([] : List (CallEvent ι ο)) := by
  refine ⟨List.nodup_nil, fun c hp => ?_⟩
  obtain ⟨o, ho⟩ := hp.answer_mem
  cases ho

/-- A call is made under a new number. -/
theorem invoke (h : WellFormed history) {c : Nat} (hc : ∀ e ∈ history, e.call ≠ c) (i : ι) :
    WellFormed (history ++ [.invoke c i]) where
  once := by
    rw [List.filterMap_append, List.nodup_append]
    refine ⟨h.once, List.nodup_singleton c, ?_⟩
    rintro d hd e he rfl
    obtain ⟨x, hx, hxd⟩ := List.mem_filterMap.1 hd
    rw [List.mem_singleton.1 he] at hxd
    cases x with
    | invoke b j => exact hc _ hx (Option.some.inj hxd)
    | answer b o => cases hxd
  made d hp := by
    rcases precedes_append_invoke hp with hp | rfl
    · exact h.made d hp
    · obtain ⟨o, ho⟩ := hp.answer_mem
      rcases List.mem_append.1 ho with ho | ho
      · exact hc _ ho rfl
      · cases List.mem_singleton.1 ho

theorem answer (h : WellFormed history) (c : Nat) (o : ο) : WellFormed (history ++ [.answer c o]) where
  once := by
    rw [List.filterMap_append]
    exact (List.append_nil _).symm ▸ h.once
  made d hp := h.made d (precedes_append_answer hp)

theorem rename (h : WellFormed history) {f : Nat → Nat} (hf : Function.Injective f) :
    WellFormed (history.map (.rename f)) where
  once := by
    have hcomp : (history.map (CallEvent.rename f)).filterMap CallEvent.invoked =
        (history.filterMap CallEvent.invoked).map f := by
      rw [List.filterMap_map, List.map_filterMap]
      congr 1
      funext e
      cases e <;> rfl
    rw [hcomp]
    exact h.once.map hf
  made c hp := by
    obtain ⟨o, ho⟩ := hp.answer_mem
    obtain ⟨d, rfl, -⟩ := answer_mem_rename.1 ho
    exact h.made d (hp.of_rename hf)

/-- A history is well formed where those of the objects are. -/
theorem of_filter [DecidableEq κ] {obj : Nat → κ}
    (h : ∀ x, WellFormed (history.filter fun e => obj e.call = x)) : WellFormed history where
  once := by
    rw [List.nodup_iff_sublist]
    intro c hcc
    have honce := (h (obj c)).once
    rw [invoked_filter (fun d => obj d = obj c), List.nodup_iff_sublist] at honce
    refine honce c ?_
    have hfiltered := hcc.filter fun d => obj d = obj c
    simpa using hfiltered
  made c hp := by
    obtain ⟨o, i, hsub⟩ := hp
    refine (h (obj c)).made c ⟨o, i, ?_⟩
    have hfiltered := hsub.filter fun e => obj e.call = obj c
    simpa using hfiltered

end WellFormed

section Times

variable {history : List (CallEvent ι ο)} {c d e : Nat}

/-- What a call precedes is made after whatever it does not precede. -/
theorem madeAt_lt (h : WellFormed history) (hed : Precedes history e d) (hec : ¬ Precedes history e c) {i : ι}
    (hc : CallEvent.invoke c i ∈ history) : madeAt history c < madeAt history d := by
  obtain ⟨o, j, hsub⟩ := hed
  obtain ⟨early, late, rfl, he, hd⟩ := List.cons_sublist_iff.1 hsub
  rw [List.singleton_sublist] at hd
  have hearly : CallEvent.invoke c i ∈ early := by
    refine (List.mem_append.1 hc).resolve_right fun hlate => hec ⟨o, i, ?_⟩
    exact List.cons_sublist_iff.2 ⟨early, late, rfl, he, List.singleton_sublist.2 hlate⟩
  -- the call that is preceded is not made in the first part
  have hnot : ∀ x ∈ early, ¬ x.invoked = some d := by
    rintro x hx hxd
    have honce := h.once
    rw [List.filterMap_append, List.nodup_append] at honce
    exact honce.2.2 d (List.mem_filterMap.2 ⟨x, hx, hxd⟩) d (mem_invoked hd) rfl
  have hbefore : madeAt (early ++ late) c < early.length := by
    have hlt : early.findIdx (fun x => x.invoked = some c) < early.length :=
      List.findIdx_lt_length_of_exists ⟨_, hearly, by simp⟩
    rw [madeAt, List.findIdx_append, if_pos hlt]
    exact hlt
  have hafter : early.length ≤ madeAt (early ++ late) d := by
    have hlen : early.findIdx (fun x => x.invoked = some d) = early.length :=
      List.findIdx_eq_length.2 fun x hx => by simpa using hnot x hx
    rw [madeAt, List.findIdx_append, if_neg (by omega)]
    omega
  omega

end Times

/-! ## Merging orders -/

section Merge

variable [DecidableEq κ] {history : List (CallEvent ι ο)} {obj : Nat → κ}

/-- May stand in this order. -/
def Ordered (history : List (CallEvent ι ο)) (c d : Done ι ο) : Prop :=
  c.call ≠ d.call ∧ ¬ Precedes history d.call c.call

/-- What is left of the orders of the objects. -/
structure Orders (history : List (CallEvent ι ο)) (obj : Nat → κ) (orders : κ → List (Done ι ο)) : Prop where
  own : ∀ x, ∀ d ∈ orders x, obj d.call = x
  invoked : ∀ x, ∀ d ∈ orders x, CallEvent.invoke d.call d.input ∈ history
  ordered : ∀ x, (orders x).Pairwise (Ordered history)

variable {orders : κ → List (Done ι ο)}

theorem Orders.tail (h : Orders history obj orders) {x : κ} {d : Done ι ο} {rest : List (Done ι ο)}
    (hx : orders x = d :: rest) : Orders history obj (Function.update orders x rest) := by
  have hsub : ∀ y, (Function.update orders x rest y).Sublist (orders y) := by
    intro y
    by_cases hy : y = x
    · subst hy
      rw [Function.update_self, hx]
      exact List.sublist_cons_self d rest
    · rw [Function.update_of_ne hy]
  refine ⟨fun y e he => ?_, fun y e he => ?_, fun y => ?_⟩
  · exact h.own y e ((hsub y).subset he)
  · exact h.invoked y e ((hsub y).subset he)
  · exact (h.ordered y).sublist (hsub y)

/-- Of the calls that stand first, the one made first is preceded by no call that is left. -/
theorem Orders.first (hwf : WellFormed history) (h : Orders history obj orders) {x : κ} {d : Done ι ο}
    {rest : List (Done ι ο)} (hx : orders x = d :: rest)
    (hmin : ∀ y c more, orders y = c :: more → madeAt history d.call ≤ madeAt history c.call) {y : κ} {e : Done ι ο}
    (he : e ∈ Function.update orders x rest y) : Ordered history d e := by
  by_cases hy : y = x
  · subst hy
    rw [Function.update_self] at he
    have hordered := h.ordered y
    rw [hx, List.pairwise_cons] at hordered
    exact hordered.1 e he
  rw [Function.update_of_ne hy] at he
  have hown := h.own y e he
  have hd : obj d.call = x := h.own x d (hx ▸ List.mem_cons_self)
  refine ⟨fun heq => hy (by rw [← hown, ← hd, heq]), fun hp => ?_⟩
  cases hfirst : orders y with
  | nil =>
    rw [hfirst] at he
    cases he
  | cons c more =>
    have hordered := h.ordered y
    rw [hfirst, List.pairwise_cons] at hordered
    have hnot : ¬ Precedes history e.call c.call := by
      rw [hfirst] at he
      rcases List.mem_cons.1 he with rfl | he
      · exact hwf.made _
      · exact (hordered.1 e he).2
    have hlt := madeAt_lt hwf hp hnot (h.invoked y c (hfirst ▸ List.mem_cons_self))
    have hle := hmin y c more hfirst
    omega

/-- There is an order of all calls that is each object's own on the calls of that object. -/
theorem exists_merge (hwf : WellFormed history) (objs : Finset κ) (orders : κ → List (Done ι ο))
    (h : Orders history obj orders) (hobjs : ∀ x, orders x ≠ [] → x ∈ objs) :
    ∃ order : List (Done ι ο), order.Pairwise (Ordered history) ∧
      ∀ x, order.filter (fun d => obj d.call = x) = orders x := by
  -- by the number of the calls that are left
  induction hn : ∑ x ∈ objs, (orders x).length using Nat.strongRecOn generalizing orders with
  | ind n ih =>
    let unfinished := objs.filter fun x => orders x ≠ []
    rcases unfinished.eq_empty_or_nonempty with hempty | hsome
    · refine ⟨[], List.Pairwise.nil, fun x => ?_⟩
      by_contra hne
      have hopen : x ∈ unfinished := Finset.mem_filter.2 ⟨hobjs x (Ne.symm hne), Ne.symm hne⟩
      rw [hempty] at hopen
      cases hopen
    obtain ⟨x, hx, hmin⟩ := Finset.exists_min_image unfinished
      (fun x => ((orders x).head?.map fun d => madeAt history d.call).getD 0) hsome
    obtain ⟨hxobjs, hne⟩ := Finset.mem_filter.1 hx
    obtain ⟨d, rest, hfirst⟩ := List.exists_cons_of_ne_nil hne
    have hearliest : ∀ y c more, orders y = c :: more → madeAt history d.call ≤ madeAt history c.call := by
      intro y c more hy
      have hyne : orders y ≠ [] := by
        rw [hy]
        exact List.cons_ne_nil c more
      have hle := hmin y (Finset.mem_filter.2 ⟨hobjs y hyne, hyne⟩)
      simpa [hfirst, hy] using hle
    have hfewer : ∑ y ∈ objs, (Function.update orders x rest y).length < n := by
      rw [← hn]
      refine Finset.sum_lt_sum (fun y _ => ?_) ⟨x, hxobjs, ?_⟩
      · by_cases hy : y = x
        · subst hy
          rw [Function.update_self, hfirst]
          exact Nat.le_succ _
        · rw [Function.update_of_ne hy]
      · rw [Function.update_self, hfirst]
        exact Nat.lt_succ_self _
    have hleft : ∀ y, Function.update orders x rest y ≠ [] → y ∈ objs := by
      intro y hy
      by_cases hyx : y = x
      · rw [hyx]
        exact hxobjs
      · rw [Function.update_of_ne hyx] at hy
        exact hobjs y hy
    obtain ⟨order, hordered, hproj⟩ := ih _ hfewer _ (h.tail hfirst) hleft rfl
    have hd : obj d.call = x := h.own x d (hfirst ▸ List.mem_cons_self)
    refine ⟨d :: order, List.pairwise_cons.2 ⟨fun e he => ?_, hordered⟩, fun y => ?_⟩
    · have hmem : e ∈ Function.update orders x rest (obj e.call) := by
        rw [← hproj, List.mem_filter]
        exact ⟨he, by simp⟩
      exact h.first hwf hfirst hearliest hmem
    · by_cases hy : y = x
      · subst hy
        rw [List.filter_cons_of_pos (by simpa using hd), hproj, Function.update_self, hfirst]
      · rw [List.filter_cons_of_neg (by simpa [hd] using Ne.symm hy), hproj, Function.update_of_ne hy]

end Merge

/-! ## Objects side by side -/

section Family

variable [DecidableEq κ]

/-- Objects side by side: the input says which one it is for. -/
def family (step : σ → ι → ο × σ) (target : ι → κ) (s : κ → σ) (i : ι) : ο × (κ → σ) :=
  let answered := step (s (target i)) i
  (answered.1, Function.update s (target i) answered.2)

variable {step : σ → ι → ο × σ} {target : ι → κ} {history : List (CallEvent ι ο)} {obj : Nat → κ}
  {orders : κ → List (Done ι ο)}

/-- Each object is left as its own inputs leave it. -/
theorem after_family (s : κ → σ) (inputs : List ι) (x : κ) :
    Machine.after (family step target) s inputs x = Machine.after step (s x) (inputs.filter fun i => target i = x) := by
  induction inputs generalizing s with
  | nil => rfl
  | cons i inputs ih =>
    rw [Machine.after_cons, ih]
    simp only [family]
    by_cases hx : target i = x
    · subst hx
      rw [List.filter_cons_of_pos (by simp), Machine.after_cons, Function.update_self]
    · rw [List.filter_cons_of_neg (by simpa using hx), Function.update_of_ne (Ne.symm hx)]

/-- Calls that each object answers in its order are answered by all of them in a common one. -/
theorem outputs_family {order : List (Done ι ο)} (htarget : ∀ d ∈ order, target d.input = obj d.call) (s : κ → σ)
    (h : ∀ x, (order.filter fun d => obj d.call = x).map Done.output =
      Machine.outputs step (s x) ((order.filter fun d => obj d.call = x).map Done.input)) :
    order.map Done.output = Machine.outputs (family step target) s (order.map Done.input) := by
  induction order generalizing s with
  | nil => rfl
  | cons d order ih =>
    have hd := htarget d List.mem_cons_self
    have hown := h (obj d.call)
    rw [List.filter_cons_of_pos (by simp), List.map_cons, List.map_cons, Machine.outputs_cons, List.cons.injEq] at hown
    obtain ⟨hanswer, hrest⟩ := hown
    have hnext := ih (fun e he => htarget e (List.mem_cons_of_mem d he)) (family step target s d.input).2 fun x => by
      simp only [family, hd]
      by_cases hx : x = obj d.call
      · rw [hx, Function.update_self]
        exact hrest
      · have hother := h x
        rw [List.filter_cons_of_neg (by simpa using Ne.symm hx)] at hother
        rw [Function.update_of_ne hx]
        exact hother
    rw [List.map_cons, List.map_cons, Machine.outputs_cons, hnext, hanswer]
    simp only [family, hd]

/-- If each object is linearizable, so are all of them together, and each is left as in its own order. -/
theorem Linearizes.family (hwf : WellFormed history)
    (htarget : ∀ c i, CallEvent.invoke c i ∈ history → target i = obj c) {s : κ → σ}
    (h : ∀ x, Linearizes step (s x) (history.filter fun e => obj e.call = x) (orders x)) :
    ∃ order, Linearizes (family step target) s history order ∧
      ∀ x, Machine.after (family step target) s (order.map Done.input) x =
        Machine.after step (s x) ((orders x).map Done.input) := by
  have hmade : ∀ x, ∀ d ∈ orders x, CallEvent.invoke d.call d.input ∈ history ∧ obj d.call = x := by
    intro x d hd
    have hmem := (h x).invoked d hd
    rw [List.mem_filter] at hmem
    exact ⟨hmem.1, of_decide_eq_true hmem.2⟩
  have horders : Orders history obj orders := by
    refine ⟨fun x d hd => (hmade x d hd).2, fun x d hd => (hmade x d hd).1, fun x => ?_⟩
    have hdistinct := List.pairwise_map.1 (h x).distinct
    refine (hdistinct.and (h x).realTime).imp_of_mem ?_
    rintro c d hc hd ⟨hne, hreal⟩
    refine ⟨hne, fun hp => hreal ?_⟩
    -- what precedes in the history precedes among the object's own calls
    obtain ⟨o, i, hsub⟩ := hp
    refine ⟨o, i, ?_⟩
    have hfiltered := hsub.filter fun e => obj e.call = x
    rwa [List.filter_cons_of_pos (by simp [(hmade x d hd).2]),
      List.filter_cons_of_pos (by simp [(hmade x c hc).2]), List.filter_nil] at hfiltered
  let objs : Finset κ := ((history.filterMap CallEvent.invoked).map obj).toFinset
  have hobjs : ∀ x, orders x ≠ [] → x ∈ objs := by
    intro x hne
    obtain ⟨d, rest, hx⟩ := List.exists_cons_of_ne_nil hne
    obtain ⟨hmem, hobj⟩ := hmade x d (hx ▸ List.mem_cons_self)
    rw [List.mem_toFinset, ← hobj]
    exact List.mem_map_of_mem (mem_invoked hmem)
  obtain ⟨order, hordered, hproj⟩ := exists_merge hwf objs orders horders hobjs
  have hown : ∀ d ∈ order, d ∈ orders (obj d.call) := by
    intro d hd
    rw [← hproj, List.mem_filter]
    exact ⟨hd, by simp⟩
  have htargets : ∀ d ∈ order, target d.input = obj d.call := fun d hd => htarget _ _ (hmade _ d (hown d hd)).1
  refine ⟨order, ⟨?_, ?_, ?_, ?_, ?_⟩, fun x => ?_⟩
  · exact List.pairwise_map.2 (hordered.imp And.left)
  · exact fun d hd => (hmade _ d (hown d hd)).1
  · intro c o hc
    obtain ⟨i, hi⟩ := (h (obj c)).answered c o (List.mem_filter.2 ⟨hc, by simp⟩)
    rw [← hproj] at hi
    exact ⟨i, (List.mem_filter.1 hi).1⟩
  · refine outputs_family htargets s fun x => ?_
    rw [hproj]
    exact (h x).sequential
  · exact hordered.imp And.right
  · have hinputs : (order.map Done.input).filter (fun i => target i = x) = (orders x).map Done.input := by
      rw [List.filter_map, ← hproj]
      congr 1
      refine List.filter_congr fun d hd => ?_
      simp only [Function.comp_apply, htargets d hd]
    rw [after_family, hinputs]

end Family

end Lib.Linearizable
