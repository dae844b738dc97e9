/-
Runs of deterministic machines. A machine takes an input in a state, answers it and moves on; a run
feeds it a list of inputs. `Along P` says that every step of a run starts in a state and takes an
input that `P` admits: what the steps of a run are allowed to be. The rules here carry a fact about
one step to all of them, for one machine (`after_invariant`, `along_of_invariant`) and for two of
them run side by side (`simulates`). `Leads` says where a machine gets that is left to itself. A
machine whose steps may fail to end or panic is run by `tryRun`; refining a total machine shows that it
does neither (`tryRun_refines`).
-/
import Mathlib.Data.List.Basic
import Mathlib.Logic.Function.Iterate

namespace Lib.Machine

variable {σ τ ι ο : Type}

section Run

variable (step : σ → ι → ο × σ)

/-- The state after the inputs. -/
def after (s : σ) (inputs : List ι) : σ := inputs.foldl (fun s i => (step s i).2) s

/-- What the inputs are answered. -/
def outputs : σ → List ι → List ο
  | _, [] => []
  | s, i :: inputs => (step s i).1 :: outputs (step s i).2 inputs

/-- Every step of the run is admitted. -/
def Along (P : σ → ι → Prop) : σ → List ι → Prop
  | _, [] => True
  | s, i :: inputs => P s i ∧ Along P (step s i).2 inputs

@[simp] theorem after_nil (s : σ) : after step s [] = s := rfl

@[simp] theorem after_cons (s : σ) (i : ι) (inputs : List ι) :
    after step s (i :: inputs) = after step (step s i).2 inputs := rfl

@[simp] theorem outputs_nil (s : σ) : outputs step s [] = [] := rfl

@[simp] theorem outputs_cons (s : σ) (i : ι) (inputs : List ι) :
    outputs step s (i :: inputs) = (step s i).1 :: outputs step (step s i).2 inputs := rfl

@[simp] theorem along_nil (P : σ → ι → Prop) (s : σ) : Along step P s [] := trivial

@[simp] theorem along_cons (P : σ → ι → Prop) (s : σ) (i : ι) (inputs : List ι) :
    Along step P s (i :: inputs) ↔ P s i ∧ Along step P (step s i).2 inputs := Iff.rfl

theorem after_append (s : σ) (xs ys : List ι) : after step s (xs ++ ys) = after step (after step s xs) ys :=
  List.foldl_append

theorem outputs_append (s : σ) (xs ys : List ι) :
    outputs step s (xs ++ ys) = outputs step s xs ++ outputs step (after step s xs) ys := by
  induction xs generalizing s with
  | nil => rfl
  | cons x xs ih => rw [List.cons_append, outputs_cons, outputs_cons, ih, after_cons, List.cons_append]

theorem along_append (P : σ → ι → Prop) (s : σ) (xs ys : List ι) :
    Along step P s (xs ++ ys) ↔ Along step P s xs ∧ Along step P (after step s xs) ys := by
  induction xs generalizing s with
  | nil => simp
  | cons x xs ih => simp [ih, and_assoc]

instance decidableAlong (P : σ → ι → Prop) [∀ s i, Decidable (P s i)] :
    ∀ (s : σ) (inputs : List ι), Decidable (Along step P s inputs)
  | _, [] => inferInstanceAs (Decidable True)
  | s, i :: inputs =>
    have := decidableAlong P (step s i).2 inputs
    inferInstanceAs (Decidable (P s i ∧ Along step P (step s i).2 inputs))

end Run

section Invariant

variable {step : σ → ι → ο × σ} {P Q : σ → ι → Prop} {I : σ → Prop}

/-- A condition on the inputs alone holds along every run that feeds such inputs, and only along those. -/
theorem along_iff_forall_mem {p : ι → Prop} {s : σ} {inputs : List ι} :
    Along step (fun _ => p) s inputs ↔ ∀ i ∈ inputs, p i := by
  induction inputs generalizing s with
  | nil => simp
  | cons i inputs ih => rw [along_cons, ih, List.forall_mem_cons]

theorem along_of_forall {p : ι → Prop} {s : σ} {inputs : List ι} (h : ∀ i ∈ inputs, p i) :
    Along step (fun _ => p) s inputs :=
  along_iff_forall_mem.2 h

theorem along_congr {s : σ} {inputs : List ι} (h : ∀ s, ∀ i ∈ inputs, P s i ↔ Q s i) :
    Along step P s inputs ↔ Along step Q s inputs := by
  induction inputs generalizing s with
  | nil => rfl
  | cons i inputs ih =>
    rw [along_cons, along_cons, h s i List.mem_cons_self, ih fun s j hj => h s j (List.mem_cons_of_mem _ hj)]

/-- What one admitted step preserves, an admitted run preserves. -/
theorem after_invariant (hstep : ∀ s i, I s → P s i → I (step s i).2) {s : σ} (h : I s) {inputs : List ι}
    (hP : Along step P s inputs) : I (after step s inputs) := by
  induction inputs generalizing s with
  | nil => exact h
  | cons i inputs ih => exact ih (hstep s i h hP.1) hP.2

/-- What every step preserves, every run preserves. -/
theorem after_of_step (hstep : ∀ s i, I s → I (step s i).2) {s : σ} (h : I s) (inputs : List ι) :
    I (after step s inputs) :=
  after_invariant (P := fun _ _ => True) (fun s i hs _ => hstep s i hs) h (along_of_forall fun _ _ => trivial)

/-- What the invariant gives for one admitted step holds along the run. -/
theorem along_of_invariant (hstep : ∀ s i, I s → P s i → I (step s i).2) (hQ : ∀ s i, I s → P s i → Q s i)
    {s : σ} (h : I s) {inputs : List ι} (hP : Along step P s inputs) : Along step Q s inputs := by
  induction inputs generalizing s with
  | nil => trivial
  | cons i inputs ih => exact ⟨hQ s i h hP.1, ih (hstep s i h hP.1) hP.2⟩

/-- Where the invariant makes two conditions on a step one, they are one for a run. -/
theorem along_iff_of_invariant (hstep : ∀ s i, I s → P s i → I (step s i).2) (hQ : ∀ s i, I s → (Q s i ↔ P s i))
    {s : σ} (h : I s) {inputs : List ι} : Along step Q s inputs ↔ Along step P s inputs := by
  induction inputs generalizing s with
  | nil => rfl
  | cons i inputs ih =>
    rw [along_cons, along_cons, hQ s i h]
    exact and_congr_right fun hP => ih (hstep s i h hP)

end Invariant

/-- Two machines whose related states answer an admitted input alike, and stay related, answer a
run alike. -/
theorem simulates {step : σ → ι → ο × σ} {spec : τ → ι → ο × τ} {R : σ → τ → Prop} {p : ι → Prop}
    (hstep : ∀ s t i, R s t → p i → (step s i).1 = (spec t i).1 ∧ R (step s i).2 (spec t i).2) {s : σ} {t : τ}
    (h : R s t) {inputs : List ι} (hp : ∀ i ∈ inputs, p i) :
    outputs step s inputs = outputs spec t inputs ∧ R (after step s inputs) (after spec t inputs) := by
  induction inputs generalizing s t with
  | nil => exact ⟨rfl, h⟩
  | cons i inputs ih =>
    obtain ⟨ho, hr⟩ := hstep s t i h (hp i List.mem_cons_self)
    obtain ⟨hos, hrs⟩ := ih hr fun j hj => hp j (List.mem_cons_of_mem _ hj)
    exact ⟨by rw [outputs_cons, outputs_cons, ho, hos], hrs⟩

/-! ## Progress -/

section Progress

variable {step : σ → ι → ο × σ} {i : ι} {P Q : σ → Prop} {s : σ}

variable (step i) in
/-- Fed with one input again and again, the machine comes to a state with the property. -/
def Leads (P : σ → Prop) (s : σ) : Prop := ∃ n, P (after step s (List.replicate n i))

theorem Leads.here (h : P s) : Leads step i P s := ⟨0, h⟩

theorem Leads.next (h : Leads step i P (step s i).2) : Leads step i P s := by
  obtain ⟨n, hn⟩ := h
  exact ⟨n + 1, hn⟩

theorem Leads.trans (h : Leads step i Q s) (hnext : ∀ s, Q s → Leads step i P s) : Leads step i P s := by
  obtain ⟨n, hn⟩ := h
  obtain ⟨m, hm⟩ := hnext _ hn
  refine ⟨n + m, ?_⟩
  rw [List.replicate_add, after_append]
  exact hm

end Progress

/-! ## Counters -/

section Counters

variable (step : σ → ι → ο × σ)

/-- The inputs of a run with their answers. -/
def log (s : σ) (inputs : List ι) : List (ι × ο) := inputs.zip (outputs step s inputs)

@[simp] theorem log_cons (s : σ) (i : ι) (inputs : List ι) :
    log step s (i :: inputs) = (i, (step s i).1) :: log step (step s i).2 inputs := rfl

theorem length_outputs (s : σ) (inputs : List ι) : (outputs step s inputs).length = inputs.length := by
  induction inputs generalizing s with
  | nil => rfl
  | cons i inputs ih => rw [outputs_cons, List.length_cons, List.length_cons, ih]

theorem length_log (s : σ) (inputs : List ι) : (log step s inputs).length = inputs.length := by
  rw [log, List.length_zip, length_outputs, Nat.min_self]

theorem map_snd_log (s : σ) (inputs : List ι) : (log step s inputs).map Prod.snd = outputs step s inputs :=
  List.map_snd_zip (Nat.le_of_eq (length_outputs step s inputs))

/-- What is counted by the inputs alone. -/
theorem countP_log_fst (p : ι → Bool) (s : σ) (inputs : List ι) :
    (log step s inputs).countP (fun e => p e.1) = inputs.countP p := by
  have hfst : (log step s inputs).map Prod.fst = inputs :=
    List.map_fst_zip (Nat.le_of_eq (length_outputs step s inputs).symm)
  conv_rhs => rw [← hfst, List.countP_map]
  rfl

/-- A part of the state that a step moves on exactly if its input and answer are of some kind has moved
on as often as the log holds such. -/
theorem after_counter {step : σ → ι → ο × σ} {α : Type} {f : σ → α} {next : α → α} {P : ι × ο → Bool}
    (hstep : ∀ s i, f (step s i).2 = if P (i, (step s i).1) then next (f s) else f s) :
    ∀ (inputs : List ι) (s : σ), f (after step s inputs) = next^[(log step s inputs).countP P] (f s)
  | [], _ => rfl
  | i :: inputs, s => by
    have hrest := after_counter hstep inputs (step s i).2
    rw [after_cons, hrest, hstep, log_cons, List.countP_cons]
    split <;> rfl

end Counters

/-! ## Non-interference -/

/-- Where the inputs of a group are answered by a part of the state that no other input changes, the
group is answered as it would be alone. -/
theorem log_filter {step : σ → ι → ο × σ} {R : σ → σ → Prop} {p : ι → Bool}
    (hin : ∀ s t i, R s t → p i = true → (step s i).1 = (step t i).1 ∧ R (step s i).2 (step t i).2)
    (hout : ∀ s t i, R s t → p i = false → R (step s i).2 t) {s t : σ} (h : R s t) (inputs : List ι) :
    (log step s inputs).filter (fun e => p e.1) = log step t (inputs.filter p) := by
  induction inputs generalizing s t with
  | nil => rfl
  | cons i inputs ih =>
    rw [log_cons]
    cases hp : p i with
    | true =>
      obtain ⟨hanswer, hnext⟩ := hin s t i h hp
      rw [List.filter_cons_of_pos (by exact hp), List.filter_cons_of_pos hp, log_cons, hanswer, ih hnext]
    | false =>
      rw [List.filter_cons_of_neg (by simp [hp]), List.filter_cons_of_neg (by simp [hp])]
      exact ih (hout s t i h hp)

/-! ## Partial machines -/

/-- A run of a machine whose steps may come to nothing. -/
def tryRun (step : σ → ι → Option (ο × σ)) (s : σ) : List ι → Option (List ο × σ)
  | [] => some ([], s)
  | i :: inputs =>
    match step s i with
    | none => none
    | some (o, s) => (tryRun step s inputs).map (Prod.map (o :: ·) id)

/-- Every step that the run reaches is admitted. -/
def TryAlong (step : σ → ι → Option (ο × σ)) (P : σ → ι → Prop) : σ → List ι → Prop
  | _, [] => True
  | s, i :: inputs => P s i ∧ ∀ o s', step s i = some (o, s') → TryAlong step P s' inputs

/-- A run comes to its end exactly if it reaches admitted steps only, where the admitted ones are
those that come to something. -/
theorem isSome_tryRun_iff {step : σ → ι → Option (ο × σ)} {P : σ → ι → Prop}
    (hstep : ∀ s i, (step s i).isSome = true ↔ P s i) (s : σ) (inputs : List ι) :
    (tryRun step s inputs).isSome = true ↔ TryAlong step P s inputs := by
  induction inputs generalizing s with
  | nil => exact ⟨fun _ => trivial, fun _ => rfl⟩
  | cons i inputs ih =>
    have hi := hstep s i
    rw [TryAlong, ← hi, tryRun]
    cases he : step s i with
    | none => simp
    | some p =>
      obtain ⟨o, s'⟩ := p
      simp only [Option.isSome_map, ih]
      constructor
      · rintro h
        refine ⟨rfl, fun o₁ s₁ h₁ => ?_⟩
        cases h₁
        exact h
      · rintro ⟨-, h⟩
        exact h o s' rfl

/-- A partial machine that answers every admitted input of the total one as that does comes to the
end of every admitted run, with the same answers. -/
theorem tryRun_refines {step : σ → ι → Option (ο × σ)} {spec : τ → ι → ο × τ} {R : σ → τ → Prop}
    {P : τ → ι → Prop}
    (hstep : ∀ s t i, R s t → P t i → ∃ s', step s i = some ((spec t i).1, s') ∧ R s' (spec t i).2)
    {s : σ} {t : τ} (h : R s t) {inputs : List ι} (hP : Along spec P t inputs) :
    ∃ s', tryRun step s inputs = some (outputs spec t inputs, s') ∧ R s' (after spec t inputs) := by
  induction inputs generalizing s t with
  | nil => exact ⟨s, rfl, h⟩
  | cons i inputs ih =>
    obtain ⟨s₁, he, hr⟩ := hstep s t i h hP.1
    obtain ⟨s₂, hrun, hr'⟩ := ih hr hP.2
    refine ⟨s₂, ?_, hr'⟩
    simp only [tryRun, he, hrun]
    rfl

end Lib.Machine
