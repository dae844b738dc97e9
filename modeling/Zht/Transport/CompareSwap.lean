/-
COMPARE_SWAP as the worker answers it. The status is inferred from the value left under the key, so
a request whose new value is already stored is answered as if it had swapped. `swap_truthful_iff`
says when the status is right, and `swap_exclusive_iff` when it is along a run of competing
requests, of which then at most one succeeds.
-/
import Mathlib.Data.String.Basic
import Zht.Lib.Machine
import Zht.Transport.Worker

namespace Zht

open Lib Lib.Utf8

/-- A COMPARE_SWAP request on a key. -/
structure SwapRequest (z : ZPack) : Prop where
  opcode : fromUtf8Lossy z.opcode = OPC_CMPSWP
  key : z.key ≠ []

/-- Its key, the value it expects and the value it brings, as the worker decodes them. -/
def swapKey (z : ZPack) : String := fromUtf8Lossy z.key

def swapExpected (z : ZPack) : String := fromUtf8Lossy z.val

def swapNew (z : ZPack) : String := fromUtf8Lossy z.newval

/-- The worker's map before a request. -/
def HTWorker.current (w : HTWorker) (key : String) : Option String := w.store.map.lookup key

/-- The status a request gets is `000`. -/
def Succeeds (w : HTWorker) (z : ZPack) : Prop := (w.process z).1.lease = utf8Bytes REC_SUCC

/-- The answer tells the truth: success exactly when the key was absent or held the expected value,
and then the new value is stored; otherwise `-02` with the current value, which stays. -/
def SwapTruthful (w : HTWorker) (z : ZPack) : Prop :=
  match w.current (swapKey z) with
  | none => Succeeds w z ∧ (w.process z).2.current (swapKey z) = some (swapNew z)
  | some current =>
    if current = swapExpected z then Succeeds w z ∧ (w.process z).2.current (swapKey z) = some (swapNew z)
    else (w.process z).1.lease = utf8Bytes REC_CLTFAIL ∧ (w.process z).1.val = utf8Bytes current ∧
      (w.process z).2.current (swapKey z) = some current

/-- The new value is not the one already stored against the expectation. -/
def SwapSound (w : HTWorker) (z : ZPack) : Prop :=
  ∀ current, w.current (swapKey z) = some current → current = swapExpected z ∨ current ≠ swapNew z

instance (w : HTWorker) (z : ZPack) : Decidable (Succeeds w z) :=
  inferInstanceAs (Decidable ((w.process z).1.lease = utf8Bytes REC_SUCC))

instance (w : HTWorker) (z : ZPack) : Decidable (SwapTruthful w z) := by
  unfold SwapTruthful
  split <;> infer_instance

instance (w : HTWorker) (z : ZPack) : Decidable (SwapSound w z) :=
  decidable_of_iff
    (∀ current ∈ w.current (swapKey z), current = swapExpected z ∨ current ≠ swapNew z) Iff.rfl

theorem SwapRequest.command {z : ZPack} (h : SwapRequest z) :
    Command.ofRequest z = .compareSwap (swapKey z) (swapExpected z) (swapNew z) := by
  have hkey : fromUtf8Lossy z.key ≠ "" := fun e => h.key (fromUtf8Lossy_eq_empty.1 e)
  unfold Command.ofRequest
  simp only [if_neg hkey, h.opcode]
  rfl

/-- What the request finds, and what it does: the three ways it can go. -/
theorem swap_cases (w : HTWorker) {z : ZPack} (h : SwapRequest z) :
    ((w.current (swapKey z) = none ∨ w.current (swapKey z) = some (swapExpected z)) ∧ Succeeds w z ∧
        (w.process z).2.current (swapKey z) = some (swapNew z)) ∨
      ∃ current, w.current (swapKey z) = some current ∧ current ≠ swapExpected z ∧
        (w.process z).2.current (swapKey z) = some current ∧
        ((current = swapNew z ∧ Succeeds w z) ∨
          (current ≠ swapNew z ∧ (w.process z).1.lease = utf8Bytes REC_CLTFAIL ∧
            (w.process z).1.val = utf8Bytes current)) := by
  unfold Succeeds HTWorker.current
  rw [w.process_answer, w.process_map, h.command]
  simp only [Command.run]
  rcases NoVoHT.swapped_cases w.store.map (swapKey z) (swapExpected z) (swapNew z) with
    ⟨hc, hs⟩ | ⟨current, hc, he, hs⟩
  · left
    rw [hs]
    simp [hc, Reply.toZPack]
  · right
    rw [hs]
    refine ⟨current, hc, he, ?_⟩
    by_cases hn : current = swapNew z
    · rw [if_pos hn]
      exact ⟨hc, .inl ⟨hn, by rw [Reply.toZPack]⟩⟩
    · rw [if_neg hn]
      exact ⟨hc, .inr ⟨hn, by rw [Reply.toZPack], by rw [Reply.toZPack]⟩⟩

theorem lease_fail_ne_succ : utf8Bytes REC_CLTFAIL ≠ utf8Bytes REC_SUCC := by decide

/-- The answer is truthful exactly when the new value is not already stored against the expectation. -/
theorem swap_truthful_iff (w : HTWorker) {z : ZPack} (h : SwapRequest z) : SwapTruthful w z ↔ SwapSound w z := by
  unfold SwapTruthful SwapSound
  rcases swap_cases w h with ⟨hc | hc, hs, ha⟩ | ⟨current, hc, hne, ha, ⟨hn, hs⟩ | ⟨hn, hl, hv⟩⟩
  · simp [hc, hs, ha]
  · simp [hc, hs, ha]
  · -- the defect: the lease says success although nothing was swapped
    have hl : (w.process z).1.lease ≠ utf8Bytes REC_CLTFAIL := fun e => lease_fail_ne_succ (e.symm.trans hs)
    rw [hc]
    simp only [if_neg hne, Option.some.injEq, forall_eq', hl, false_and, false_iff, not_or, not_not]
    exact ⟨hne, hn⟩
  · rw [hc]
    simp only [if_neg hne, Option.some.injEq, forall_eq', hl, hv, ha, and_self, true_iff]
    exact .inr hn

/-! ## Competing requests -/

/-- Requests of any clients on one key, with one expected value and other new values. -/
structure Competing (target expected : String) (z : ZPack) : Prop extends SwapRequest z where
  key_eq : swapKey z = target
  expected_eq : swapExpected z = expected
  new_ne : swapNew z ≠ expected

/-- The number of requests of a run that are answered `000`. -/
def successes (w : HTWorker) (requests : List ZPack) : Nat :=
  (Machine.outputs HTWorker.process w requests).countP (fun answer => answer.lease = utf8Bytes REC_SUCC)

theorem successes_cons (w : HTWorker) (z : ZPack) (requests : List ZPack) :
    successes w (z :: requests) = successes (w.process z).2 requests + if Succeeds w z then 1 else 0 := by
  unfold successes Succeeds
  rw [Machine.outputs_cons, List.countP_cons]
  simp only [decide_eq_true_eq]
  congr

/-- Once the key no longer holds the expected value, no sound request succeeds. -/
theorem successes_of_ne {key expected current : String} {requests : List ZPack}
    (hz : ∀ z ∈ requests, Competing key expected z) {w : HTWorker} (hc : w.current key = some current)
    (hne : current ≠ expected) (hsound : Machine.Along HTWorker.process SwapSound w requests) :
    successes w requests = 0 := by
  induction requests generalizing w with
  | nil => rfl
  | cons z requests ih =>
    have h := hz z List.mem_cons_self
    obtain ⟨hs, hrest⟩ := hsound
    rw [successes_cons]
    rcases swap_cases w h.toSwapRequest with ⟨hc' | hc', -, -⟩ | ⟨v, hc', -, ha, ⟨hn, -⟩ | ⟨-, hl, -⟩⟩
    · rw [h.key_eq, hc] at hc'; cases hc'
    · rw [h.key_eq, hc, h.expected_eq] at hc'
      exact absurd (Option.some.inj hc') hne
    · have hv := hs v hc'
      rw [h.key_eq, hc] at hc'
      cases hc'
      rcases hv with hv | hv
      · exact absurd (hv.trans h.expected_eq) hne
      · exact absurd hn hv
    · rw [h.key_eq] at ha hc'
      rw [hc] at hc'
      cases hc'
      have hno : ¬ Succeeds w z := fun e => lease_fail_ne_succ (hl.symm.trans e)
      rw [ih (fun y hy => hz y (List.mem_cons_of_mem _ hy)) ha hrest, if_neg hno]

/-- Of sound requests that compete for an existing key at most one succeeds. -/
theorem successes_le_one {key expected current : String} {requests : List ZPack}
    (hz : ∀ z ∈ requests, Competing key expected z) {w : HTWorker} (hc : w.current key = some current)
    (hsound : Machine.Along HTWorker.process SwapSound w requests) : successes w requests ≤ 1 := by
  by_cases hne : current = expected
  · subst hne
    cases requests with
    | nil => exact Nat.zero_le _
    | cons z requests =>
      have h := hz z List.mem_cons_self
      have hz' : ∀ y ∈ requests, Competing key current y := fun y hy => hz y (List.mem_cons_of_mem _ hy)
      rw [successes_cons]
      -- whoever comes first swaps, and leaves another value for the rest
      rcases swap_cases w h.toSwapRequest with ⟨-, -, ha⟩ | ⟨v, hc', hv, -, -⟩
      · rw [h.key_eq] at ha
        rw [successes_of_ne hz' ha h.new_ne hsound.2]
        split <;> decide
      · rw [h.key_eq, hc, h.expected_eq] at *
        exact absurd (Option.some.inj hc').symm hv
  · rw [successes_of_ne hz hc hne hsound]
    exact Nat.zero_le _

/-- Compare-and-swap, exactly: a single answer is truthful if and only if the request is sound, and
of competing requests all answers are truthful and at most one succeeds if and only if every request
is sound when it is processed. -/
theorem swap_exclusive_iff (w : HTWorker) :
    (∀ z : ZPack, SwapRequest z → (SwapTruthful w z ↔ SwapSound w z)) ∧
      ∀ (key expected current : String) (requests : List ZPack), w.current key = some current →
        (∀ z ∈ requests, Competing key expected z) →
        ((Machine.Along HTWorker.process SwapTruthful w requests ∧ successes w requests ≤ 1) ↔
          Machine.Along HTWorker.process SwapSound w requests) := by
  refine ⟨fun z h => swap_truthful_iff w h, fun key expected current requests hc hz => ?_⟩
  have halong : Machine.Along HTWorker.process SwapTruthful w requests ↔
      Machine.Along HTWorker.process SwapSound w requests :=
    Machine.along_congr fun w z hm => swap_truthful_iff w (hz z hm).toSwapRequest
  rw [halong]
  exact ⟨And.left, fun hs => ⟨hs, successes_le_one hz hc hs⟩⟩

/-- A request and a worker that holds one entry. -/
def swapOf (key expected newValue : String) : ZPack :=
  { opcode := utf8Bytes OPC_CMPSWP, key := utf8Bytes key, val := utf8Bytes expected, newval := utf8Bytes newValue }

def workerOf (key value : String) : HTWorker :=
  HTWorker.new { NoVoHT.new with map := (∅ : Table).insert key value }

/-- Three competing requests with distinct new values, of which the first swaps. -/
theorem swap_exclusive_example :
    SwapTruthful (workerOf "k" "a") (swapOf "k" "a" "b") ∧
      Machine.Along HTWorker.process SwapTruthful (workerOf "k" "a")
          [swapOf "k" "a" "b", swapOf "k" "a" "c", swapOf "k" "a" "d"] ∧
        successes (workerOf "k" "a") [swapOf "k" "a" "b", swapOf "k" "a" "c", swapOf "k" "a" "d"] ≤ 1 := by
  refine ⟨((swap_exclusive_iff _).1 _ ⟨by decide, by decide⟩).2 (by decide), ?_⟩
  refine ((swap_exclusive_iff (workerOf "k" "a")).2 "k" "a" "a" _ (by decide) ?_).2 (by decide)
  intro z hz
  simp only [List.mem_cons, List.not_mem_nil, or_false] at hz
  rcases hz with rfl | rfl | rfl <;> exact ⟨⟨by decide, by decide⟩, by decide, by decide, by decide⟩

/-- The stored value is the new one and not the expected one: answered `000`. And two clients that
bring the same new value are both told that they swapped. -/
theorem swap_untruthful :
    (SwapRequest (swapOf "k" "a" "b") ∧ (workerOf "k" "b").current "k" = some "b" ∧
        Succeeds (workerOf "k" "b") (swapOf "k" "a" "b") ∧
        ¬ SwapTruthful (workerOf "k" "b") (swapOf "k" "a" "b")) ∧
      Competing "k" "a" (swapOf "k" "a" "b") ∧
      successes (workerOf "k" "a") [swapOf "k" "a" "b", swapOf "k" "a" "b"] = 2 :=
  ⟨⟨⟨by decide, by decide⟩, by decide, by decide, by decide⟩,
    ⟨⟨by decide, by decide⟩, by decide, by decide, by decide⟩, by decide⟩

end Zht
