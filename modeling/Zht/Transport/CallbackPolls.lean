/-
State change callbacks against a clock. The worker polls at once and then every 100 ms, and looks at
the deadline only after a poll that saw no match; `sccbRun` is its loop with the time it ends at. What
a run comes to is said once (`sccbRun_spec`): some polls without a match before the deadline, and a last
one that matches or is at or behind it. The stored value is any function of real time.
-/
import Mathlib.Algebra.Order.Archimedean.Real.Basic
import Zht.Transport.Worker

namespace Zht

/-- The polling loop with the time of its last poll. -/
def sccbRun (value : Nat → Option String) (expected : String) (lease now : Nat) : String × Nat :=
  if value now = some expected then (REC_SUCC, now)
  else if lease ≤ now then (REC_SCCBPOLLTRY, now)
  else sccbRun value expected lease (now + SCCB_POLL_DEFAULT_INTERVAL)
termination_by lease - now
decreasing_by
  rename_i h
  exact Nat.sub_lt_sub_left (Nat.not_le.1 h) (Nat.lt_add_of_pos_right (by decide))

/-- It answers what the worker's loop answers. -/
theorem sccbRun_fst (value : Nat → Option String) (expected : String) (lease now : Nat) :
    (sccbRun value expected lease now).1 = sccbPoll value expected lease now := by
  fun_induction sccbRun value expected lease now with
  | case1 now hmatch => rw [sccbPoll, if_pos hmatch]
  | case2 now hmatch hlease => rw [sccbPoll, if_neg hmatch, if_pos hlease]
  | case3 now hmatch hlease ih => rw [sccbPoll, if_neg hmatch, if_neg hlease, ih]

/-- The polls of a run that ends at time `finish`: none before the last one saw a match, and they were
all before the deadline. -/
structure PollsUntil (value : Nat → Option String) (expected : String) (lease now polls : Nat) : Prop where
  noMatch : ∀ poll < polls, value (now + SCCB_POLL_DEFAULT_INTERVAL * poll) ≠ some expected
  early : ∀ poll < polls, now + SCCB_POLL_DEFAULT_INTERVAL * poll < lease

theorem sccbRun_spec (value : Nat → Option String) (expected : String) (lease now : Nat) :
    ∃ polls, PollsUntil value expected lease now polls ∧
      (sccbRun value expected lease now).2 = now + SCCB_POLL_DEFAULT_INTERVAL * polls ∧
      ((sccbRun value expected lease now).1 = REC_SUCC ∧
          value (sccbRun value expected lease now).2 = some expected ∨
        (sccbRun value expected lease now).1 = REC_SCCBPOLLTRY ∧
          value (sccbRun value expected lease now).2 ≠ some expected ∧
          lease ≤ (sccbRun value expected lease now).2) := by
  fun_induction sccbRun value expected lease now with
  | case1 now hmatch => exact ⟨0, ⟨fun _ h => by omega, fun _ h => by omega⟩, rfl, .inl ⟨rfl, hmatch⟩⟩
  | case2 now hmatch hlease =>
    exact ⟨0, ⟨fun _ h => by omega, fun _ h => by omega⟩, rfl, .inr ⟨rfl, hmatch, hlease⟩⟩
  | case3 now hmatch hlease ih =>
    obtain ⟨polls, ⟨hno, hearly⟩, hend, hanswer⟩ := ih
    have hshift (poll : Nat) : now + SCCB_POLL_DEFAULT_INTERVAL + SCCB_POLL_DEFAULT_INTERVAL * poll =
        now + SCCB_POLL_DEFAULT_INTERVAL * (poll + 1) := by
      rw [Nat.mul_succ, Nat.add_assoc, Nat.add_comm SCCB_POLL_DEFAULT_INTERVAL]
    refine ⟨polls + 1, ⟨?_, ?_⟩, by rw [hend, hshift], hanswer⟩
    · rintro (_ | poll) h
      · exact hmatch
      · rw [← hshift]
        exact hno poll (by omega)
    · rintro (_ | poll) h
      · exact Nat.not_le.1 hlease
      · rw [← hshift]
        exact hearly poll (by omega)

/-! ## Spans of time and polls -/

/-- Every span of 100 ms that has its first moment holds a poll. -/
theorem exists_poll_Ico {a : ℝ} (ha : 0 ≤ a) :
    ∃ poll : Nat, a ≤ ((SCCB_POLL_DEFAULT_INTERVAL * poll : Nat) : ℝ) ∧
      ((SCCB_POLL_DEFAULT_INTERVAL * poll : Nat) : ℝ) < a + 100 := by
  have hle := Nat.le_ceil (a / 100)
  have hlt := Nat.ceil_lt_add_one (div_nonneg ha (by norm_num : (0 : ℝ) ≤ 100))
  refine ⟨⌈a / 100⌉₊, ?_, ?_⟩ <;>
    · rw [SCCB_POLL_DEFAULT_INTERVAL]
      push_cast
      linarith

/-- And every one that has its last moment. -/
theorem exists_poll_Ioc {a : ℝ} (ha : 0 ≤ a) :
    ∃ poll : Nat, a < ((SCCB_POLL_DEFAULT_INTERVAL * poll : Nat) : ℝ) ∧
      ((SCCB_POLL_DEFAULT_INTERVAL * poll : Nat) : ℝ) ≤ a + 100 := by
  have hle := Nat.floor_le (div_nonneg ha (by norm_num : (0 : ℝ) ≤ 100))
  have hlt := Nat.lt_floor_add_one (a / 100)
  refine ⟨⌊a / 100⌋₊ + 1, ?_, ?_⟩ <;>
    · rw [SCCB_POLL_DEFAULT_INTERVAL]
      push_cast
      linarith

/-- A match that lasts 100 ms, first or last moment included, is seen by a poll within it. -/
theorem exists_poll_of_stable {timeline : ℝ → Option String} {expected : String} {a b : ℝ} (ha : 0 ≤ a)
    (hab : a + 100 ≤ b)
    (hstable : (∀ t, a ≤ t → t < b → timeline t = some expected) ∨ ∀ t, a < t → t ≤ b → timeline t = some expected) :
    ∃ poll : Nat, ((SCCB_POLL_DEFAULT_INTERVAL * poll : Nat) : ℝ) ≤ b ∧
      timeline ((SCCB_POLL_DEFAULT_INTERVAL * poll : Nat) : ℝ) = some expected := by
  rcases hstable with hstable | hstable
  · obtain ⟨poll, hfirst, hlast⟩ := exists_poll_Ico ha
    have hb := hlast.trans_le hab
    exact ⟨poll, hb.le, hstable _ hfirst hb⟩
  · obtain ⟨poll, hfirst, hlast⟩ := exists_poll_Ioc ha
    have hb := hlast.trans hab
    exact ⟨poll, hb, hstable _ hfirst hb⟩

/-- The callback, whatever the key's value does while it polls: it ends at a poll, no later than the
first one at or behind the deadline; it answers by what the polls saw; and a match that is stable for
100 ms before the deadline is not missed. -/
theorem callback_polling (timeline : ℝ → Option String) (expected : String) (lease : Nat) :
    let run := sccbRun (fun ms => timeline ms) expected lease 0
    run.1 = sccbPoll (fun ms => timeline ms) expected lease 0 ∧
      (∃ polls, run.2 = SCCB_POLL_DEFAULT_INTERVAL * polls) ∧
      (∀ polls, lease ≤ SCCB_POLL_DEFAULT_INTERVAL * polls → run.2 ≤ SCCB_POLL_DEFAULT_INTERVAL * polls) ∧
      (run.1 = REC_SUCC ∧ timeline run.2 = some expected ∨
        run.1 = REC_SCCBPOLLTRY ∧ lease ≤ run.2 ∧
          ∀ poll : Nat, SCCB_POLL_DEFAULT_INTERVAL * poll ≤ run.2 →
            timeline ((SCCB_POLL_DEFAULT_INTERVAL * poll : Nat) : ℝ) ≠ some expected) ∧
      ∀ a b : ℝ, 0 ≤ a → a + 100 ≤ b → b ≤ lease →
        ((∀ t, a ≤ t → t < b → timeline t = some expected) ∨ ∀ t, a < t → t ≤ b → timeline t = some expected) →
        run.1 = REC_SUCC := by
  intro run
  obtain ⟨polls, hpolls, hend, hanswer⟩ := sccbRun_spec (fun ms => timeline ms) expected lease 0
  change run.2 = _ at hend
  rw [Nat.zero_add] at hend
  have hunseen (hno : timeline run.2 ≠ some expected) (poll : Nat)
      (hle : SCCB_POLL_DEFAULT_INTERVAL * poll ≤ run.2) :
      timeline ((SCCB_POLL_DEFAULT_INTERVAL * poll : Nat) : ℝ) ≠ some expected := by
    rw [hend] at hle
    rcases Nat.lt_or_eq_of_le (Nat.le_of_mul_le_mul_left hle (by decide)) with hlt | rfl
    · have hbefore := hpolls.noMatch poll hlt
      rwa [Nat.zero_add] at hbefore
    · rwa [hend] at hno
  refine ⟨sccbRun_fst _ _ _ _, ⟨polls, hend⟩, ?_, ?_, ?_⟩
  · intro n hn
    -- a poll before the last one is before the deadline
    by_contra hlater
    rw [hend, Nat.not_le] at hlater
    have hearly := hpolls.early n (Nat.lt_of_mul_lt_mul_left hlater)
    omega
  · rcases hanswer with hsucc | ⟨hanswer, hno, hlease⟩
    · exact .inl hsucc
    · exact .inr ⟨hanswer, hlease, hunseen hno⟩
  · intro a b ha hab hb hstable
    rcases hanswer with ⟨hsucc, -⟩ | ⟨-, hno, hlease⟩
    · exact hsucc
    obtain ⟨poll, hpoll, hmatch⟩ := exists_poll_of_stable ha hab hstable
    have hle : SCCB_POLL_DEFAULT_INTERVAL * poll ≤ run.2 := by
      have hreal : ((SCCB_POLL_DEFAULT_INTERVAL * poll : Nat) : ℝ) ≤ lease := hpoll.trans hb
      exact (Nat.cast_le.1 hreal).trans hlease
    exact absurd hmatch (hunseen hno poll hle)

end Zht
