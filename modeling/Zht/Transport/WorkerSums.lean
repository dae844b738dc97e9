/-
How the worker's counters add up. A request without a key is turned away before its opcode is looked at:
it adds to the totals and to the errors of its opcode only. So what the counters of the opcodes leave of
a total is the number of these requests, and an opcode has no more errors than requests counted and
requests turned away (`counters_split`).
-/
import Zht.Transport.WorkerMetrics

namespace Zht

open Lib Lib.Utf8

/-! ## Sums over the opcodes -/

/-- An opcode is one of the six, or none of them. -/
theorem sum_bump_opcodes (opcode : String) (b : Bool) :
    bump (opcode = OPC_LOOKUP && b) 0 + bump (opcode = OPC_INSERT && b) 0 + bump (opcode = OPC_REMOVE && b) 0 +
        bump (opcode = OPC_APPEND && b) 0 + bump (opcode = OPC_CMPSWP && b) 0 + bump (opcode = OPC_STCHGCB && b) 0 =
      bump (opcode ∈ OPCODES && b) 0 := by
  by_cases hopcode : opcode ∈ OPCODES
  · simp only [OPCODES, List.mem_cons, List.not_mem_nil, or_false] at hopcode
    rcases hopcode with rfl | rfl | rfl | rfl | rfl | rfl <;> cases b <;> rfl
  · have hother := hopcode
    simp only [OPCODES, List.mem_cons, List.not_mem_nil, or_false, not_or] at hopcode
    obtain ⟨hlookup, hinsert, hremove, happend, hswap, hcallback⟩ := hopcode
    simp [bump, hlookup, hinsert, hremove, happend, hswap, hcallback, hother]

theorem bump_sum (opcode : String) (b : Bool) (n₁ n₂ n₃ n₄ n₅ n₆ : UInt64) :
    bump (opcode = OPC_LOOKUP && b) n₁ + bump (opcode = OPC_INSERT && b) n₂ + bump (opcode = OPC_REMOVE && b) n₃ +
        bump (opcode = OPC_APPEND && b) n₄ + bump (opcode = OPC_CMPSWP && b) n₅ +
        bump (opcode = OPC_STCHGCB && b) n₆ =
      bump (opcode ∈ OPCODES && b) (n₁ + n₂ + n₃ + n₄ + n₅ + n₆) := by
  rw [bump_eq_add _ n₁, bump_eq_add _ n₂, bump_eq_add _ n₃, bump_eq_add _ n₄, bump_eq_add _ n₅, bump_eq_add _ n₆,
    bump_eq_add _ (_ + _), ← sum_bump_opcodes]
  ac_rfl

namespace HTWorkerMetrics

/-- The requests counted by opcode. -/
def countSum (m : HTWorkerMetrics) : UInt64 :=
  m.lookupCount + m.insertCount + m.removeCount + m.appendCount + m.compareSwapCount + m.stateChangeCallbackCount

/-- The errors counted by opcode. -/
def errorSum (m : HTWorkerMetrics) : UInt64 :=
  m.lookupErrors + m.insertErrors + m.removeErrors + m.appendErrors + m.compareSwapErrors +
    m.stateChangeCallbackErrors

/-- What the opcodes and the unrecognized requests leave of the operations. -/
def uncounted (m : HTWorkerMetrics) : UInt64 := m.totalOperations - (m.countSum + m.unrecognizedCount)

/-- What they leave of the errors. -/
def uncountedErrors (m : HTWorkerMetrics) : UInt64 := m.totalErrors - (m.errorSum + m.unrecognizedCount)

section Record

variable (m : HTWorkerMetrics) (opcode : String) (keyed failed : Bool)

theorem countSum_record : (m.record opcode keyed failed).countSum = bump (opcode ∈ OPCODES && keyed) m.countSum :=
  bump_sum opcode keyed _ _ _ _ _ _

theorem errorSum_record : (m.record opcode keyed failed).errorSum = bump (opcode ∈ OPCODES && failed) m.errorSum :=
  bump_sum opcode failed _ _ _ _ _ _

theorem uncounted_record : (m.record opcode keyed failed).uncounted = bump (!keyed) m.uncounted := by
  have hunrecognized : (m.record opcode keyed failed).unrecognizedCount =
      bump (opcode ∉ OPCODES && keyed) m.unrecognizedCount := rfl
  have htotal : (m.record opcode keyed failed).totalOperations = m.totalOperations + 1 := rfl
  rw [uncounted, htotal, countSum_record, hunrecognized, uncounted]
  by_cases hopcode : opcode ∈ OPCODES <;> cases keyed <;> simp [bump, hopcode] <;> grind

/-- An opcode there is none of fails. -/
theorem uncountedErrors_record (h : opcode ∉ OPCODES → failed = true) :
    (m.record opcode keyed failed).uncountedErrors = bump (opcode ∉ OPCODES && !keyed) m.uncountedErrors := by
  have hunrecognized : (m.record opcode keyed failed).unrecognizedCount =
      bump (opcode ∉ OPCODES && keyed) m.unrecognizedCount := rfl
  have htotal : (m.record opcode keyed failed).totalErrors = bump failed m.totalErrors := rfl
  rw [uncountedErrors, htotal, errorSum_record, hunrecognized, uncountedErrors]
  by_cases hopcode : opcode ∈ OPCODES
  · cases failed <;> simp [bump, hopcode]
    grind
  · rw [h hopcode]
    cases keyed <;> simp [bump, hopcode] <;> grind

end Record

end HTWorkerMetrics

theorem HTWorker.failed_of_not_opcode (w : HTWorker) {request : ZPack}
    (h : fromUtf8Lossy request.opcode ∉ OPCODES) : Failed (w.process request).1 = true := by
  simp only [OPCODES, List.mem_cons, List.not_mem_nil, or_false, not_or] at h
  obtain ⟨hlookup, hinsert, hremove, happend, hswap, hcallback⟩ := h
  unfold process
  simp only
  by_cases hkey : fromUtf8Lossy request.key = ""
  · rw [if_pos hkey]
    rfl
  · rw [if_neg hkey, if_neg hlookup, if_neg hinsert, if_neg hremove, if_neg happend, if_neg hswap, if_neg hcallback]
    rfl

/-! ## A run of requests -/

/-- A kind of requests is those of it with a key and those of it without. -/
theorem countP_keyed_add (p : ZPack → Bool) (requests : List ZPack) :
    requests.countP (fun r => p r && fromUtf8Lossy r.key ≠ "") +
      requests.countP (fun r => p r && fromUtf8Lossy r.key = "") = requests.countP p := by
  rw [List.countP_eq_countP_filter_add requests p (fun r => fromUtf8Lossy r.key ≠ ""), List.countP_filter,
    List.countP_filter]
  simp

/-- The counters of an opcode: what they count, and that failing requests are counted or without a key. -/
theorem opcode_counters (store : NoVoHT) (requests : List ZPack) {c : OpcodeCounters} (h : c ∈ COUNTERS) :
    let m := (Machine.after HTWorker.process (HTWorker.new store) requests).metrics
    let failing := (HTWorker.log store requests).countP fun e =>
      fromUtf8Lossy e.1.opcode = c.opcode && Failed e.2
    let counted := requests.countP fun r => fromUtf8Lossy r.opcode = c.opcode && fromUtf8Lossy r.key ≠ ""
    c.errors m = UInt64.ofNat failing ∧ c.count m = UInt64.ofNat counted ∧ failing ≤ requests.length ∧
      failing ≤ counted + requests.countP fun r => fromUtf8Lossy r.opcode = c.opcode && fromUtf8Lossy r.key = "" := by
  obtain ⟨hcount, herrors, hrecord⟩ := OpcodeCounters.record h
  refine ⟨?_, ?_, ?_, ?_⟩
  · exact counter_eq_ofNat store herrors fun w request => by
      rw [w.process_metrics]
      exact (hrecord _ _ _ _).2
  · rw [← HTWorker.countP_log store]
    exact counter_eq_ofNat store hcount fun w request => by
      rw [w.process_metrics]
      exact (hrecord _ _ _ _).1
  · rw [← Machine.length_log HTWorker.process (HTWorker.new store) requests]
    exact List.countP_le_length
  · rw [countP_keyed_add fun r => fromUtf8Lossy r.opcode = c.opcode, ← HTWorker.countP_log store]
    refine List.countP_mono_left fun e _ he => ?_
    exact (Bool.and_eq_true_iff.1 he).1

/-- After any requests to a fresh worker: what the six opcodes and the unrecognized requests leave of the
total is the number of requests without a key, and of the errors that of those among them whose opcode is
none of the six; and of an opcode the errors counted are its requests that failed, the count its requests
with a key, so there are at most as many of the first as of the second and requests without a key: as
numbers, and as counters where these cannot have wrapped. -/
theorem counters_split (store : NoVoHT) (requests : List ZPack) :
    let m := (Machine.after HTWorker.process (HTWorker.new store) requests).metrics
    m.totalOperations = m.countSum + m.unrecognizedCount +
        UInt64.ofNat (requests.countP fun r => fromUtf8Lossy r.key = "") ∧
      m.totalErrors = m.errorSum + m.unrecognizedCount +
        UInt64.ofNat (requests.countP fun r => fromUtf8Lossy r.opcode ∉ OPCODES && fromUtf8Lossy r.key = "") ∧
      ∀ c ∈ COUNTERS,
        let failing := (HTWorker.log store requests).countP fun e =>
          fromUtf8Lossy e.1.opcode = c.opcode && Failed e.2
        let counted := requests.countP fun r => fromUtf8Lossy r.opcode = c.opcode && fromUtf8Lossy r.key ≠ ""
        let keyless := requests.countP fun r => fromUtf8Lossy r.opcode = c.opcode && fromUtf8Lossy r.key = ""
        c.errors m = UInt64.ofNat failing ∧ c.count m = UInt64.ofNat counted ∧ failing ≤ counted + keyless ∧
          (requests.length < 2 ^ 64 → (c.errors m).toNat ≤ (c.count m).toNat + keyless) := by
  refine ⟨?_, ?_, fun c hc => ?_⟩
  · have hleft : (Machine.after HTWorker.process (HTWorker.new store) requests).metrics.uncounted =
        UInt64.ofNat (requests.countP fun r => fromUtf8Lossy r.key = "") := by
      rw [← HTWorker.countP_log store]
      exact counter_eq_ofNat store rfl fun w request => by
        rw [w.process_metrics, HTWorkerMetrics.uncounted_record]
        simp
    rw [← hleft, HTWorkerMetrics.uncounted]
    grind
  · have hleft : (Machine.after HTWorker.process (HTWorker.new store) requests).metrics.uncountedErrors =
        UInt64.ofNat (requests.countP fun r => fromUtf8Lossy r.opcode ∉ OPCODES && fromUtf8Lossy r.key = "") := by
      rw [← HTWorker.countP_log store]
      exact counter_eq_ofNat store rfl fun w request => by
        rw [w.process_metrics, HTWorkerMetrics.uncountedErrors_record _ _ _ _ w.failed_of_not_opcode]
        simp
    rw [← hleft, HTWorkerMetrics.uncountedErrors]
    grind
  · obtain ⟨herrors, hcount, hlen, hle⟩ := opcode_counters store requests hc
    refine ⟨herrors, hcount, hle, fun hsize => ?_⟩
    have hcounted := List.countP_le_length (l := requests)
      (p := fun r => fromUtf8Lossy r.opcode = c.opcode && fromUtf8Lossy r.key ≠ "")
    rw [herrors, hcount, UInt64.toNat_ofNat_of_lt' (Nat.lt_of_le_of_lt hlen hsize),
      UInt64.toNat_ofNat_of_lt' (Nat.lt_of_le_of_lt hcounted hsize)]
    exact hle

/-- A lookup without a key, then the ping of a health check: an opcode there is none of, and no key. -/
def emptyKeyRequests : List ZPack := [{ opcode := utf8Bytes OPC_LOOKUP }, { opcode := utf8Bytes "999" }]

theorem counters_split_two :
    (Machine.after HTWorker.process (HTWorker.new NoVoHT.new) emptyKeyRequests).metrics.lookupErrors.toNat ≤
      (Machine.after HTWorker.process (HTWorker.new NoVoHT.new) emptyKeyRequests).metrics.lookupCount.toNat +
        emptyKeyRequests.countP (fun r => fromUtf8Lossy r.opcode = OPC_LOOKUP && fromUtf8Lossy r.key = "") := by
  obtain ⟨-, -, hcounters⟩ := counters_split NoVoHT.new emptyKeyRequests
  exact (hcounters ⟨OPC_LOOKUP, (·.lookupCount), (·.lookupErrors)⟩ List.mem_cons_self).2.2.2 (by decide)

/-- Two operations and two errors that the sums do not hold, and a lookup error without a lookup. -/
theorem emptyKeyRequests_uncounted :
    let m := (Machine.after HTWorker.process (HTWorker.new NoVoHT.new) emptyKeyRequests).metrics
    m.totalOperations ≠ m.countSum + m.unrecognizedCount ∧ m.totalErrors ≠ m.errorSum + m.unrecognizedCount ∧
      ¬m.lookupErrors ≤ m.lookupCount := by
  decide

end Zht
