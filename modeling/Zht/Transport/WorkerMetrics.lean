/-
The worker's metrics. The counters are updated in every branch of `process`, apart from where the answer
is chosen; `record` says what one request adds to them all, by its opcode, whether it has a key and
whether its answer fails. A run of requests then leaves each counter at the number of requests of its
kind (`metrics_match`).
-/
import Zht.Lib.Machine
import Zht.Transport.RequestFrame

namespace Zht

open Lib Lib.Utf8

/-! ## What one request adds -/

def OPCODES : List String := [OPC_LOOKUP, OPC_INSERT, OPC_REMOVE, OPC_APPEND, OPC_CMPSWP, OPC_STCHGCB]

/-- Counted, or not. -/
def bump (b : Bool) (n : UInt64) : UInt64 := if b then n + 1 else n

theorem bump_eq_add (b : Bool) (n : UInt64) : bump b n = n + bump b 0 := by
  cases b with
  | false => exact (UInt64.add_zero n).symm
  | true => exact congrArg (n + ·) (UInt64.zero_add 1).symm

def HTWorkerMetrics.record (m : HTWorkerMetrics) (opcode : String) (keyed failed : Bool) : HTWorkerMetrics where
  totalOperations := m.totalOperations + 1
  totalErrors := bump failed m.totalErrors
  insertCount := bump (opcode = OPC_INSERT && keyed) m.insertCount
  insertErrors := bump (opcode = OPC_INSERT && failed) m.insertErrors
  lookupCount := bump (opcode = OPC_LOOKUP && keyed) m.lookupCount
  lookupErrors := bump (opcode = OPC_LOOKUP && failed) m.lookupErrors
  removeCount := bump (opcode = OPC_REMOVE && keyed) m.removeCount
  removeErrors := bump (opcode = OPC_REMOVE && failed) m.removeErrors
  appendCount := bump (opcode = OPC_APPEND && keyed) m.appendCount
  appendErrors := bump (opcode = OPC_APPEND && failed) m.appendErrors
  compareSwapCount := bump (opcode = OPC_CMPSWP && keyed) m.compareSwapCount
  compareSwapErrors := bump (opcode = OPC_CMPSWP && failed) m.compareSwapErrors
  stateChangeCallbackCount := bump (opcode = OPC_STCHGCB && keyed) m.stateChangeCallbackCount
  stateChangeCallbackErrors := bump (opcode = OPC_STCHGCB && failed) m.stateChangeCallbackErrors
  unrecognizedCount := bump (opcode ∉ OPCODES && keyed) m.unrecognizedCount

/-- The lease of an answer is none of a success. -/
def Failed (answer : ZPack) : Bool := !decide (LeaseSucceeds answer.lease)

theorem leaseSucceeds_lookup (val : String) : LeaseSucceeds (utf8Bytes (REC_SUCC ++ val)) := by
  unfold LeaseSucceeds
  rw [utf8Bytes_append]
  exact List.prefix_append _ _

namespace HTWorker

theorem emptyKey_eq_record (m : HTWorkerMetrics) (opcode : String) :
    { { m with totalOperations := m.totalOperations + 1 } with
      totalErrors := m.totalErrors + 1 : HTWorkerMetrics }.emptyKey opcode = m.record opcode false true := by
  unfold HTWorkerMetrics.emptyKey HTWorkerMetrics.record
  by_cases hopcode : opcode ∈ OPCODES
  · simp only [OPCODES, List.mem_cons, List.not_mem_nil, or_false] at hopcode
    rcases hopcode with rfl | rfl | rfl | rfl | rfl | rfl <;> rfl
  · simp only [OPCODES, List.mem_cons, List.not_mem_nil, or_false, not_or] at hopcode
    obtain ⟨hlookup, hinsert, hremove, happend, hswap, hcallback⟩ := hopcode
    simp [hlookup, hinsert, hremove, happend, hswap, hcallback, bump]

/-- A handler's call adds to the metrics what `record` says of its opcode and answer. -/
def Counts (w : HTWorker) (opcode : String) (call : ZPack × HTWorker) : Prop :=
  call.2.metrics = w.metrics.record opcode true (Failed call.1)

/-- The worker as `process` hands it to a handler. -/
def started (w : HTWorker) : HTWorker := w.count fun m => { m with totalOperations := m.totalOperations + 1 }

@[simp] theorem started_store (w : HTWorker) : w.started.store = w.store := rfl

section Handlers

variable (w : HTWorker) (response : ZPack) (key : String)

theorem counts_lookup : Counts w OPC_LOOKUP (w.started.processLookup response key) := by
  unfold Counts processLookup
  simp only [count_store, started_store]
  cases w.store.get key with
  | ok val =>
    have hok : Failed { response with val := utf8Bytes val, valnull := false, lease := utf8Bytes (REC_SUCC ++ val) } =
        false := by
      rw [Failed, decide_eq_true (leaseSucceeds_lookup val)]
      rfl
    simp only [hok]
    rfl
  | error e => rfl

theorem counts_insert (val : String) : Counts w OPC_INSERT (w.started.processInsert response key val) := by
  unfold Counts processInsert
  simp only [count_store, started_store]
  rcases w.store.put key val with ⟨_ | _, store⟩ <;> rfl

theorem counts_remove : Counts w OPC_REMOVE (w.started.processRemove response key) := by
  unfold Counts processRemove
  simp only [count_store, started_store]
  rcases w.store.remove key with ⟨_ | _, store⟩ <;> rfl

theorem counts_append (val : String) : Counts w OPC_APPEND (w.started.processAppend response key val) := by
  unfold Counts processAppend
  simp only [count_store, started_store]
  rcases w.store.append key val with ⟨_ | _, store⟩ <;> rfl

theorem counts_compareSwap (expected newVal : String) :
    Counts w OPC_CMPSWP (w.started.processCompareSwap response key expected newVal) := by
  unfold Counts processCompareSwap
  simp only [count_store, started_store]
  rcases w.store.compareSwap key expected newVal with ⟨_ | actual, store⟩
  · rfl
  · by_cases hswap : actual = newVal
    · simp only [if_pos hswap]
      rfl
    · simp only [if_neg hswap]
      rfl

/-- The polling loop answers with one of two statuses. -/
theorem sccbPoll_cases (value : Nat → Option String) (expected : String) (lease now : Nat) :
    sccbPoll value expected lease now = REC_SUCC ∨ sccbPoll value expected lease now = REC_SCCBPOLLTRY := by
  fun_induction sccbPoll value expected lease now with
  | case1 now hmatch => exact .inl rfl
  | case2 now hmatch hlease => exact .inr rfl
  | case3 now hmatch hlease ih => exact ih

theorem counts_stateChangeCallback (expected : String) (lease : Nat) :
    Counts w OPC_STCHGCB (w.started.processStateChangeCallback response key expected lease) := by
  unfold Counts processStateChangeCallback
  simp only [count_store, started_store]
  rcases sccbPoll_cases (fun _ => w.store.map.lookup key) expected lease 0 with hpoll | hpoll
  · simp only [hpoll]
    rw [if_neg (by decide)]
    rfl
  · simp only [hpoll, ↓reduceIte]
    rfl

end Handlers

/-- What one request does to the metrics. -/
theorem process_metrics (w : HTWorker) (request : ZPack) :
    (w.process request).2.metrics =
      w.metrics.record (fromUtf8Lossy request.opcode) (fromUtf8Lossy request.key ≠ "")
        (Failed (w.process request).1) := by
  unfold process
  simp only
  by_cases hkey : fromUtf8Lossy request.key = ""
  · rw [if_pos hkey]
    simp only [hkey, ne_eq, not_true, decide_false]
    exact emptyKey_eq_record w.metrics (fromUtf8Lossy request.opcode)
  rw [if_neg hkey]
  simp only [ne_eq, hkey, not_false_eq_true, decide_true]
  by_cases hlookup : fromUtf8Lossy request.opcode = OPC_LOOKUP
  · rw [if_pos hlookup, hlookup]
    exact counts_lookup w _ _
  rw [if_neg hlookup]
  by_cases hinsert : fromUtf8Lossy request.opcode = OPC_INSERT
  · rw [if_pos hinsert, hinsert]
    exact counts_insert w _ _ _
  rw [if_neg hinsert]
  by_cases hremove : fromUtf8Lossy request.opcode = OPC_REMOVE
  · rw [if_pos hremove, hremove]
    exact counts_remove w _ _
  rw [if_neg hremove]
  by_cases happend : fromUtf8Lossy request.opcode = OPC_APPEND
  · rw [if_pos happend, happend]
    exact counts_append w _ _ _
  rw [if_neg happend]
  by_cases hswap : fromUtf8Lossy request.opcode = OPC_CMPSWP
  · rw [if_pos hswap, hswap]
    exact counts_compareSwap w _ _ _ _
  rw [if_neg hswap]
  by_cases hcallback : fromUtf8Lossy request.opcode = OPC_STCHGCB
  · rw [if_pos hcallback, hcallback]
    exact counts_stateChangeCallback w _ _ _ _
  · rw [if_neg hcallback]
    have hfailed : Failed { opcode := request.opcode, key := request.key, lease := utf8Bytes REC_UOPC } = true := rfl
    have hother : fromUtf8Lossy request.opcode ∉ OPCODES := by
      simp [OPCODES, hlookup, hinsert, hremove, happend, hswap, hcallback]
    rw [hfailed]
    simp [HTWorkerMetrics.record, bump, count, hlookup, hinsert, hremove, happend, hswap, hcallback, hother]

end HTWorker

/-! ## A run of requests -/

/-- The two counters of an opcode. -/
structure OpcodeCounters where
  opcode : String
  count : HTWorkerMetrics → UInt64
  errors : HTWorkerMetrics → UInt64

def COUNTERS : List OpcodeCounters :=
  [⟨OPC_LOOKUP, (·.lookupCount), (·.lookupErrors)⟩, ⟨OPC_INSERT, (·.insertCount), (·.insertErrors)⟩,
    ⟨OPC_REMOVE, (·.removeCount), (·.removeErrors)⟩, ⟨OPC_APPEND, (·.appendCount), (·.appendErrors)⟩,
    ⟨OPC_CMPSWP, (·.compareSwapCount), (·.compareSwapErrors)⟩,
    ⟨OPC_STCHGCB, (·.stateChangeCallbackCount), (·.stateChangeCallbackErrors)⟩]

/-- Both counters of an opcode are zero at first, and `record` moves them on. -/
theorem OpcodeCounters.record {c : OpcodeCounters} (h : c ∈ COUNTERS) :
    c.count {} = 0 ∧ c.errors {} = 0 ∧ ∀ (m : HTWorkerMetrics) (opcode : String) (keyed failed : Bool),
      c.count (m.record opcode keyed failed) = bump (opcode = c.opcode && keyed) (c.count m) ∧
        c.errors (m.record opcode keyed failed) = bump (opcode = c.opcode && failed) (c.errors m) := by
  simp only [COUNTERS, List.mem_cons, List.not_mem_nil, or_false] at h
  rcases h with rfl | rfl | rfl | rfl | rfl | rfl <;> exact ⟨rfl, rfl, fun _ _ _ _ => ⟨rfl, rfl⟩⟩

theorem toNat_iterate_succ (n : Nat) : ((fun m : UInt64 => m + 1)^[n] 0).toNat = n % 2 ^ 64 := by
  induction n with
  | zero => rfl
  | succ n ih =>
    rw [Function.iterate_succ_apply', UInt64.toNat_add, ih]
    show (n % 2 ^ 64 + 1) % 2 ^ 64 = (n + 1) % 2 ^ 64
    omega

theorem iterate_succ_eq_ofNat (n : Nat) : (fun m : UInt64 => m + 1)^[n] 0 = UInt64.ofNat n := by
  apply UInt64.toNat_inj.1
  rw [toNat_iterate_succ, UInt64.toNat_ofNat']

section Run

variable (store : NoVoHT) {requests : List ZPack}

/-- The requests with their answers. -/
def HTWorker.log (requests : List ZPack) : List (ZPack × ZPack) :=
  Machine.log HTWorker.process (HTWorker.new store) requests

/-- A counter that every request moves on exactly if it is of some kind ends at their number. -/
theorem counter_eq_ofNat {f : HTWorkerMetrics → UInt64} {P : ZPack × ZPack → Bool} (hzero : f {} = 0)
    (hrecord : ∀ (w : HTWorker) (request : ZPack),
      f (w.process request).2.metrics = bump (P (request, (w.process request).1)) (f w.metrics)) :
    f (Machine.after HTWorker.process (HTWorker.new store) requests).metrics =
      UInt64.ofNat ((HTWorker.log store requests).countP P) := by
  have hstep : ∀ (w : HTWorker) (request : ZPack), f (w.process request).2.metrics =
      if P (request, (w.process request).1) then (fun m => m + 1) (f w.metrics) else f w.metrics := hrecord
  have hrun : f (Machine.after HTWorker.process (HTWorker.new store) requests).metrics =
      (fun m : UInt64 => m + 1)^[(HTWorker.log store requests).countP P] (f (HTWorker.new store).metrics) :=
    @Machine.after_counter _ _ _ HTWorker.process _ (fun w => f w.metrics) _ P hstep requests (HTWorker.new store)
  have hnew : f (HTWorker.new store).metrics = 0 := hzero
  rw [hrun, hnew, iterate_succ_eq_ofNat]

/-- And at their number itself where it fits the counter. -/
theorem toNat_counter (h : requests.length < 2 ^ 64) {f : HTWorkerMetrics → UInt64} {P : ZPack × ZPack → Bool}
    (hzero : f {} = 0)
    (hrecord : ∀ (w : HTWorker) (request : ZPack),
      f (w.process request).2.metrics = bump (P (request, (w.process request).1)) (f w.metrics)) :
    (f (Machine.after HTWorker.process (HTWorker.new store) requests).metrics).toNat =
      (HTWorker.log store requests).countP P := by
  have hle := List.countP_le_length (p := P) (l := HTWorker.log store requests)
  have hlen : (HTWorker.log store requests).length = requests.length := Machine.length_log _ _ _
  rw [counter_eq_ofNat store hzero hrecord]
  exact UInt64.toNat_ofNat_of_lt' (Nat.lt_of_le_of_lt hle (hlen ▸ h))

/-- What is counted by the requests alone. -/
theorem HTWorker.countP_log (p : ZPack → Bool) :
    (HTWorker.log store requests).countP (fun e => p e.1) = requests.countP p :=
  Machine.countP_log_fst _ p _ _

end Run

/-- After fewer than 2^64 requests to a fresh worker: the totals are the number of requests and of
answers that fail, the counters of an opcode those of its requests with a key and of its failing
answers, and the unrecognized ones those of the other requests with a key. -/
theorem metrics_match (store : NoVoHT) {requests : List ZPack} (h : requests.length < 2 ^ 64) :
    let m := (Machine.after HTWorker.process (HTWorker.new store) requests).metrics
    m.totalOperations.toNat = requests.length ∧
      m.totalErrors.toNat = (HTWorker.log store requests).countP (fun e => Failed e.2) ∧
      (∀ c ∈ COUNTERS,
        (c.errors m).toNat = (HTWorker.log store requests).countP
            (fun e => fromUtf8Lossy e.1.opcode = c.opcode && Failed e.2) ∧
          (c.count m).toNat =
            requests.countP (fun r => fromUtf8Lossy r.opcode = c.opcode && fromUtf8Lossy r.key ≠ "")) ∧
      m.unrecognizedCount.toNat =
        requests.countP (fun r => fromUtf8Lossy r.opcode ∉ OPCODES && fromUtf8Lossy r.key ≠ "") := by
  refine ⟨?_, ?_, fun c hc => ⟨?_, ?_⟩, ?_⟩
  · have hall := toNat_counter store h (f := (·.totalOperations)) (P := fun _ => true) rfl fun w request => by
      rw [w.process_metrics]
      rfl
    rw [hall, HTWorker.countP_log store fun _ => true, List.countP_true]
  · exact toNat_counter store h rfl fun w request => by
      rw [w.process_metrics]
      rfl
  · obtain ⟨-, hzero, hrecord⟩ := OpcodeCounters.record hc
    exact toNat_counter store h hzero fun w request => by
      rw [w.process_metrics]
      exact (hrecord _ _ _ _).2
  · obtain ⟨hzero, -, hrecord⟩ := OpcodeCounters.record hc
    rw [← HTWorker.countP_log store]
    exact toNat_counter store h hzero fun w request => by
      rw [w.process_metrics]
      exact (hrecord _ _ _ _).1
  · rw [← HTWorker.countP_log store]
    exact toNat_counter store h rfl fun w request => by
      rw [w.process_metrics]
      rfl

/-- A lookup without a key, one of an absent key, an insert and an opcode there is none. -/
theorem metrics_match_four :
    let requests : List ZPack :=
      [{ opcode := utf8Bytes OPC_LOOKUP }, { opcode := utf8Bytes OPC_LOOKUP, key := utf8Bytes "a" },
        { opcode := utf8Bytes OPC_INSERT, key := utf8Bytes "a" }, { opcode := utf8Bytes "999", key := utf8Bytes "a" }]
    (Machine.after HTWorker.process (HTWorker.new NoVoHT.new) requests).metrics.totalOperations.toNat = 4 ∧
      (Machine.after HTWorker.process (HTWorker.new NoVoHT.new) requests).metrics.lookupCount.toNat =
        requests.countP (fun r => fromUtf8Lossy r.opcode = OPC_LOOKUP && fromUtf8Lossy r.key ≠ "") := by
  intro requests
  obtain ⟨htotal, -, hcounters, -⟩ := metrics_match NoVoHT.new (show requests.length < 2 ^ 64 by decide)
  exact ⟨htotal, (hcounters ⟨OPC_LOOKUP, (·.lookupCount), (·.lookupErrors)⟩ List.mem_cons_self).2⟩

end Zht
