/-
The metrics under concurrent calls. Each section of a call adds something to the counters, whatever they
hold by then; so at any moment they hold the sum of what the calls have added so far (`Tally`), and once
every call has returned the worker as a whole is the one that processed the requests one at a time
(`worker_of_all_returned`).
-/
import Mathlib.Algebra.BigOperators.Group.List.Basic
import Zht.Transport.ConcurrentCalls

namespace Zht

open Lib Lib.Utf8 Lib.Linearizable

/-! ## Sums of metrics -/

/-- A sum over a list of which one element is replaced. -/
theorem exists_sum_map_set {α M : Type} [AddCommMonoid M] {l : List α} {k : Nat} {x : α} (hk : l[k]? = some x) (y : α)
    (f : α → M) : ∃ rest, (l.map f).sum = rest + f x ∧ ((l.set k y).map f).sum = rest + f y := by
  obtain ⟨hlt, hget⟩ := List.getElem?_eq_some_iff.1 hk
  refine ⟨((l.take k).map f).sum + ((l.drop (k + 1)).map f).sum, ?_, ?_⟩
  · conv_lhs => rw [← List.take_append_drop k l, List.drop_eq_getElem_cons hlt, hget]
    rw [List.map_append, List.map_cons, List.sum_append, List.sum_cons]
    ac_rfl
  · rw [List.set_eq_take_append_cons_drop, if_pos hlt, List.map_append, List.map_cons, List.sum_append, List.sum_cons]
    ac_rfl

namespace HTWorkerMetrics

attribute [ext] HTWorkerMetrics

instance : Zero HTWorkerMetrics := ⟨{}⟩

instance : Add HTWorkerMetrics where
  add m n := {
    totalOperations := m.totalOperations + n.totalOperations
    totalErrors := m.totalErrors + n.totalErrors
    insertCount := m.insertCount + n.insertCount
    insertErrors := m.insertErrors + n.insertErrors
    lookupCount := m.lookupCount + n.lookupCount
    lookupErrors := m.lookupErrors + n.lookupErrors
    removeCount := m.removeCount + n.removeCount
    removeErrors := m.removeErrors + n.removeErrors
    appendCount := m.appendCount + n.appendCount
    appendErrors := m.appendErrors + n.appendErrors
    compareSwapCount := m.compareSwapCount + n.compareSwapCount
    compareSwapErrors := m.compareSwapErrors + n.compareSwapErrors
    stateChangeCallbackCount := m.stateChangeCallbackCount + n.stateChangeCallbackCount
    stateChangeCallbackErrors := m.stateChangeCallbackErrors + n.stateChangeCallbackErrors
    unrecognizedCount := m.unrecognizedCount + n.unrecognizedCount }

instance : AddCommMonoid HTWorkerMetrics where
  add_assoc a b c := by ext1 <;> exact UInt64.add_assoc _ _ _
  add_comm a b := by ext1 <;> exact UInt64.add_comm _ _
  zero_add a := by ext1 <;> exact UInt64.zero_add _
  add_zero a := by ext1 <;> exact UInt64.add_zero _
  nsmul := nsmulRec

/-- What a section does to the counters is to add something. -/
def Additive (f : HTWorkerMetrics → HTWorkerMetrics) : Prop := ∀ m, f m = m + f 0

theorem additive_started : Additive fun m => { m with totalOperations := m.totalOperations + 1 } := by
  intro m
  ext1
  all_goals first
    | exact (UInt64.add_zero _).symm
    | exact congrArg (_ + ·) (UInt64.zero_add 1).symm

theorem additive_operation (opcode : String) : Additive (·.operation opcode) := by
  intro m
  unfold operation
  split_ifs
  all_goals ext1
  all_goals first
    | exact (UInt64.add_zero _).symm
    | exact congrArg (_ + ·) (UInt64.zero_add 1).symm

/-- An error of an opcode. -/
def failed (m : HTWorkerMetrics) (opcode : String) : HTWorkerMetrics :=
  { m with totalErrors := m.totalErrors + 1 }.emptyKey opcode

theorem additive_failed (opcode : String) : Additive (·.failed opcode) := by
  intro m
  unfold failed emptyKey
  split_ifs
  all_goals ext1
  all_goals first
    | exact (UInt64.add_zero _).symm
    | exact congrArg (_ + ·) (UInt64.zero_add 1).symm

theorem additive_unrecognized : Additive fun m =>
    { m with unrecognizedCount := m.unrecognizedCount + 1, totalErrors := m.totalErrors + 1 } := by
  intro m
  ext1
  all_goals first
    | exact (UInt64.add_zero _).symm
    | exact congrArg (_ + ·) (UInt64.zero_add 1).symm

theorem additive_record (opcode : String) (keyed failed : Bool) : Additive (·.record opcode keyed failed) := by
  intro m
  ext1
  all_goals first
    | exact bump_eq_add _ _
    | exact congrArg (_ + ·) (UInt64.zero_add 1).symm

/-- The sections of an operation add up to what `record` says of it. -/
theorem operation_eq_record {opcode : String} (h : opcode ∈ OPCODES) (m : HTWorkerMetrics) :
    { m with totalOperations := m.totalOperations + 1 : HTWorkerMetrics }.operation opcode =
      m.record opcode true false := by
  simp only [OPCODES, List.mem_cons, List.not_mem_nil, or_false] at h
  rcases h with rfl | rfl | rfl | rfl | rfl | rfl <;> rfl

theorem failed_eq_record {opcode : String} (h : opcode ∈ OPCODES) (m : HTWorkerMetrics) :
    (m.record opcode true false).failed opcode = m.record opcode true true := by
  simp only [OPCODES, List.mem_cons, List.not_mem_nil, or_false] at h
  rcases h with rfl | rfl | rfl | rfl | rfl | rfl <;> rfl

theorem unrecognized_eq_record {opcode : String} (h : opcode ∉ OPCODES) (m : HTWorkerMetrics) :
    { { m with totalOperations := m.totalOperations + 1 : HTWorkerMetrics } with
      unrecognizedCount := m.unrecognizedCount + 1, totalErrors := m.totalErrors + 1 : HTWorkerMetrics } =
      m.record opcode true true := by
  have hmem := h
  simp only [OPCODES, List.mem_cons, List.not_mem_nil, or_false, not_or] at h
  obtain ⟨hlookup, hinsert, hremove, happend, hswap, hcallback⟩ := h
  simp [record, bump, hlookup, hinsert, hremove, happend, hswap, hcallback, hmem]

end HTWorkerMetrics

/-! ## What a call has added so far -/

/-- The counts a call has made when it is in a phase. -/
def CallPhase.spent (request : ZPack) : CallPhase → HTWorkerMetrics
  | entered => 0
  | dispatched => { totalOperations := 1 }
  | counted | polling _ | missed _ | asleep _ _ | failing _ =>
    (0 : HTWorkerMetrics).record (fromUtf8Lossy request.opcode) true false
  | returned response =>
    (0 : HTWorkerMetrics).record (fromUtf8Lossy request.opcode) (fromUtf8Lossy request.key ≠ "") (Failed response)

def WorkerCall.spent (call : WorkerCall) : HTWorkerMetrics := call.phase.spent call.request

namespace HTWorker

variable (w : HTWorker) {request : ZPack} {phase : CallPhase}

/-- A section that leaves the metrics as they are, and the call as much spent as before. -/
theorem spent_of_eq {p : CallPhase × HTWorker} (hmetrics : p.2.metrics = w.metrics)
    (hspent : p.1.spent request = phase.spent request) :
    ∃ δ, p.2.metrics = w.metrics + δ ∧ p.1.spent request = phase.spent request + δ :=
  ⟨0, hmetrics.trans (add_zero _).symm, hspent.trans (add_zero _).symm⟩

/-- A call with a key that does not fail has spent no more than when it was counted. -/
theorem spent_returned (hkey : fromUtf8Lossy request.key ≠ "") (response : ZPack) :
    (CallPhase.returned response).spent request =
      (0 : HTWorkerMetrics).record (fromUtf8Lossy request.opcode) true (Failed response) := by
  simp only [CallPhase.spent, ne_eq, hkey, not_false_eq_true, decide_true]

/-- A section adds to the metrics what the call is then known to have spent more. -/
theorem advance_spent (now : Nat) (hfits : phase.Fits request) :
    ∃ δ, (w.advance now request phase).2.metrics = w.metrics + δ ∧
      (w.advance now request phase).1.spent request = phase.spent request + δ := by
  cases phase with
  | entered => exact ⟨_, HTWorkerMetrics.additive_started w.metrics, (zero_add _).symm⟩
  | dispatched =>
    by_cases hkey : fromUtf8Lossy request.key = ""
    · simp only [advance, if_pos hkey]
      refine ⟨_, HTWorkerMetrics.additive_failed (fromUtf8Lossy request.opcode) w.metrics, ?_⟩
      simp only [CallPhase.spent, hkey, ne_eq, not_true, decide_false]
      exact (emptyKey_eq_record 0 _).symm.trans (HTWorkerMetrics.additive_failed _ _)
    by_cases hop : fromUtf8Lossy request.opcode ∈ OPCODES
    · simp only [advance, if_neg hkey, if_pos hop]
      refine ⟨_, HTWorkerMetrics.additive_operation (fromUtf8Lossy request.opcode) w.metrics, ?_⟩
      exact (HTWorkerMetrics.operation_eq_record hop 0).symm.trans (HTWorkerMetrics.additive_operation _ _)
    · simp only [advance, if_neg hkey, if_neg hop]
      refine ⟨_, HTWorkerMetrics.additive_unrecognized w.metrics, ?_⟩
      rw [spent_returned hkey]
      exact (HTWorkerMetrics.unrecognized_eq_record hop 0).symm.trans (HTWorkerMetrics.additive_unrecognized _)
  | counted =>
    obtain ⟨hkey, hop⟩ := hfits
    by_cases hcallback : fromUtf8Lossy request.opcode = OPC_STCHGCB
    · refine w.spent_of_eq ?_ ?_
      all_goals simp only [advance, operate_callback w request now hcallback]
      rfl
    · refine w.spent_of_eq ?_ ?_
      all_goals simp only [advance, operate_eq w request now hkey hop hcallback, answered]
      cases hfailed : Failed (w.store.answer request).1 with
      | true => rfl
      | false => rw [cond_false, spent_returned hkey, hfailed]; rfl
  | polling deadline =>
    obtain ⟨hkey, -⟩ := hfits
    simp only [advance]
    cases w.store.get (fromUtf8Lossy request.key) with
    | error e => exact w.spent_of_eq rfl rfl
    | ok current =>
      by_cases hmatch : current = fromUtf8Lossy request.val
      · simp only [if_pos hmatch]
        exact ⟨0, (add_zero _).symm, (spent_returned hkey _).trans (add_zero _).symm⟩
      · simp only [if_neg hmatch]
        exact ⟨0, (add_zero _).symm, (add_zero _).symm⟩
  | missed deadline =>
    simp only [advance]
    split <;> exact w.spent_of_eq rfl rfl
  | asleep wake deadline =>
    simp only [advance]
    split <;> exact w.spent_of_eq rfl rfl
  | failing response =>
    obtain ⟨hkey, hop, hfailed⟩ := hfits
    refine ⟨_, HTWorkerMetrics.additive_failed (fromUtf8Lossy request.opcode) w.metrics, ?_⟩
    simp only [advance]
    rw [spent_returned hkey, hfailed]
    exact (HTWorkerMetrics.failed_eq_record hop 0).symm.trans (HTWorkerMetrics.additive_failed _ _)
  | returned response => exact w.spent_of_eq rfl rfl

end HTWorker

/-! ## The sum over the calls -/

/-- The metrics are those at first and what the calls have spent. -/
def Tally (initial : HTWorkerMetrics) (p : WorkerCalls) : Prop :=
  p.worker.metrics = initial + (p.calls.map WorkerCall.spent).sum

theorem Tally.step {initial : HTWorkerMetrics} {p : WorkerCalls} (h : Tally initial p)
    (hfits : ∀ (c : Nat) (call : WorkerCall), p.calls[c]? = some call → call.phase.Fits call.request) (turn : Turn) :
    Tally initial (p.step turn).2 := by
  unfold Tally at *
  cases turn with
  | call request =>
    simp only [WorkerCalls.step, List.map_append, List.sum_append, List.map_cons, List.map_nil, List.sum_singleton]
    rw [h]
    exact congrArg (initial + ·) (add_zero _).symm
  | run c now =>
    simp only [WorkerCalls.step]
    cases hcall : p.calls[c]? with
    | none => exact h
    | some call =>
      obtain ⟨δ, hmetrics, hspent⟩ := p.worker.advance_spent now (hfits c call hcall)
      obtain ⟨rest, hbefore, hafter⟩ := exists_sum_map_set hcall
        ⟨call.request, (p.worker.advance now call.request call.phase).1⟩ WorkerCall.spent
      have hmore : WorkerCall.spent ⟨call.request, (p.worker.advance now call.request call.phase).1⟩ = call.spent + δ :=
        hspent
      simp only [WorkerCalls.move]
      rw [hmetrics, h, hbefore, hafter, hmore]
      ac_rfl

theorem tally_run (w : HTWorker) (turns : List Turn) :
    Tally w.metrics (Machine.after WorkerCalls.step (WorkerCalls.new w) turns) := by
  induction turns using List.reverseRecOn with
  | nil => exact (add_zero w.metrics).symm
  | append_singleton turns turn ih =>
    obtain ⟨order, h⟩ := WorkerCalls.explained w turns
    rw [Machine.after_append]
    exact ih.step (fun c call hc => (h.known c call hc).fits) turn

/-- What a request has spent when it is answered. -/
def spentOn (e : ZPack × ZPack) : HTWorkerMetrics := WorkerCall.spent ⟨e.1, .returned e.2⟩

theorem HTWorker.after_metrics (requests : List ZPack) (w : HTWorker) :
    (Machine.after process w requests).metrics = w.metrics + ((Machine.log process w requests).map spentOn).sum := by
  induction requests generalizing w with
  | nil => exact (add_zero w.metrics).symm
  | cons request requests ih =>
    have hrecord := HTWorkerMetrics.additive_record (fromUtf8Lossy request.opcode) (fromUtf8Lossy request.key ≠ "")
      (Failed (w.process request).1) w.metrics
    rw [Machine.after_cons, ih, process_metrics, Machine.log_cons, List.map_cons, List.sum_cons, ← add_assoc]
    exact congrArg (· + _) hrecord

/-- Calls that have all returned are those of the order. -/
theorem Explains.perm_of_all_returned {initial : NoVoHT} {history : List (CallEvent ZPack ZPack)}
    {order : List (Done ZPack ZPack)} {p : WorkerCalls} (h : Explains initial history order p)
    (hall : ∀ call ∈ p.calls, call.phase.response.isSome = true) :
    (order.map fun d => ((⟨d.input, .returned d.output⟩ : WorkerCall), d.call)).Perm p.calls.zipIdx := by
  have hleft : (order.map fun d => ((⟨d.input, .returned d.output⟩ : WorkerCall), d.call)).Nodup := by
    refine List.Nodup.of_map Prod.snd ?_
    rw [List.map_map]
    exact h.linearizes.distinct
  have hright : p.calls.zipIdx.Nodup := by
    refine List.Nodup.of_map Prod.snd ?_
    rw [List.zipIdx_map_snd]
    exact List.nodup_range'
  refine (List.perm_ext_iff_of_nodup hleft hright).2 ?_
  rintro ⟨call, c⟩
  rw [List.mem_zipIdx_iff_getElem?, List.mem_map]
  constructor
  · rintro ⟨d, hd, he⟩
    obtain ⟨rfl, rfl⟩ : (⟨d.input, .returned d.output⟩ : WorkerCall) = call ∧ d.call = c := by simpa using he
    obtain ⟨⟨request, phase⟩, hget⟩ : ∃ call, p.calls[d.call]? = some call :=
      ⟨_, List.getElem?_eq_getElem (h.numbered d hd)⟩
    obtain ⟨response, hresponse⟩ := Option.isSome_iff_exists.1 (hall _ (List.mem_of_getElem? hget))
    cases CallPhase.response_eq_some_iff.1 hresponse
    have hstands := (h.known _ _ hget).stands
    have hsame := List.inj_on_of_nodup_map h.linearizes.distinct hd hstands rfl
    rw [hget, hsame]
  · intro hget
    obtain ⟨request, phase⟩ := call
    obtain ⟨response, hresponse⟩ := Option.isSome_iff_exists.1 (hall _ (List.mem_of_getElem? hget))
    cases CallPhase.response_eq_some_iff.1 hresponse
    exact ⟨_, (h.known c _ hget).stands, rfl⟩

/-- Once all calls have returned, the worker, with its store, its file and its metrics, is the one that
processed the requests one at a time in the order that explains the answers. -/
theorem worker_of_all_returned (w : HTWorker) (turns : List Turn)
    (h : ∀ call ∈ (Machine.after WorkerCalls.step (WorkerCalls.new w) turns).calls, call.phase.response.isSome = true) :
    ∃ order, Linearizes HTWorker.process w (WorkerCalls.history w turns) order ∧
      order.length = (Machine.after WorkerCalls.step (WorkerCalls.new w) turns).calls.length ∧
      (Machine.after WorkerCalls.step (WorkerCalls.new w) turns).worker =
        Machine.after HTWorker.process w (order.map Done.input) := by
  obtain ⟨order, hexplains⟩ := WorkerCalls.explained w turns
  have hlin := hexplains.linearizes_process
  have hperm := hexplains.perm_of_all_returned h
  have htally := tally_run w turns
  set p := Machine.after WorkerCalls.step (WorkerCalls.new w) turns
  refine ⟨order, hlin, ?_, ?_⟩
  · have hlen := hperm.length_eq
    rwa [List.length_map, List.length_zipIdx] at hlen
  have hstore : p.worker.store = (Machine.after HTWorker.process w (order.map Done.input)).store :=
    hexplains.store.trans (w.simulates_answer _).2.symm
  have hmetrics : p.worker.metrics = (Machine.after HTWorker.process w (order.map Done.input)).metrics := by
    have hsum := (hperm.map fun e => WorkerCall.spent e.1).sum_eq
    have hlog := hlin.log_eq
    have hcalls : p.calls.zipIdx.map (fun e => WorkerCall.spent e.1) = p.calls.map WorkerCall.spent := by
      have hfst := List.map_map (f := Prod.fst) (g := WorkerCall.spent) (l := p.calls.zipIdx)
      rw [List.zipIdx_map_fst] at hfst
      exact hfst.symm
    rw [htally, HTWorker.after_metrics, hlog, ← hcalls, ← hsum, List.map_map, List.map_map]
    rfl
  exact congrArg₂ HTWorker.mk hstore hmetrics

/-- An insert, and a callback that misses the value, polls again and finds it. -/
theorem worker_of_all_returned_two :
    let insert : ZPack := { opcode := utf8Bytes OPC_INSERT, key := utf8Bytes "k", val := utf8Bytes "v" }
    let callback : ZPack :=
      { opcode := utf8Bytes OPC_STCHGCB, key := utf8Bytes "k", val := utf8Bytes "v", lease := utf8Bytes "500" }
    let turns : List Turn :=
      [.call callback, .run 0 0, .run 0 0, .run 0 0, .run 0 0, .call insert, .run 1 1, .run 1 1, .run 0 1, .run 1 2,
        .run 0 200, .run 0 200]
    ∃ order, Linearizes HTWorker.process (HTWorker.new .new) (WorkerCalls.history (HTWorker.new .new) turns) order := by
  intro insert callback turns
  have hall : ∀ call ∈ (Machine.after WorkerCalls.step (WorkerCalls.new (HTWorker.new .new)) turns).calls,
      call.phase.response.isSome = true := by
    decide +kernel
  obtain ⟨order, hlin, -⟩ := worker_of_all_returned (HTWorker.new .new) turns hall
  exact ⟨order, hlin⟩

end Zht
