/-
Concurrent calls of `HTWorker::process`. The connection handlers share the worker, and no lock is held
for a whole call: a call takes the lock of the metrics, then that of the store, then that of the metrics
again, and a state change callback reads the store and the clock in turn. The phase of a call is the
section it is about to run; a pool runs the sections of its calls in any order. Whatever the order, the
calls are answered, and leave the store and its file, as if each were processed at one moment between its
start and its answer (`calls_linearizable`). An expired callback took effect at its last look at the
store, which it only learns from the clock later.
-/
import Zht.Lib.Linearizable
import Zht.Transport.WorkerMetrics

namespace Zht

open Lib Lib.Utf8 Lib.Linearizable

/-! ## The sections of a call -/

/-- How far a call has come. -/
inductive CallPhase
  | entered
  /-- It is one of the operations, and its key and opcode come next. -/
  | dispatched
  /-- It is counted under its opcode, and the store comes next. -/
  | counted
  | polling (deadline : Nat)
  /-- The last poll saw no match, and the clock comes next. -/
  | missed (deadline : Nat)
  | asleep (wake deadline : Nat)
  /-- The error is still to be counted. -/
  | failing (response : ZPack)
  | returned (response : ZPack)
  deriving DecidableEq, Repr

def CallPhase.response : CallPhase → Option ZPack
  | returned response => some response
  | _ => none

theorem CallPhase.response_eq_some_iff {phase : CallPhase} {response : ZPack} :
    phase.response = some response ↔ phase = .returned response := by
  cases phase <;> simp [CallPhase.response]

/-- The counter of an opcode. -/
def HTWorkerMetrics.operation (m : HTWorkerMetrics) (opcode : String) : HTWorkerMetrics :=
  if opcode = OPC_LOOKUP then { m with lookupCount := m.lookupCount + 1 }
  else if opcode = OPC_INSERT then { m with insertCount := m.insertCount + 1 }
  else if opcode = OPC_REMOVE then { m with removeCount := m.removeCount + 1 }
  else if opcode = OPC_APPEND then { m with appendCount := m.appendCount + 1 }
  else if opcode = OPC_CMPSWP then { m with compareSwapCount := m.compareSwapCount + 1 }
  else if opcode = OPC_STCHGCB then { m with stateChangeCallbackCount := m.stateChangeCallbackCount + 1 }
  else m

namespace HTWorker

/-- The section of the store, and where the arm of the opcode goes on from there. -/
def operate (w : HTWorker) (now : Nat) (request : ZPack) : CallPhase × HTWorker :=
  let opcode := fromUtf8Lossy request.opcode
  let key := fromUtf8Lossy request.key
  let response : ZPack := { opcode := request.opcode, key := request.key }
  if opcode = OPC_LOOKUP then
    match w.store.get key with
    | .ok val =>
      (.returned { response with val := utf8Bytes val, valnull := false, lease := utf8Bytes (REC_SUCC ++ val) }, w)
    | .error _ => (.failing { response with valnull := true, lease := utf8Bytes REC_NONEXISTKEY }, w)
  else if opcode = OPC_INSERT then
    match w.store.put key (fromUtf8Lossy request.val) with
    | (.ok (), store) => (.returned { response with lease := utf8Bytes REC_SUCC }, { w with store })
    | (.error _, store) => (.failing { response with lease := utf8Bytes REC_SRVFAIL }, { w with store })
  else if opcode = OPC_REMOVE then
    match w.store.remove key with
    | (.ok (), store) => (.returned { response with lease := utf8Bytes REC_SUCC }, { w with store })
    | (.error _, store) => (.failing { response with lease := utf8Bytes REC_NONEXISTKEY }, { w with store })
  else if opcode = OPC_APPEND then
    match w.store.append key (fromUtf8Lossy request.val) with
    | (.ok (), store) => (.returned { response with lease := utf8Bytes REC_SUCC }, { w with store })
    | (.error _, store) => (.failing { response with lease := utf8Bytes REC_SRVFAIL }, { w with store })
  else if opcode = OPC_CMPSWP then
    let newVal := fromUtf8Lossy request.newval
    match w.store.compareSwap key (fromUtf8Lossy request.val) newVal with
    | (.ok actual, store) =>
      if actual = newVal then (.returned { response with lease := utf8Bytes REC_SUCC }, { w with store })
      else
        (.failing { response with val := utf8Bytes actual, valnull := false, lease := utf8Bytes REC_CLTFAIL },
          { w with store })
    | (.error _, store) => (.failing { response with lease := utf8Bytes REC_NONEXISTKEY }, { w with store })
  else (.polling (now + leaseMs request.lease), w)

/-- The next section of a call. -/
def advance (w : HTWorker) (now : Nat) (request : ZPack) : CallPhase → CallPhase × HTWorker
  | .entered => (.dispatched, w.count fun m => { m with totalOperations := m.totalOperations + 1 })
  | .dispatched =>
    let opcode := fromUtf8Lossy request.opcode
    let response : ZPack := { opcode := request.opcode, key := request.key }
    if fromUtf8Lossy request.key = "" then
      (.returned { response with lease := utf8Bytes REC_EMPTYKEY },
        w.count fun m => { m with totalErrors := m.totalErrors + 1 }.emptyKey opcode)
    else if opcode ∈ OPCODES then (.counted, w.count (·.operation opcode))
    else
      (.returned { response with lease := utf8Bytes REC_UOPC },
        w.count fun m => { m with unrecognizedCount := m.unrecognizedCount + 1, totalErrors := m.totalErrors + 1 })
  | .counted => w.operate now request
  | .polling deadline =>
    let response : ZPack := { opcode := request.opcode, key := request.key }
    match w.store.get (fromUtf8Lossy request.key) with
    | .ok current =>
      if current = fromUtf8Lossy request.val then (.returned { response with lease := utf8Bytes REC_SUCC }, w)
      else (.missed deadline, w)
    | .error _ => (.missed deadline, w)
  | .missed deadline =>
    let response : ZPack := { opcode := request.opcode, key := request.key }
    if deadline ≤ now then (.failing { response with lease := utf8Bytes REC_SCCBPOLLTRY }, w)
    else (.asleep (now + SCCB_POLL_DEFAULT_INTERVAL) deadline, w)
  | .asleep wake deadline => if wake ≤ now then (.polling deadline, w) else (.asleep wake deadline, w)
  -- the error counter of the opcode is the one an empty key counts in
  | .failing response =>
    (.returned response, w.count fun m =>
      { m with totalErrors := m.totalErrors + 1 }.emptyKey (fromUtf8Lossy request.opcode))
  | .returned response => (.returned response, w)

end HTWorker

/-! ## Calls that run side by side -/

structure WorkerCall where
  request : ZPack
  phase : CallPhase
  deriving DecidableEq, Repr

/-- The shared worker and the calls made so far, each under its number. -/
structure WorkerCalls where
  worker : HTWorker
  calls : List WorkerCall
  deriving DecidableEq

inductive Turn
  | call (request : ZPack)
  /-- The scheduler runs the next section of a call at a time of the clock. -/
  | run (call now : Nat)
  deriving DecidableEq, Repr

namespace WorkerCalls

def new (w : HTWorker) : WorkerCalls := { worker := w, calls := [] }

/-- What is seen of a call that moves on: its answer, the moment it has one to return. -/
def answers (c : Nat) (phase next : CallPhase) : List (CallEvent ZPack ZPack) :=
  match phase.response, next.response with
  | none, some response => [.answer c response]
  | _, _ => []

def move (p : WorkerCalls) (c : Nat) (request : ZPack) (next : CallPhase × HTWorker) : WorkerCalls :=
  { worker := next.2, calls := p.calls.set c ⟨request, next.1⟩ }

def step (p : WorkerCalls) : Turn → List (CallEvent ZPack ZPack) × WorkerCalls
  | .call request => ([.invoke p.calls.length request], { p with calls := p.calls ++ [⟨request, .entered⟩] })
  | .run c now =>
    match p.calls[c]? with
    | none => ([], p)
    | some call =>
      let next := p.worker.advance now call.request call.phase
      (answers c call.phase next.1, p.move c call.request next)

/-- The invocations and answers of a run. -/
def history (w : HTWorker) (turns : List Turn) : List (CallEvent ZPack ZPack) :=
  (Machine.outputs step (new w) turns).flatten

theorem length_step_run (p : WorkerCalls) (c now : Nat) : (p.step (.run c now)).2.calls.length = p.calls.length := by
  simp only [step]
  split
  · rfl
  · exact List.length_set

/-- A call keeps its request, and once it has returned its answer. -/
theorem step_kept {p : WorkerCalls} {c : Nat} {request : ZPack} {phase : CallPhase}
    (h : p.calls[c]? = some ⟨request, phase⟩) (turn : Turn) :
    ∃ next, (p.step turn).2.calls[c]? = some ⟨request, next⟩ ∧
      ∀ response, phase = .returned response → next = .returned response := by
  cases turn with
  | call r => exact ⟨phase, by rw [step, List.getElem?_append_left (List.getElem?_eq_some_iff.1 h).1, h], fun _ => id⟩
  | run d now =>
    simp only [step]
    cases hd : p.calls[d]? with
    | none => exact ⟨phase, h, fun _ => id⟩
    | some call =>
      simp only [move]
      by_cases heq : d = c
      · subst heq
        obtain rfl : call = ⟨request, phase⟩ := Option.some.inj (hd.symm.trans h)
        refine ⟨_, List.getElem?_set_self (List.getElem?_eq_some_iff.1 h).1, ?_⟩
        rintro response rfl
        rfl
      · exact ⟨phase, by rw [List.getElem?_set_ne heq, h], fun _ => id⟩

/-- What has returned was seen to be answered. -/
theorem answer_mem_history (w : HTWorker) (turns : List Turn) {c : Nat} {request response : ZPack}
    (h : (Machine.after step (new w) turns).calls[c]? = some ⟨request, .returned response⟩) :
    CallEvent.answer c response ∈ history w turns := by
  induction turns using List.reverseRecOn with
  | nil => simp [new] at h
  | append_singleton turns turn ih =>
    rw [Machine.after_append] at h
    rw [history, Machine.outputs_append, List.flatten_append, List.mem_append]
    simp only [Machine.after_cons, Machine.after_nil, Machine.outputs_cons, Machine.outputs_nil, List.flatten_cons,
      List.flatten_nil, List.append_nil] at h ⊢
    generalize Machine.after step (new w) turns = p at h ih ⊢
    cases turn with
    | call r =>
      simp only [step, List.getElem?_append] at h
      split at h
      · exact .inl (ih h)
      · simp [List.getElem?_singleton] at h
    | run d now =>
      simp only [step] at h ⊢
      cases hd : p.calls[d]? with
      | none =>
        rw [hd] at h
        exact .inl (ih h)
      | some call =>
        rw [hd] at h
        simp only [move, List.getElem?_set] at h ⊢
        split at h
        · next heq =>
          subst heq
          obtain ⟨request', phase⟩ := call
          obtain ⟨-, rfl, hnext⟩ : d < p.calls.length ∧ request' = request ∧
              (p.worker.advance now request' phase).1 = .returned response := by simpa using h
          cases hphase : phase.response with
          | some r =>
            obtain rfl := CallPhase.response_eq_some_iff.1 hphase
            obtain rfl : r = response := CallPhase.returned.inj hnext
            exact .inl (ih hd)
          | none =>
            right
            simp only [answers, hphase, hnext]
            exact List.mem_cons_self
        · exact .inl (ih h)

end WorkerCalls

/-! ## One request on the store -/

/-- `process` without its metrics, which no answer depends on. -/
def NoVoHT.answer (store : NoVoHT) (request : ZPack) : ZPack × NoVoHT :=
  let p := (HTWorker.new store).process request
  (p.1, p.2.store)

namespace HTWorker

section Answer

variable (w : HTWorker) (request : ZPack)

theorem callback_store (response : ZPack) (key expected : String) (lease : Nat) :
    (w.processStateChangeCallback response key expected lease).2.store = w.store := by
  unfold processStateChangeCallback
  simp only
  split <;> rfl

/-- Of a worker, `process` reads the store alone. -/
theorem process_eq_answer :
    (w.process request).1 = (w.store.answer request).1 ∧ (w.process request).2.store = (w.store.answer request).2 := by
  refine ⟨by rw [NoVoHT.answer, process_answer, process_answer]; rfl, ?_⟩
  unfold NoVoHT.answer process
  simp only
  split
  · rfl
  split
  · unfold processLookup
    simp only [count_store, new]
    cases w.store.get (fromUtf8Lossy request.key) <;> rfl
  split
  · unfold processInsert
    simp only [count_store, new]
    rcases w.store.put (fromUtf8Lossy request.key) (fromUtf8Lossy request.val) with ⟨_ | _, store⟩ <;> rfl
  split
  · unfold processRemove
    simp only [count_store, new]
    rcases w.store.remove (fromUtf8Lossy request.key) with ⟨_ | _, store⟩ <;> rfl
  split
  · unfold processAppend
    simp only [count_store, new]
    rcases w.store.append (fromUtf8Lossy request.key) (fromUtf8Lossy request.val) with ⟨_ | _, store⟩ <;> rfl
  split
  · unfold processCompareSwap
    simp only [count_store, new]
    rcases w.store.compareSwap (fromUtf8Lossy request.key) (fromUtf8Lossy request.val)
      (fromUtf8Lossy request.newval) with ⟨_ | actual, store⟩
    · rfl
    · simp only
      split <;> rfl
  split
  · rw [callback_store, callback_store]
    rfl
  · rfl

/-- The phase of a call that has its answer. -/
def answered (response : ZPack) : CallPhase := bif Failed response then .failing response else .returned response

/-- The section of the store does all that a request does to the store, and comes to its answer. -/
theorem operate_eq (now : Nat) (hkey : fromUtf8Lossy request.key ≠ "") (hop : fromUtf8Lossy request.opcode ∈ OPCODES)
    (hcallback : fromUtf8Lossy request.opcode ≠ OPC_STCHGCB) :
    w.operate now request = (answered (w.store.answer request).1, { w with store := (w.store.answer request).2 }) := by
  simp only [OPCODES, List.mem_cons, List.not_mem_nil, or_false] at hop
  unfold NoVoHT.answer process operate
  simp only [if_neg hkey]
  rcases hop with hop | hop | hop | hop | hop | hop
  · simp only [hop, ↓reduceIte]
    unfold processLookup answered
    simp only [count_store, new]
    cases w.store.get (fromUtf8Lossy request.key) with
    | error e => rfl
    | ok val =>
      have hok : Failed { opcode := request.opcode, key := request.key, val := utf8Bytes val, valnull := false,
                          lease := utf8Bytes (REC_SUCC ++ val) } = false := by
        rw [Failed, decide_eq_true (leaseSucceeds_lookup val)]
        rfl
      simp only [hok]
      rfl
  · simp only [hop, ↓reduceIte]
    repeat rw [if_neg (by decide)]
    unfold processInsert
    simp only [count_store, new]
    rcases w.store.put (fromUtf8Lossy request.key) (fromUtf8Lossy request.val) with ⟨_ | _, store⟩ <;> rfl
  · simp only [hop, ↓reduceIte]
    repeat rw [if_neg (by decide)]
    unfold processRemove
    simp only [count_store, new]
    rcases w.store.remove (fromUtf8Lossy request.key) with ⟨_ | _, store⟩ <;> rfl
  · simp only [hop, ↓reduceIte]
    repeat rw [if_neg (by decide)]
    unfold processAppend
    simp only [count_store, new]
    rcases w.store.append (fromUtf8Lossy request.key) (fromUtf8Lossy request.val) with ⟨_ | _, store⟩ <;> rfl
  · simp only [hop, ↓reduceIte]
    repeat rw [if_neg (by decide)]
    unfold processCompareSwap
    simp only [count_store, new]
    rcases w.store.compareSwap (fromUtf8Lossy request.key) (fromUtf8Lossy request.val)
      (fromUtf8Lossy request.newval) with ⟨_ | actual, store⟩
    · rfl
    · by_cases hswap : actual = fromUtf8Lossy request.newval
      · simp only [if_pos hswap]
        rfl
      · simp only [if_neg hswap]
        rfl
  · exact absurd hop hcallback

/-- A callback has yet to look at the store. -/
theorem operate_callback (now : Nat) (hop : fromUtf8Lossy request.opcode = OPC_STCHGCB) :
    w.operate now request = (.polling (now + leaseMs request.lease), w) := by
  unfold operate
  simp only [hop]
  repeat rw [if_neg (by decide)]

/-- A value that stays is seen at the first poll or never. -/
theorem sccbPoll_const (value : Option String) (expected : String) (lease now : Nat) :
    sccbPoll (fun _ => value) expected lease now = if value = some expected then REC_SUCC else REC_SCCBPOLLTRY := by
  fun_induction sccbPoll (fun _ => value) expected lease now with
  | case1 now hmatch => rw [if_pos hmatch]
  | case2 now hmatch hlease => rw [if_neg hmatch]
  | case3 now hmatch hlease ih => exact ih

/-- A callback that has the store to itself. -/
theorem answer_callback (hkey : fromUtf8Lossy request.key ≠ "") (hop : fromUtf8Lossy request.opcode = OPC_STCHGCB)
    (store : NoVoHT) :
    store.answer request =
      ({ opcode := request.opcode, key := request.key,
         lease := utf8Bytes (if store.map.lookup (fromUtf8Lossy request.key) = some (fromUtf8Lossy request.val)
           then REC_SUCC else REC_SCCBPOLLTRY) }, store) := by
  have hcommand : Command.ofRequest request = .stateChangeCallback (fromUtf8Lossy request.key)
      (fromUtf8Lossy request.val) (leaseMs request.lease) := by
    simp only [Command.ofRequest, if_neg hkey, hop]
    rfl
  have hstore : ((HTWorker.new store).process request).2.store = store := by
    unfold process
    simp only [if_neg hkey, hop]
    repeat rw [if_neg (by decide)]
    rw [if_pos trivial, callback_store]
    rfl
  rw [NoVoHT.answer, process_answer, hstore, hcommand, ← sccbPoll_const _ _ (leaseMs request.lease) 0]
  rfl

theorem answer_expired (hkey : fromUtf8Lossy request.key ≠ "") (hop : fromUtf8Lossy request.opcode = OPC_STCHGCB)
    {store : NoVoHT} (h : store.map.lookup (fromUtf8Lossy request.key) ≠ some (fromUtf8Lossy request.val)) :
    store.answer request =
      ({ opcode := request.opcode, key := request.key, lease := utf8Bytes REC_SCCBPOLLTRY }, store) := by
  rw [answer_callback request hkey hop, if_neg h]

/-- The store stays as it is without a key, and under an opcode there is none. -/
theorem answer_emptyKey (hkey : fromUtf8Lossy request.key = "") (store : NoVoHT) :
    store.answer request = ({ opcode := request.opcode, key := request.key, lease := utf8Bytes REC_EMPTYKEY }, store) := by
  unfold NoVoHT.answer process
  simp only [if_pos hkey]
  rfl

theorem answer_unrecognized (hkey : fromUtf8Lossy request.key ≠ "") (hop : fromUtf8Lossy request.opcode ∉ OPCODES)
    (store : NoVoHT) :
    store.answer request = ({ opcode := request.opcode, key := request.key, lease := utf8Bytes REC_UOPC }, store) := by
  simp only [OPCODES, List.mem_cons, List.not_mem_nil, or_false, not_or] at hop
  obtain ⟨hlookup, hinsert, hremove, happend, hswap, hcallback⟩ := hop
  unfold NoVoHT.answer process
  simp only [if_neg hkey, if_neg hlookup, if_neg hinsert, if_neg hremove, if_neg happend, if_neg hswap,
    if_neg hcallback]
  rfl

end Answer

end HTWorker

/-! ## Where a call stands in the order -/

/-- What the request of a call in a phase is known to be. -/
def CallPhase.Fits (request : ZPack) : CallPhase → Prop
  | entered | dispatched | returned _ => True
  | counted => fromUtf8Lossy request.key ≠ "" ∧ fromUtf8Lossy request.opcode ∈ OPCODES
  | polling _ | missed _ | asleep _ _ =>
    fromUtf8Lossy request.key ≠ "" ∧ fromUtf8Lossy request.opcode = OPC_STCHGCB
  | failing response => fromUtf8Lossy request.key ≠ "" ∧ fromUtf8Lossy request.opcode ∈ OPCODES ∧ Failed response = true

section Order

variable (initial : NoVoHT) (history : List (CallEvent ZPack ZPack)) (order : List (Done ZPack ZPack))

/-- The store does not hold what a callback waits for. -/
def NoMatch (request : ZPack) (store : NoVoHT) : Prop :=
  store.map.lookup (fromUtf8Lossy request.key) ≠ some (fromUtf8Lossy request.val)

/-- A call with an answer is in the order, another one is not; one that saw no match keeps the place
where it did. -/
def Stands (c : Nat) (request : ZPack) : CallPhase → Prop
  | .failing response | .returned response => ⟨c, request, response⟩ ∈ order
  | .missed _ => c ∉ order.map Done.call ∧ Point NoVoHT.answer initial history order c (NoMatch request)
  | _ => c ∉ order.map Done.call

/-- What is known of a call that was made. -/
structure Known (c : Nat) (call : WorkerCall) : Prop where
  invoked : CallEvent.invoke c call.request ∈ history
  fits : call.phase.Fits call.request
  stands : Stands initial history order c call.request call.phase

/-- The order explains the history and the state of the calls. -/
structure Explains (p : WorkerCalls) : Prop where
  linearizes : Linearizes NoVoHT.answer initial history order
  store : p.worker.store = Machine.after NoVoHT.answer initial (order.map Done.input)
  numbered : ∀ d ∈ order, d.call < p.calls.length
  known : ∀ c call, p.calls[c]? = some call → Known initial history order c call

end Order

section Stands

variable {initial : NoVoHT} {history : List (CallEvent ZPack ZPack)} {order before after : List (Done ZPack ZPack)}
  {c : Nat} {request : ZPack} {phase : CallPhase}

theorem Stands.invoke (h : Stands initial history order c request phase) {d : Nat} (hd : c ≠ d) (r : ZPack) :
    Stands initial (history ++ [.invoke d r]) order c request phase := by
  cases phase with
  | missed deadline => exact ⟨h.1, h.2.invoke hd r⟩
  | entered | dispatched | counted | polling | asleep | failing | returned => exact h

theorem Stands.answer (h : Stands initial history order c request phase) (d : Nat) (o : ZPack) :
    Stands initial (history ++ [.answer d o]) order c request phase := by
  cases phase with
  | missed deadline => exact ⟨h.1, h.2.answer d o⟩
  | entered | dispatched | counted | polling | asleep | failing | returned => exact h

theorem notMem_insert {d : Done ZPack ZPack} (hd : d.call ≠ c) (h : c ∉ (before ++ after).map Done.call) :
    c ∉ (before ++ d :: after).map Done.call := by
  simp only [List.map_append, List.map_cons, List.mem_append, List.mem_cons, not_or] at h ⊢
  exact ⟨h.1, Ne.symm hd, h.2⟩

/-- Another call takes effect at the end of the order. -/
theorem Stands.commit (h : Stands initial history order c request phase) {d : Done ZPack ZPack} (hd : d.call ≠ c)
    (hprecedes : ¬ Precedes history d.call c) : Stands initial history (order ++ [d]) c request phase := by
  have hnot : c ∉ order.map Done.call → c ∉ (order ++ [d]).map Done.call := fun hc =>
    notMem_insert hd (by rwa [List.append_nil])
  cases phase with
  | missed deadline => exact ⟨hnot h.1, h.2.commit hprecedes⟩
  | failing response | returned response => exact List.mem_append_left _ h
  | entered | dispatched | counted | polling | asleep => exact hnot h

/-- Another call takes effect somewhere in the order, and changes nothing. -/
theorem Stands.insert (h : Stands initial history (before ++ after) c request phase) {d : Done ZPack ZPack}
    (hd : d.call ≠ c) (hprecedes : ¬ Precedes history d.call c)
    (hidle : (NoVoHT.answer (Machine.after NoVoHT.answer initial (before.map Done.input)) d.input).2 =
      Machine.after NoVoHT.answer initial (before.map Done.input)) :
    Stands initial history (before ++ d :: after) c request phase := by
  cases phase with
  | missed deadline => exact ⟨notMem_insert hd h.1, h.2.insert hprecedes hidle⟩
  | failing response | returned response => exact List.perm_middle.symm.subset (List.mem_cons_of_mem _ h)
  | entered | dispatched | counted | polling | asleep => exact notMem_insert hd h

end Stands

/-! ## A step of the run -/

namespace Explains

variable {initial : NoVoHT} {history : List (CallEvent ZPack ZPack)} {order : List (Done ZPack ZPack)}
  {p : WorkerCalls}

theorem new (w : HTWorker) : Explains w.store [] [] (WorkerCalls.new w) where
  linearizes := .nil
  store := rfl
  numbered := by simp
  known := by simp [WorkerCalls.new]

/-- A call yet to be made is not in the order. -/
theorem fresh (h : Explains initial history order p) : p.calls.length ∉ order.map Done.call := by
  intro hmem
  obtain ⟨d, hd, he⟩ := List.mem_map.1 hmem
  have hlt := h.numbered d hd
  omega

theorem call (h : Explains initial history order p) (request : ZPack) :
    Explains initial (history ++ [.invoke p.calls.length request]) order
      { p with calls := p.calls ++ [⟨request, .entered⟩] } where
  linearizes := h.linearizes.invoke h.fresh request
  store := h.store
  numbered d hd := by
    have hlt := h.numbered d hd
    simp only [List.length_append, List.length_singleton]
    omega
  known c call hc := by
    rcases Nat.lt_or_ge c p.calls.length with hlt | hge
    · rw [List.getElem?_append_left hlt] at hc
      have hold := h.known c call hc
      exact ⟨List.mem_append_left _ hold.invoked, hold.fits, hold.stands.invoke (Nat.ne_of_lt hlt) request⟩
    · rw [List.getElem?_append_right hge] at hc
      obtain ⟨hsub, rfl⟩ : c - p.calls.length = 0 ∧ (⟨request, .entered⟩ : WorkerCall) = call := by
        simpa [List.getElem?_singleton] using hc
      obtain rfl : c = p.calls.length := by omega
      exact ⟨List.mem_append_right _ List.mem_cons_self, trivial, h.fresh⟩

/-- A call that has taken effect is answered. -/
theorem answer (h : Explains initial history order p) {d : Done ZPack ZPack} (hd : d ∈ order) :
    Explains initial (history ++ [.answer d.call d.output]) order p where
  linearizes := h.linearizes.answer hd
  store := h.store
  numbered := h.numbered
  known c call hc := by
    have hold := h.known c call hc
    exact ⟨List.mem_append_left _ hold.invoked, hold.fits, hold.stands.answer d.call d.output⟩

section Move

variable {c : Nat} {call : WorkerCall} {next : CallPhase × HTWorker} (h : Explains initial history order p)
  (hcall : p.calls[c]? = some call)

include h hcall

/-- A call moves on, and the others stand in the order as before. -/
theorem move {order' : List (Done ZPack ZPack)} (hlin : Linearizes NoVoHT.answer initial history order')
    (hstore : next.2.store = Machine.after NoVoHT.answer initial (order'.map Done.input))
    (hnew : ∀ d ∈ order', d ∈ order ∨ d.call = c)
    (hothers : ∀ d request phase, c ≠ d → Stands initial history order d request phase →
      Stands initial history order' d request phase)
    (hfits : next.1.Fits call.request) (hstands : Stands initial history order' c call.request next.1) :
    Explains initial history order' (p.move c call.request next) where
  linearizes := hlin
  store := hstore
  numbered d hd := by
    have hlen : c < p.calls.length := (List.getElem?_eq_some_iff.1 hcall).1
    simp only [WorkerCalls.move, List.length_set]
    rcases hnew d hd with hd | rfl
    · exact h.numbered d hd
    · exact hlen
  known d other hd := by
    simp only [WorkerCalls.move, List.getElem?_set] at hd
    split at hd
    · next heq =>
      subst heq
      obtain ⟨-, rfl⟩ : c < p.calls.length ∧ (⟨call.request, next.1⟩ : WorkerCall) = other := by simpa using hd
      exact ⟨(h.known c call hcall).invoked, hfits, hstands⟩
    · next hne =>
      have hold := h.known d other hd
      exact ⟨hold.invoked, hold.fits, hothers d _ _ hne hold.stands⟩

/-- It leaves the store and the order. -/
theorem quiet (hstore : next.2.store = p.worker.store) (hfits : next.1.Fits call.request)
    (hstands : Stands initial history order c call.request next.1) :
    Explains initial history order (p.move c call.request next) :=
  h.move hcall h.linearizes (hstore.trans h.store) (fun _ => Or.inl) (fun _ _ _ _ => id) hfits hstands

/-- It takes effect now. -/
theorem commit (hc : c ∉ order.map Done.call) (hstore : next.2.store = (p.worker.store.answer call.request).2)
    (hnext : next.1 = .failing (p.worker.store.answer call.request).1 ∨
      next.1 = .returned (p.worker.store.answer call.request).1) (hfits : next.1.Fits call.request) :
    ∃ order', Explains initial history order' (p.move c call.request next) := by
  have hlin := h.linearizes.commit hc (h.known c call hcall).invoked
  rw [← h.store] at hlin
  refine ⟨_, h.move hcall hlin ?_ ?_ ?_ hfits ?_⟩
  · rw [List.map_append, Machine.after_append, ← h.store, hstore]
    rfl
  · intro d hd
    rcases List.mem_append.1 hd with hd | hd
    · exact .inl hd
    · exact .inr (by rw [List.mem_singleton.1 hd])
  · intro d request phase hd hs
    exact hs.commit hd (h.linearizes.not_precedes hc d)
  · rcases hnext with hnext | hnext <;> rw [hnext] <;> exact List.mem_append_right _ List.mem_cons_self

/-- It took effect at a place in the order where it changed nothing. -/
theorem insert (hc : c ∉ order.map Done.call) {o : ZPack}
    (hpoint : Point NoVoHT.answer initial history order c fun s => s.answer call.request = (o, s))
    (hstore : next.2.store = p.worker.store) (hnext : next.1 = .failing o) (hfits : next.1.Fits call.request) :
    ∃ order', Explains initial history order' (p.move c call.request next) := by
  obtain ⟨before, after, rfl, hidle, hlin⟩ := h.linearizes.insert hc (h.known c call hcall).invoked hpoint
  refine ⟨before ++ ⟨c, call.request, o⟩ :: after, h.move hcall hlin ?_ ?_ ?_ hfits ?_⟩
  · rw [List.map_append, List.map_cons, after_idle hidle, ← List.map_append, ← h.store, hstore]
  · intro d hd
    rcases List.mem_cons.1 (List.perm_middle.subset hd) with rfl | hd
    · exact .inr rfl
    · exact .inl hd
  · intro d request phase hd hs
    exact hs.insert hd (h.linearizes.not_precedes hc d) hidle
  · rw [hnext]
    exact List.perm_middle.symm.subset List.mem_cons_self

/-- Whatever section a call runs, an order explains what comes of it. -/
theorem advance (now : Nat) :
    ∃ order', Explains initial history order' (p.move c call.request (p.worker.advance now call.request call.phase)) := by
  obtain ⟨request, phase⟩ := call
  have hknown := h.known c _ hcall
  have hfits := hknown.fits
  have hstands := hknown.stands
  cases phase with
  | entered => exact ⟨order, h.quiet hcall rfl trivial hstands⟩
  | dispatched =>
    by_cases hkey : fromUtf8Lossy request.key = ""
    · refine h.commit hcall hstands ?_ (.inr ?_) ?_
      all_goals simp only [HTWorker.advance, if_pos hkey, HTWorker.answer_emptyKey request hkey]
      · rfl
      · trivial
    by_cases hop : fromUtf8Lossy request.opcode ∈ OPCODES
    · refine ⟨order, h.quiet hcall ?_ ?_ ?_⟩
      all_goals simp only [HTWorker.advance, if_neg hkey, if_pos hop]
      · rfl
      · exact ⟨hkey, hop⟩
      · exact hstands
    · refine h.commit hcall hstands ?_ (.inr ?_) ?_
      all_goals simp only [HTWorker.advance, if_neg hkey, if_neg hop, HTWorker.answer_unrecognized request hkey hop]
      · rfl
      · trivial
  | counted =>
    obtain ⟨hkey, hop⟩ := hfits
    by_cases hcallback : fromUtf8Lossy request.opcode = OPC_STCHGCB
    · refine ⟨order, h.quiet hcall ?_ ?_ ?_⟩
      all_goals simp only [HTWorker.advance, HTWorker.operate_callback _ _ now hcallback]
      · exact ⟨hkey, hcallback⟩
      · exact hstands
    · have heq := p.worker.operate_eq request now hkey hop hcallback
      refine h.commit hcall hstands ?_ ?_ ?_
      all_goals simp only [HTWorker.advance, heq, HTWorker.answered]
      all_goals cases hfailed : Failed (p.worker.store.answer request).1
      · exact .inr rfl
      · exact .inl rfl
      · trivial
      · exact ⟨hkey, hop, hfailed⟩
  | polling deadline =>
    obtain ⟨hkey, hop⟩ := hfits
    by_cases hmatch : p.worker.store.map.lookup (fromUtf8Lossy request.key) = some (fromUtf8Lossy request.val)
    · refine h.commit hcall hstands ?_ (.inr ?_) ?_
      all_goals simp only [HTWorker.advance, NoVoHT.get, HTWorker.answer_callback request hkey hop, hmatch, ↓reduceIte]
      · trivial
    · have hnext : p.worker.advance now request (.polling deadline) = (.missed deadline, p.worker) := by
        simp only [HTWorker.advance, NoVoHT.get]
        cases hget : p.worker.store.map.lookup (fromUtf8Lossy request.key) with
        | none => rfl
        | some current =>
          have hne : current ≠ fromUtf8Lossy request.val := fun he => hmatch (he ▸ hget)
          simp only [if_neg hne]
      refine ⟨order, h.quiet hcall ?_ ?_ ?_⟩
      all_goals simp only [hnext]
      · exact ⟨hkey, hop⟩
      · refine ⟨hstands, .here ?_⟩
        rw [← h.store]
        exact hmatch
  | missed deadline =>
    obtain ⟨hkey, hop⟩ := hfits
    obtain ⟨hc, hpoint⟩ := hstands
    by_cases hexpired : deadline ≤ now
    · -- an expired callback took effect where it last saw no match
      have hanswer := hpoint.imp fun _ => HTWorker.answer_expired request hkey hop
      refine h.insert hcall hc hanswer ?_ ?_ ?_
      all_goals simp only [HTWorker.advance, if_pos hexpired]
      exact ⟨hkey, by rw [hop]; decide, rfl⟩
    · refine ⟨order, h.quiet hcall ?_ ?_ ?_⟩
      all_goals simp only [HTWorker.advance, if_neg hexpired]
      · exact ⟨hkey, hop⟩
      · exact hc
  | asleep wake deadline =>
    by_cases hwake : wake ≤ now
    · refine ⟨order, h.quiet hcall ?_ ?_ ?_⟩
      all_goals simp only [HTWorker.advance, if_pos hwake]
      · exact hfits
      · exact hstands
    · refine ⟨order, h.quiet hcall ?_ ?_ ?_⟩
      all_goals simp only [HTWorker.advance, if_neg hwake]
      · exact hfits
      · exact hstands
  | failing response => exact ⟨order, h.quiet hcall rfl trivial hstands⟩
  | returned response => exact ⟨order, h.quiet hcall rfl hfits hstands⟩

end Move

/-- One turn: the order grows along with the history. -/
theorem step (h : Explains initial history order p) (turn : Turn) :
    ∃ order', Explains initial (history ++ (p.step turn).1) order' (p.step turn).2 := by
  cases turn with
  | call request => exact ⟨order, h.call request⟩
  | run c now =>
    simp only [WorkerCalls.step]
    cases hcall : p.calls[c]? with
    | none => exact ⟨order, by rwa [List.append_nil]⟩
    | some call =>
      obtain ⟨order', hnext⟩ := h.advance hcall now
      have hself : (p.move c call.request (p.worker.advance now call.request call.phase)).calls[c]? =
          some ⟨call.request, (p.worker.advance now call.request call.phase).1⟩ := by
        rw [WorkerCalls.move, List.getElem?_set_self (List.getElem?_eq_some_iff.1 hcall).1]
      have hstands := (hnext.known c _ hself).stands
      refine ⟨order', ?_⟩
      simp only [WorkerCalls.answers]
      split
      · next response _ hresponse =>
        rw [CallPhase.response_eq_some_iff.1 hresponse] at hstands
        exact hnext.answer hstands
      · rwa [List.append_nil]

end Explains

/-- Some order explains a run. -/
theorem WorkerCalls.explained (w : HTWorker) (turns : List Turn) :
    ∃ order, Explains w.store (history w turns) order (Machine.after step (new w) turns) := by
  induction turns using List.reverseRecOn with
  | nil => exact ⟨[], .new w⟩
  | append_singleton turns turn ih =>
    obtain ⟨order, h⟩ := ih
    obtain ⟨order', h'⟩ := h.step turn
    refine ⟨order', ?_⟩
    rw [history, Machine.outputs_append, Machine.after_append, List.flatten_append]
    simpa [history] using h'

/-! ## Linearizability -/

/-- Requests processed one at a time are answered, and change the store, apart from the metrics. -/
theorem HTWorker.simulates_answer (w : HTWorker) (requests : List ZPack) :
    Machine.outputs process w requests = Machine.outputs NoVoHT.answer w.store requests ∧
      (Machine.after process w requests).store = Machine.after NoVoHT.answer w.store requests :=
  Machine.simulates (R := fun w store => HTWorker.store w = store) (p := fun _ => True)
    (fun w _ request h _ => h ▸ process_eq_answer w request) rfl fun _ _ => trivial

/-- An order of calls on the store is one of calls of the worker. -/
theorem linearizes_process {w : HTWorker} {history : List (CallEvent ZPack ZPack)} {order : List (Done ZPack ZPack)}
    (h : Linearizes NoVoHT.answer w.store history order) : Linearizes HTWorker.process w history order where
  distinct := h.distinct
  invoked := h.invoked
  answered := h.answered
  sequential := h.sequential.trans (w.simulates_answer _).1.symm
  realTime := h.realTime

/-- What explains a run on the store explains it of the worker. -/
theorem Explains.linearizes_process {w : HTWorker} {history : List (CallEvent ZPack ZPack)}
    {order : List (Done ZPack ZPack)} {p : WorkerCalls} (h : Explains w.store history order p) :
    Linearizes HTWorker.process w history order :=
  Zht.linearizes_process h.linearizes

/-- Under any schedule of the calls there is an order, the real one where calls did not overlap, in
which `process` gives one call after the other the same answer, and leaves the same store and file. -/
theorem calls_linearizable (w : HTWorker) (turns : List Turn) :
    ∃ order, Linearizes HTWorker.process w (WorkerCalls.history w turns) order ∧
      (Machine.after WorkerCalls.step (WorkerCalls.new w) turns).worker.store =
        (Machine.after HTWorker.process w (order.map Done.input)).store := by
  obtain ⟨order, h⟩ := WorkerCalls.explained w turns
  exact ⟨order, h.linearizes_process, h.store.trans (w.simulates_answer _).2.symm⟩

end Zht
