/-
`HTWorker::process`, the server's request processor: it decodes the fields of a `ZPack` lossily,
runs the operation on its `NoVoHT` and encodes the outcome in the lease and the value of the answer.
Below the worker stands what it computes on the map alone: the `Command` a request comes to, the
`Reply` it is given and the map it leaves (`process_spec`).
-/
import Zht.Lib.Decimal
import Zht.Proto.ZPack
import Zht.Storage.Table

namespace Zht

open Lib Lib.Utf8

/-! ## Metrics -/

structure HTWorkerMetrics where
  totalOperations : UInt64 := 0
  totalErrors : UInt64 := 0
  insertCount : UInt64 := 0
  insertErrors : UInt64 := 0
  lookupCount : UInt64 := 0
  lookupErrors : UInt64 := 0
  removeCount : UInt64 := 0
  removeErrors : UInt64 := 0
  appendCount : UInt64 := 0
  appendErrors : UInt64 := 0
  compareSwapCount : UInt64 := 0
  compareSwapErrors : UInt64 := 0
  stateChangeCallbackCount : UInt64 := 0
  stateChangeCallbackErrors : UInt64 := 0
  unrecognizedCount : UInt64 := 0
  deriving DecidableEq, Repr

/-- The error counter of an opcode, for a request with an empty key. -/
def HTWorkerMetrics.emptyKey (m : HTWorkerMetrics) (opcode : String) : HTWorkerMetrics :=
  if opcode = OPC_LOOKUP then { m with lookupErrors := m.lookupErrors + 1 }
  else if opcode = OPC_INSERT then { m with insertErrors := m.insertErrors + 1 }
  else if opcode = OPC_REMOVE then { m with removeErrors := m.removeErrors + 1 }
  else if opcode = OPC_APPEND then { m with appendErrors := m.appendErrors + 1 }
  else if opcode = OPC_CMPSWP then { m with compareSwapErrors := m.compareSwapErrors + 1 }
  else if opcode = OPC_STCHGCB then { m with stateChangeCallbackErrors := m.stateChangeCallbackErrors + 1 }
  else m

/-! ## State change callbacks -/

/-- A `u64` text, or the default poll interval when it is none. -/
def leaseMs (lease : Bytes) : Nat :=
  match Decimal.parseUnsigned (2 ^ 64) (fromUtf8Lossy lease) with
  | .ok ms => ms
  | .error _ => SCCB_POLL_DEFAULT_INTERVAL

/-- The polling loop, `now` milliseconds into it: `value t` is what the store holds at time `t`, and
a sleep takes exactly the poll interval. -/
def sccbPoll (value : Nat → Option String) (expected : String) (lease now : Nat) : String :=
  if value now = some expected then REC_SUCC
  else if lease ≤ now then REC_SCCBPOLLTRY
  else sccbPoll value expected lease (now + SCCB_POLL_DEFAULT_INTERVAL)
termination_by lease - now
decreasing_by
  rename_i h
  exact Nat.sub_lt_sub_left (Nat.not_le.1 h) (Nat.lt_add_of_pos_right (by decide))

/-! ## The worker -/

structure HTWorker where
  store : NoVoHT
  metrics : HTWorkerMetrics
  deriving DecidableEq

namespace HTWorker

def new (store : NoVoHT) : HTWorker := { store, metrics := {} }

def count (w : HTWorker) (f : HTWorkerMetrics → HTWorkerMetrics) : HTWorker := { w with metrics := f w.metrics }

@[simp] theorem count_store (w : HTWorker) (f : HTWorkerMetrics → HTWorkerMetrics) : (w.count f).store = w.store := rfl

/-- The lease carries the value after the status. -/
def processLookup (w : HTWorker) (response : ZPack) (key : String) : ZPack × HTWorker :=
  let w := w.count fun m => { m with lookupCount := m.lookupCount + 1 }
  match w.store.get key with
  | .ok val => ({ response with val := utf8Bytes val, valnull := false, lease := utf8Bytes (REC_SUCC ++ val) }, w)
  | .error _ =>
    ({ response with valnull := true, lease := utf8Bytes REC_NONEXISTKEY },
      w.count fun m => { m with lookupErrors := m.lookupErrors + 1, totalErrors := m.totalErrors + 1 })

def processInsert (w : HTWorker) (response : ZPack) (key val : String) : ZPack × HTWorker :=
  let w := w.count fun m => { m with insertCount := m.insertCount + 1 }
  match w.store.put key val with
  | (.ok (), store) => ({ response with lease := utf8Bytes REC_SUCC }, { w with store })
  | (.error _, store) =>
    ({ response with lease := utf8Bytes REC_SRVFAIL },
      -- only an empty key fails, and that is answered before
      { w with store }.count fun m => { m with insertErrors := m.insertErrors + 1, totalErrors := m.totalErrors + 1 })

def processRemove (w : HTWorker) (response : ZPack) (key : String) : ZPack × HTWorker :=
  let w := w.count fun m => { m with removeCount := m.removeCount + 1 }
  match w.store.remove key with
  | (.ok (), store) => ({ response with lease := utf8Bytes REC_SUCC }, { w with store })
  | (.error _, store) =>
    ({ response with lease := utf8Bytes REC_NONEXISTKEY },
      { w with store }.count fun m => { m with removeErrors := m.removeErrors + 1, totalErrors := m.totalErrors + 1 })

def processAppend (w : HTWorker) (response : ZPack) (key val : String) : ZPack × HTWorker :=
  let w := w.count fun m => { m with appendCount := m.appendCount + 1 }
  match w.store.append key val with
  | (.ok (), store) => ({ response with lease := utf8Bytes REC_SUCC }, { w with store })
  | (.error _, store) =>
    ({ response with lease := utf8Bytes REC_SRVFAIL },
      { w with store }.count fun m => { m with appendErrors := m.appendErrors + 1, totalErrors := m.totalErrors + 1 })

/-- The swap counts as made when the value left under the key is the new one. -/
def processCompareSwap (w : HTWorker) (response : ZPack) (key expected newVal : String) : ZPack × HTWorker :=
  let w := w.count fun m => { m with compareSwapCount := m.compareSwapCount + 1 }
  let failed (m : HTWorkerMetrics) : HTWorkerMetrics :=
    { m with compareSwapErrors := m.compareSwapErrors + 1, totalErrors := m.totalErrors + 1 }
  match w.store.compareSwap key expected newVal with
  | (.ok actual, store) =>
    if actual = newVal then ({ response with lease := utf8Bytes REC_SUCC }, { w with store })
    else
      ({ response with val := utf8Bytes actual, valnull := false, lease := utf8Bytes REC_CLTFAIL },
        { w with store }.count failed)
  -- not reached: the store's compare_swap never fails
  | (.error _, store) => ({ response with lease := utf8Bytes REC_NONEXISTKEY }, { w with store }.count failed)

/-- The callback as one step: nothing else writes the store while it polls. -/
def processStateChangeCallback (w : HTWorker) (response : ZPack) (key expected : String) (lease : Nat) :
    ZPack × HTWorker :=
  let w := w.count fun m => { m with stateChangeCallbackCount := m.stateChangeCallbackCount + 1 }
  let status := sccbPoll (fun _ => w.store.map.lookup key) expected lease 0
  let response := { response with lease := utf8Bytes status }
  if status = REC_SCCBPOLLTRY then
    (response, w.count fun m =>
      { m with stateChangeCallbackErrors := m.stateChangeCallbackErrors + 1, totalErrors := m.totalErrors + 1 })
  else (response, w)

def process (w : HTWorker) (request : ZPack) : ZPack × HTWorker :=
  let opcode := fromUtf8Lossy request.opcode
  let key := fromUtf8Lossy request.key
  let response : ZPack := { opcode := request.opcode, key := request.key }
  let w := w.count fun m => { m with totalOperations := m.totalOperations + 1 }
  if key = "" then
    -- counted as an error of the opcode, but not as one of its operations
    ({ response with lease := utf8Bytes REC_EMPTYKEY },
      w.count fun m => { m with totalErrors := m.totalErrors + 1 }.emptyKey opcode)
  else if opcode = OPC_LOOKUP then w.processLookup response key
  else if opcode = OPC_INSERT then w.processInsert response key (fromUtf8Lossy request.val)
  else if opcode = OPC_REMOVE then w.processRemove response key
  else if opcode = OPC_APPEND then w.processAppend response key (fromUtf8Lossy request.val)
  else if opcode = OPC_CMPSWP then
    w.processCompareSwap response key (fromUtf8Lossy request.val) (fromUtf8Lossy request.newval)
  else if opcode = OPC_STCHGCB then
    w.processStateChangeCallback response key (fromUtf8Lossy request.val) (leaseMs request.lease)
  else
    ({ response with lease := utf8Bytes REC_UOPC },
      w.count fun m => { m with unrecognizedCount := m.unrecognizedCount + 1, totalErrors := m.totalErrors + 1 })

end HTWorker

/-! ## Commands: a request on the map alone -/

/-- What a request asks for. -/
inductive Command
  | emptyKey
  | lookup (key : String)
  | insert (key value : String)
  | remove (key : String)
  | append (key value : String)
  | compareSwap (key expected newValue : String)
  | stateChangeCallback (key expected : String) (lease : Nat)
  | unrecognized
  deriving DecidableEq, Repr

/-- The fields an answer does not copy from its request. -/
structure Reply where
  lease : String
  val : String := ""
  valnull : Bool := false
  deriving DecidableEq, Repr

def Command.ofRequest (request : ZPack) : Command :=
  let opcode := fromUtf8Lossy request.opcode
  let key := fromUtf8Lossy request.key
  if key = "" then .emptyKey
  else if opcode = OPC_LOOKUP then .lookup key
  else if opcode = OPC_INSERT then .insert key (fromUtf8Lossy request.val)
  else if opcode = OPC_REMOVE then .remove key
  else if opcode = OPC_APPEND then .append key (fromUtf8Lossy request.val)
  else if opcode = OPC_CMPSWP then .compareSwap key (fromUtf8Lossy request.val) (fromUtf8Lossy request.newval)
  else if opcode = OPC_STCHGCB then .stateChangeCallback key (fromUtf8Lossy request.val) (leaseMs request.lease)
  else .unrecognized

/-- The reply to a command, and the map it leaves. -/
def Command.run (map : Table) : Command → Reply × Table
  | emptyKey => ({ lease := REC_EMPTYKEY }, map)
  | lookup key =>
    match map.lookup key with
    | some value => ({ lease := REC_SUCC ++ value, val := value }, map)
    | none => ({ lease := REC_NONEXISTKEY, valnull := true }, map)
  | insert key value => ({ lease := REC_SUCC }, map.insert key value)
  | remove key =>
    match map.lookup key with
    | some _ => ({ lease := REC_SUCC }, map.erase key)
    | none => ({ lease := REC_NONEXISTKEY }, map)
  | append key value => ({ lease := REC_SUCC }, map.insert key (NoVoHT.appendValue map key value))
  | compareSwap key expected newValue =>
    let swap := NoVoHT.swapped map key expected newValue
    if swap.2 = newValue then ({ lease := REC_SUCC }, swap.1) else ({ lease := REC_CLTFAIL, val := swap.2 }, swap.1)
  | stateChangeCallback key expected lease => ({ lease := sccbPoll (fun _ => map.lookup key) expected lease 0 }, map)
  | unrecognized => ({ lease := REC_UOPC }, map)

/-- The key a command is about. -/
def Command.key : Command → Option String
  | emptyKey | unrecognized => none
  | lookup key | insert key _ | remove key | append key _ | compareSwap key _ _ | stateChangeCallback key _ _ => key

/-- A request is about the key it decodes to, if about any. -/
theorem Command.key_ofRequest {request : ZPack} {k : String} (h : (ofRequest request).key = some k) :
    k = fromUtf8Lossy request.key := by
  unfold ofRequest at h
  simp only at h
  repeat' split at h
  all_goals first
    | exact (Option.some.inj h).symm
    | cases h

theorem Command.ofRequest_emptyKey {request : ZPack} (h : fromUtf8Lossy request.key = "") :
    ofRequest request = .emptyKey := by
  simp only [ofRequest, h, ↓reduceIte]

section OfRequest

variable {request : ZPack} (hkey : fromUtf8Lossy request.key ≠ "")

include hkey

theorem Command.ofRequest_lookup (h : fromUtf8Lossy request.opcode = OPC_LOOKUP) :
    ofRequest request = .lookup (fromUtf8Lossy request.key) := by
  simp only [ofRequest, if_neg hkey, h]
  rfl

theorem Command.ofRequest_insert (h : fromUtf8Lossy request.opcode = OPC_INSERT) :
    ofRequest request = .insert (fromUtf8Lossy request.key) (fromUtf8Lossy request.val) := by
  simp only [ofRequest, if_neg hkey, h]
  rfl

theorem Command.ofRequest_remove (h : fromUtf8Lossy request.opcode = OPC_REMOVE) :
    ofRequest request = .remove (fromUtf8Lossy request.key) := by
  simp only [ofRequest, if_neg hkey, h]
  rfl

theorem Command.ofRequest_append (h : fromUtf8Lossy request.opcode = OPC_APPEND) :
    ofRequest request = .append (fromUtf8Lossy request.key) (fromUtf8Lossy request.val) := by
  simp only [ofRequest, if_neg hkey, h]
  rfl

end OfRequest

/-! ### The requests that client and server build

Their opcodes and keys are texts. -/

section Built

variable {key : String} (hkey : key ≠ "")

include hkey

theorem command_lookup :
    Command.ofRequest { opcode := utf8Bytes OPC_LOOKUP, key := utf8Bytes key } = .lookup key := by
  simp only [Command.ofRequest, fromUtf8Lossy_utf8Bytes, if_neg hkey]
  rfl

theorem command_insert (val : Bytes) :
    Command.ofRequest { opcode := utf8Bytes OPC_INSERT, key := utf8Bytes key, val } =
      .insert key (fromUtf8Lossy val) := by
  simp only [Command.ofRequest, fromUtf8Lossy_utf8Bytes, if_neg hkey]
  rfl

theorem command_remove :
    Command.ofRequest { opcode := utf8Bytes OPC_REMOVE, key := utf8Bytes key } = .remove key := by
  simp only [Command.ofRequest, fromUtf8Lossy_utf8Bytes, if_neg hkey]
  rfl

theorem command_append (val : Bytes) :
    Command.ofRequest { opcode := utf8Bytes OPC_APPEND, key := utf8Bytes key, val } =
      .append key (fromUtf8Lossy val) := by
  simp only [Command.ofRequest, fromUtf8Lossy_utf8Bytes, if_neg hkey]
  rfl

theorem command_compareSwap (val newval : Bytes) :
    Command.ofRequest { opcode := utf8Bytes OPC_CMPSWP, key := utf8Bytes key, val, newval } =
      .compareSwap key (fromUtf8Lossy val) (fromUtf8Lossy newval) := by
  simp only [Command.ofRequest, fromUtf8Lossy_utf8Bytes, if_neg hkey]
  rfl

end Built

/-! ### Commands and keys -/

/-- The map that a swap leaves, whatever it is answered. -/
theorem Command.run_compareSwap_map (map : Table) (key expected newValue : String) :
    ((compareSwap key expected newValue).run map).2 = (NoVoHT.swapped map key expected newValue).1 := by
  simp only [run]
  split <;> rfl

/-- A command changes no other key. -/
theorem Command.run_frame (command : Command) (map : Table) {k : String} (hk : command.key ≠ some k) :
    (command.run map).2.lookup k = map.lookup k := by
  cases command with
  | emptyKey | unrecognized | stateChangeCallback => rfl
  | lookup key =>
    simp only [run]
    cases map.lookup key <;> rfl
  | insert key value => exact Finmap.lookup_insert_of_ne _ fun e => hk (congrArg some e.symm)
  | remove key =>
    simp only [run]
    cases map.lookup key with
    | none => rfl
    | some value => exact Finmap.lookup_erase_ne fun e => hk (congrArg some e.symm)
  | append key value => exact Finmap.lookup_insert_of_ne _ fun e => hk (congrArg some e.symm)
  | compareSwap key expected newValue =>
    have hne : k ≠ key := fun e => hk (congrArg some e.symm)
    rw [run_compareSwap_map]
    exact NoVoHT.swapped_lookup_ne map hne expected newValue

/-- The reply, and the value left under the key, depend on the value under the key alone. -/
theorem Command.run_local (command : Command) {map m : Table} (h : ∀ k ∈ command.key, map.lookup k = m.lookup k) :
    (command.run map).1 = (command.run m).1 ∧
      ∀ k ∈ command.key, (command.run map).2.lookup k = (command.run m).2.lookup k := by
  cases command with
  | emptyKey | unrecognized => exact ⟨rfl, h⟩
  | lookup key =>
    have hk := h key rfl
    simp only [run, hk]
    cases m.lookup key <;> exact ⟨rfl, h⟩
  | insert key value =>
    refine ⟨rfl, ?_⟩
    rintro k ⟨⟩
    simp only [run, Finmap.lookup_insert]
  | remove key =>
    have hk := h key rfl
    simp only [run, hk]
    cases m.lookup key with
    | none => exact ⟨rfl, h⟩
    | some value =>
      refine ⟨rfl, ?_⟩
      rintro k ⟨⟩
      simp only [Finmap.lookup_erase]
  | append key value =>
    have hk := h key rfl
    refine ⟨rfl, ?_⟩
    rintro k ⟨⟩
    simp only [run, Finmap.lookup_insert, NoVoHT.appendValue, hk]
  | compareSwap key expected newValue =>
    have hval := NoVoHT.swapped_local (h key rfl) expected newValue
    constructor
    · simp only [run, hval]
      split <;> rfl
    · rintro k ⟨⟩
      rw [run_compareSwap_map, run_compareSwap_map, NoVoHT.swapped_lookup, NoVoHT.swapped_lookup, hval]
  | stateChangeCallback key expected lease =>
    refine ⟨?_, h⟩
    simp only [run, h key rfl]

/-- The answer to a request. -/
def Reply.toZPack (reply : Reply) (request : ZPack) : ZPack :=
  { opcode := request.opcode, key := request.key, val := utf8Bytes reply.val, lease := utf8Bytes reply.lease,
    valnull := reply.valnull }

/-- Two tables that answer a LOOKUP alike hold the same under its key. -/
theorem Command.lookup_answer_iff (map table : Table) (key : String) (request : ZPack) :
    ((Command.lookup key).run map).1.toZPack request = ((Command.lookup key).run table).1.toZPack request ↔
      map.lookup key = table.lookup key := by
  simp only [Command.run]
  cases map.lookup key <;> cases table.lookup key
  · simp
  · simp [Reply.toZPack]
  · simp [Reply.toZPack]
  · next v w =>
    constructor
    · intro h
      exact congrArg some (utf8Bytes_inj (congrArg ZPack.val h))
    · intro h
      rw [Option.some.inj h]

/-! ## Commands that leave a table as it is -/

/-- The command finds the table in a state it does not change. -/
def Command.Idle (map : Table) : Command → Prop
  | insert key value => map.lookup key = some value
  | remove key => map.lookup key = none
  | append _ _ => False
  | compareSwap key expected newValue =>
    ∃ current, map.lookup key = some current ∧ (current = expected → current = newValue)
  | emptyKey | lookup _ | stateChangeCallback _ _ _ | unrecognized => True

/-- An appended value is longer than the one it is appended to. -/
theorem appendValue_ne (map : Table) (key value : String) :
    map.lookup key ≠ some (NoVoHT.appendValue map key value) := by
  unfold NoVoHT.appendValue
  cases map.lookup key with
  | none => exact Option.some_ne_none _ ∘ Eq.symm
  | some existing =>
    intro h
    have hlen := congrArg String.length (Option.some.inj h)
    simp only [String.length_append] at hlen
    have hcolon : (":" : String).length = 1 := rfl
    omega

theorem Command.run_eq_self_iff (command : Command) (map : Table) :
    (command.run map).2 = map ↔ command.Idle map := by
  cases command with
  | emptyKey | stateChangeCallback | unrecognized => exact iff_of_true rfl trivial
  | lookup key =>
    refine iff_of_true ?_ trivial
    simp only [run]
    cases map.lookup key <;> rfl
  | insert key value => exact HashMap.insert_eq_self
  | remove key =>
    simp only [run, Idle]
    cases h : map.lookup key with
    | none => simp
    | some value => simp [HashMap.erase_eq_self, h]
  | append key value => exact iff_of_false (fun h => appendValue_ne map key value (HashMap.insert_eq_self.1 h)) id
  | compareSwap key expected newValue =>
    rw [run_compareSwap_map]
    simp only [Idle]
    rcases NoVoHT.swapped_cases map key expected newValue with ⟨h | h, hs⟩ | ⟨current, h, he, hs⟩
    · rw [hs, HashMap.insert_eq_self, h]
      simp
    · rw [hs, HashMap.insert_eq_self, h]
      simp
    · rw [hs, h]
      simp [he]

/-- At its own key a command leaves the table as it is exactly when it is idle. -/
theorem Command.run_lookup_eq_iff {command : Command} {k : String} (hk : command.key = some k) (map : Table) :
    (command.run map).2.lookup k = map.lookup k ↔ command.Idle map := by
  rw [← run_eq_self_iff]
  constructor
  · intro h
    apply Finmap.ext_lookup
    intro q
    by_cases hq : q = k
    · rw [hq, h]
    · exact command.run_frame map fun e => hq (Option.some.inj (e.symm.trans hk))
  · intro h
    rw [h]

/-- The command does not write to the key. -/
def Command.Spares (k : String) : Command → Prop
  | insert key _ | remove key | append key _ | compareSwap key _ _ => key ≠ k
  | emptyKey | lookup _ | stateChangeCallback _ _ _ | unrecognized => True

theorem Command.run_spares {command : Command} {k : String} (h : command.Spares k) (map : Table) :
    (command.run map).2.lookup k = map.lookup k := by
  by_cases hkey : command.key = some k
  · have hidle : (command.run map).2 = map := by
      cases command with
      | insert key value => exact absurd (Option.some.inj hkey) h
      | remove key => exact absurd (Option.some.inj hkey) h
      | append key value => exact absurd (Option.some.inj hkey) h
      | compareSwap key expected newValue => exact absurd (Option.some.inj hkey) h
      | lookup key => exact ((Command.lookup key).run_eq_self_iff map).2 trivial
      | emptyKey | stateChangeCallback | unrecognized => rfl
    rw [hidle]
  · exact command.run_frame map hkey

namespace HTWorker

/-- The answer and the map are those of a command run on `map`. -/
def Runs (p : ZPack × HTWorker) (request : ZPack) (map : Table) (command : Command) : Prop :=
  p.1 = (command.run map).1.toZPack request ∧ p.2.store.map = (command.run map).2

section Handlers

variable (w : HTWorker) (request : ZPack) (key : String)

theorem runs_lookup :
    Runs (w.processLookup { opcode := request.opcode, key := request.key } key) request w.store.map (.lookup key) := by
  unfold Runs processLookup NoVoHT.get
  simp only [count_store, Command.run]
  cases w.store.map.lookup key <;> exact ⟨rfl, rfl⟩

theorem runs_insert (hkey : key ≠ "") (value : String) :
    Runs (w.processInsert { opcode := request.opcode, key := request.key } key value) request w.store.map
      (.insert key value) := by
  obtain ⟨store, hput, hmap⟩ := w.store.put_of_ne hkey value
  unfold Runs processInsert
  simp only [count_store, hput]
  exact ⟨rfl, hmap⟩

theorem runs_remove :
    Runs (w.processRemove { opcode := request.opcode, key := request.key } key) request w.store.map (.remove key) := by
  unfold Runs processRemove
  cases h : w.store.map.lookup key with
  | none =>
    simp only [count_store, NoVoHT.remove_of_none h, Command.run, h]
    exact ⟨rfl, trivial⟩
  | some value =>
    obtain ⟨store, hremove, hmap⟩ := NoVoHT.remove_of_some h
    simp only [count_store, hremove, Command.run, h]
    exact ⟨rfl, hmap⟩

theorem runs_append (hkey : key ≠ "") (value : String) :
    Runs (w.processAppend { opcode := request.opcode, key := request.key } key value) request w.store.map
      (.append key value) := by
  obtain ⟨store, happend, hmap⟩ := w.store.append_of_ne hkey value
  unfold Runs processAppend
  simp only [count_store, happend]
  exact ⟨rfl, hmap⟩

theorem runs_compareSwap (expected newValue : String) :
    Runs (w.processCompareSwap { opcode := request.opcode, key := request.key } key expected newValue) request
      w.store.map (.compareSwap key expected newValue) := by
  obtain ⟨store, hswap, hmap⟩ := w.store.compareSwap_spec key expected newValue
  unfold Runs processCompareSwap
  simp only [count_store, hswap, Command.run]
  by_cases h : (NoVoHT.swapped w.store.map key expected newValue).2 = newValue
  · rw [if_pos h, if_pos h]
    exact ⟨rfl, hmap⟩
  · rw [if_neg h, if_neg h]
    exact ⟨rfl, hmap⟩

theorem runs_stateChangeCallback (expected : String) (lease : Nat) :
    Runs (w.processStateChangeCallback { opcode := request.opcode, key := request.key } key expected lease) request
      w.store.map (.stateChangeCallback key expected lease) := by
  unfold Runs processStateChangeCallback
  simp only [count_store, Command.run]
  by_cases h : sccbPoll (fun _ => w.store.map.lookup key) expected lease 0 = REC_SCCBPOLLTRY
  · simp only [h, ↓reduceIte, count_store, and_true]
    rfl
  · simp only [h, ↓reduceIte, count_store, and_true]
    rfl

end Handlers

/-- The worker answers a request, and changes its map, as the command of the request does. -/
theorem process_spec (w : HTWorker) (request : ZPack) :
    Runs (w.process request) request w.store.map (Command.ofRequest request) := by
  -- both sides test the key and then the opcode in the same order
  unfold process Command.ofRequest
  simp only
  by_cases hkey : fromUtf8Lossy request.key = ""
  · rw [if_pos hkey, if_pos hkey]
    exact ⟨rfl, rfl⟩
  rw [if_neg hkey, if_neg hkey]
  split
  · exact runs_lookup _ _ _
  split
  · exact runs_insert _ _ _ hkey _
  split
  · exact runs_remove _ _ _
  split
  · exact runs_append _ _ _ hkey _
  split
  · exact runs_compareSwap _ _ _ _ _
  split
  · exact runs_stateChangeCallback _ _ _ _ _
  · exact ⟨rfl, rfl⟩

theorem process_answer (w : HTWorker) (request : ZPack) :
    (w.process request).1 = ((Command.ofRequest request).run w.store.map).1.toZPack request :=
  (process_spec w request).1

theorem process_map (w : HTWorker) (request : ZPack) :
    (w.process request).2.store.map = ((Command.ofRequest request).run w.store.map).2 :=
  (process_spec w request).2

end HTWorker

end Zht
