/-
A worker over a database file, through restarts. A process opens the file, its calls run section by section
and side by side, its table is flushed now and then, and it is stopped between two sections; the next one
opens what it left. Where the requests keep to the documented line format, all the processes together are
answered as one worker that has no file and is never stopped (`restarts_linearizable`): what was answered
before a stop is found after it, and a call that the stop cut off has taken effect before it or never does.
-/
import Zht.Storage.Replay
import Zht.Transport.ConcurrentCalls

namespace Zht

open Lib Lib.Utf8 Lib.Linearizable

/-! ## Tables without their files -/

/-- The same table, without a file. -/
def NoVoHT.inMemory (s : NoVoHT) : NoVoHT := { NoVoHT.new with map := s.map }

namespace NoVoHT

variable (s : NoVoHT) (key value : String)

@[simp] theorem inMemory_get : s.inMemory.get key = s.get key := rfl

theorem inMemory_writeEntry : (s.writeEntry key value).2.inMemory = s.inMemory := by
  unfold inMemory
  rw [writeEntry_map]

theorem inMemory_writeRemoval : (s.writeRemoval key).2.inMemory = s.inMemory := by
  unfold inMemory
  rw [writeRemoval_map]

theorem inMemory_flush (ord : HashMap.Order String String) : (s.flush ord).2.inMemory = s.inMemory := by
  unfold inMemory
  rw [flush_map]

/-! Every operation is the same with and without the file. -/

theorem inMemory_put : s.inMemory.put key value = ((s.put key value).1, (s.put key value).2.inMemory) := by
  unfold put
  by_cases hkey : key = ""
  · simp only [if_pos hkey]
  · simp only [if_neg hkey, inMemory_writeEntry]
    rfl

theorem inMemory_append : s.inMemory.append key value = ((s.append key value).1, (s.append key value).2.inMemory) := by
  unfold append
  by_cases hkey : key = ""
  · simp only [if_pos hkey]
  · simp only [if_neg hkey, inMemory_writeEntry]
    rfl

theorem inMemory_remove : s.inMemory.remove key = ((s.remove key).1, (s.remove key).2.inMemory) := by
  have hmap : s.inMemory.map = s.map := rfl
  unfold remove
  rw [hmap]
  cases s.map.lookup key with
  | none => rfl
  | some value =>
    simp only [inMemory_writeRemoval]
    rfl

theorem inMemory_compareSwap (expected : String) : s.inMemory.compareSwap key expected value =
    ((s.compareSwap key expected value).1, (s.compareSwap key expected value).2.inMemory) := by
  unfold compareSwap
  simp only [inMemory_writeEntry]
  rfl

end NoVoHT

/-! ## Calls without the file -/

def HTWorker.inMemory (w : HTWorker) : HTWorker := { w with store := w.store.inMemory }

def WorkerCalls.inMemory (p : WorkerCalls) : WorkerCalls := { p with worker := p.worker.inMemory }

namespace HTWorker

variable (w : HTWorker) (now : Nat) (request : ZPack)

theorem inMemory_operate :
    w.inMemory.operate now request = ((w.operate now request).1, (w.operate now request).2.inMemory) := by
  unfold operate
  simp only [inMemory, NoVoHT.inMemory_get, NoVoHT.inMemory_put, NoVoHT.inMemory_remove, NoVoHT.inMemory_append,
    NoVoHT.inMemory_compareSwap]
  split
  · cases w.store.get (fromUtf8Lossy request.key) <;> rfl
  split
  · rcases w.store.put (fromUtf8Lossy request.key) (fromUtf8Lossy request.val) with ⟨_ | _, store⟩ <;> rfl
  split
  · rcases w.store.remove (fromUtf8Lossy request.key) with ⟨_ | _, store⟩ <;> rfl
  split
  · rcases w.store.append (fromUtf8Lossy request.key) (fromUtf8Lossy request.val) with ⟨_ | _, store⟩ <;> rfl
  split
  · rcases w.store.compareSwap (fromUtf8Lossy request.key) (fromUtf8Lossy request.val)
      (fromUtf8Lossy request.newval) with ⟨_ | actual, store⟩
    · rfl
    · simp only
      split <;> rfl
  · rfl

theorem inMemory_advance (phase : CallPhase) :
    w.inMemory.advance now request phase =
      ((w.advance now request phase).1, (w.advance now request phase).2.inMemory) := by
  cases phase with
  | entered | failing | returned => rfl
  | dispatched =>
    simp only [advance]
    split
    · rfl
    · split <;> rfl
  | counted => exact w.inMemory_operate now request
  | polling deadline =>
    have hget : w.inMemory.store.get (fromUtf8Lossy request.key) = w.store.get (fromUtf8Lossy request.key) := rfl
    simp only [advance, hget]
    cases w.store.get (fromUtf8Lossy request.key) with
    | error e => rfl
    | ok current =>
      simp only
      split <;> rfl
  | missed deadline =>
    simp only [advance]
    split <;> rfl
  | asleep wake deadline =>
    simp only [advance]
    split <;> rfl

end HTWorker

namespace WorkerCalls

theorem inMemory_step (p : WorkerCalls) (turn : Turn) :
    p.inMemory.step turn = ((p.step turn).1, (p.step turn).2.inMemory) := by
  cases turn with
  | call request => rfl
  | run c now =>
    have hcalls : p.inMemory.calls = p.calls := rfl
    simp only [step, hcalls]
    cases p.calls[c]? with
    | none => rfl
    | some call =>
      have hworker : p.inMemory.worker = p.worker.inMemory := rfl
      simp only [hworker, HTWorker.inMemory_advance]
      rfl

end WorkerCalls

/-! ## What a request does to the file -/

/-- The operation of the table that a command is. -/
def Command.op : Command → Option StoreOp
  | insert key value => some (.put key value)
  | remove key => some (.remove key)
  | append key value => some (.append key value)
  | compareSwap key expected newValue => some (.compareSwap key expected newValue)
  | emptyKey | lookup _ | stateChangeCallback _ _ _ | unrecognized => none

/-- What it writes is of the documented line format. -/
def Command.Documented (command : Command) : Prop := ∀ op ∈ command.op, op.Documented

instance (command : Command) : Decidable command.Documented :=
  inferInstanceAs (Decidable (∀ op ∈ command.op, op.Documented))

/-- The section of the store is one operation on it, or none. -/
theorem HTWorker.operate_store (w : HTWorker) (now : Nat) {request : ZPack} (hkey : fromUtf8Lossy request.key ≠ "") :
    (w.operate now request).2.store =
      (Command.ofRequest request).op.elim w.store fun op => (op.exec w.store).2 := by
  unfold operate Command.ofRequest
  simp only [if_neg hkey]
  split
  · cases w.store.get (fromUtf8Lossy request.key) <;> rfl
  split
  · simp only [Command.op, Option.elim_some, StoreOp.exec, Prod.map_snd, id_eq]
    rcases w.store.put (fromUtf8Lossy request.key) (fromUtf8Lossy request.val) with ⟨_ | _, store⟩ <;> rfl
  split
  · simp only [Command.op, Option.elim_some, StoreOp.exec, Prod.map_snd, id_eq]
    rcases w.store.remove (fromUtf8Lossy request.key) with ⟨_ | _, store⟩ <;> rfl
  split
  · simp only [Command.op, Option.elim_some, StoreOp.exec, Prod.map_snd, id_eq]
    rcases w.store.append (fromUtf8Lossy request.key) (fromUtf8Lossy request.val) with ⟨_ | _, store⟩ <;> rfl
  split
  · simp only [Command.op, Option.elim_some, StoreOp.exec, Prod.map_snd, id_eq]
    rcases w.store.compareSwap (fromUtf8Lossy request.key) (fromUtf8Lossy request.val)
      (fromUtf8Lossy request.newval) with ⟨_ | actual, store⟩
    · rfl
    · simp only
      split <;> rfl
  · split <;> rfl

/-- The next section of a documented call keeps the file a log of the table. -/
theorem LogInv.advance {w : HTWorker} (h : LogInv w.store) (now : Nat) {request : ZPack} {phase : CallPhase}
    (hfits : phase.Fits request) (hd : (Command.ofRequest request).Documented) :
    LogInv (w.advance now request phase).2.store := by
  cases phase with
  | entered | failing | returned => exact h
  | dispatched =>
    simp only [HTWorker.advance]
    split
    · exact h
    · split <;> exact h
  | counted =>
    show LogInv (w.operate now request).2.store
    rw [w.operate_store now hfits.1]
    cases hop : (Command.ofRequest request).op with
    | none => exact h
    | some op => exact h.exec (hd op hop)
  | polling deadline =>
    simp only [HTWorker.advance]
    cases w.store.get (fromUtf8Lossy request.key) with
    | error e => exact h
    | ok current =>
      simp only
      split <;> exact h
  | missed deadline =>
    simp only [HTWorker.advance]
    split <;> exact h
  | asleep wake deadline =>
    simp only [HTWorker.advance]
    split <;> exact h

/-! ## Processes one after the other -/

/-- The process that runs now, and the number of calls made before it was started. -/
structure Lifetime where
  running : WorkerCalls
  base : Nat
  deriving DecidableEq

/-- The calls made so far, to all processes. -/
def Lifetime.made (l : Lifetime) : Nat := l.base + l.running.calls.length

inductive LifeTurn
  | turn (turn : Turn)
  | flush (ord : HashMap.Order String String)
  /-- The process is stopped where it is, and another one opens its file. -/
  | restart (ord : HashMap.Order String String)

/-- The request of a call that is made is documented. -/
def LifeTurn.Documented : LifeTurn → Prop
  | turn (.call request) => (Command.ofRequest request).Documented
  | _ => True

instance (turn : LifeTurn) : Decidable turn.Documented := by
  unfold LifeTurn.Documented
  split <;> infer_instance

namespace Lifetime

/-- A process that finds these bytes at the path. -/
def start (dbPath : String) (ord : HashMap.Order String String) (content : Bytes) (base : Nat) : Lifetime :=
  { running := .new (.new (NoVoHT.withPersistence ord dbPath ⟨content, []⟩).2), base }

def step (l : Lifetime) : LifeTurn → List (CallEvent ZPack ZPack) × Lifetime
  | .turn turn =>
    let turned := l.running.step turn
    (turned.1.map (CallEvent.shift l.base), { l with running := turned.2 })
  | .flush ord =>
    let worker := l.running.worker
    ([], { l with running := { l.running with worker := { worker with store := (worker.store.flush ord).2 } } })
  | .restart ord =>
    let store := l.running.worker.store
    ([], start store.dbPath ord store.file.bytes (l.base + l.running.calls.length))

/-- The invocations and answers of all the processes. -/
def history (l : Lifetime) (turns : List LifeTurn) : List (CallEvent ZPack ZPack) :=
  (Machine.outputs step l turns).flatten

theorem history_concat (l : Lifetime) (turns : List LifeTurn) (turn : LifeTurn) :
    l.history (turns ++ [turn]) = l.history turns ++ ((Machine.after step l turns).step turn).1 := by
  rw [history, Machine.outputs_append, List.flatten_append]
  simp [history]

/-- The order explains all that the processes did: what was seen of their calls, the table in memory, and what
the file reads back as. -/
structure Explained (w : HTWorker) (l : Lifetime) (turns : List LifeTurn) (order : List (Done ZPack ZPack)) :
    Prop where
  linearizes : Linearizes HTWorker.process w (l.history turns) order
  table : (Machine.after step l turns).running.worker.store.map =
    (Machine.after HTWorker.process w (order.map Done.input)).store.map
  file : readFileFromReader ∅ (Machine.after step l turns).running.worker.store.file.bytes =
    (Machine.after step l turns).running.worker.store.map

/-- At every stop the order falls apart: its first part explains what was done by then, and behind it are calls
of later processes only. -/
def Parts (w : HTWorker) (l : Lifetime) (turns : List LifeTurn) (order : List (Done ZPack ZPack)) : Prop :=
  ∀ before ord later, turns = before ++ .restart ord :: later →
    ∃ past next, order = past ++ next ∧ l.Explained w before past ∧
      ∀ d ∈ next, (Machine.after step l before).made ≤ d.call

end Lifetime

/-- What earlier processes did is explained up to the state in which the running one opened the file, and
what it does from there; its file is a log of its table. -/
structure Endures (initial : NoVoHT) (before later : List (CallEvent ZPack ZPack))
    (past next : List (Done ZPack ZPack)) (l : Lifetime) : Prop where
  linearizes : Linearizes NoVoHT.answer initial before past
  numbered : ∀ d ∈ past, d.call < l.base
  explains : Explains (Machine.after NoVoHT.answer initial (past.map Done.input)) later next l.running.inMemory
  log : LogInv l.running.worker.store
  documented : ∀ call ∈ l.running.calls, (Command.ofRequest call.request).Documented

namespace Endures

variable {initial : NoVoHT} {before later : List (CallEvent ZPack ZPack)} {past next : List (Done ZPack ZPack)}
  {l : Lifetime}

/-- All calls so far in one order. -/
theorem whole (h : Endures initial before later past next l) :
    Linearizes NoVoHT.answer initial (before ++ later.map (.shift l.base)) (past ++ next.map (.shift l.base)) :=
  h.linearizes.continue h.numbered h.explains.linearizes

/-- The table in memory is as the order leaves it. -/
theorem store_eq (h : Endures initial before later past next l) :
    l.running.worker.store.inMemory =
      Machine.after NoVoHT.answer initial ((past ++ next.map (Done.shift l.base)).map Done.input) := by
  rw [List.map_append, map_input_rename, Machine.after_append]
  exact h.explains.store

/-- What a process finds that opens a file. -/
theorem opened (ord : HashMap.Order String String) (dbPath : String) (content : Bytes) (base : Nat)
    (hinitial : Linearizes NoVoHT.answer initial before past) (hnumbered : ∀ d ∈ past, d.call < base)
    (hmap : Machine.after NoVoHT.answer initial (past.map Done.input) =
      { NoVoHT.new with map := readFileFromReader ∅ content }) :
    Endures initial before [] past [] (Lifetime.start dbPath ord content base) where
  linearizes := hinitial
  numbered := hnumbered
  explains := by
    have hopened := Explains.new (HTWorker.new (NoVoHT.withPersistence ord dbPath ⟨content, []⟩).2).inMemory
    have hstore : (HTWorker.new (NoVoHT.withPersistence ord dbPath ⟨content, []⟩).2).inMemory.store =
        { NoVoHT.new with map := readFileFromReader ∅ content } := by
      obtain ⟨-, hread, -⟩ := LogInv.opened ord dbPath content
      unfold HTWorker.inMemory HTWorker.new NoVoHT.inMemory
      rw [hread]
    rw [hmap, ← hstore]
    exact hopened
  log := (LogInv.opened ord dbPath content).2.2
  documented := by simp [Lifetime.start, WorkerCalls.new]

theorem turn (h : Endures initial before later past next l) {turn : Turn} (hd : (LifeTurn.turn turn).Documented) :
    ∃ next', Endures initial before (later ++ (l.running.step turn).1) past next'
      { l with running := (l.running.step turn).2 } := by
  obtain ⟨next', hnext⟩ := h.explains.step turn
  rw [WorkerCalls.inMemory_step] at hnext
  refine ⟨next', h.linearizes, h.numbered, hnext, ?_, ?_⟩
  · cases turn with
    | call request => exact h.log
    | run c now =>
      simp only [WorkerCalls.step]
      cases hcall : l.running.calls[c]? with
      | none => exact h.log
      | some call =>
        have hfits := (h.explains.known c call hcall).fits
        exact h.log.advance now hfits (h.documented call (List.mem_of_getElem? hcall))
  · cases turn with
    | call request =>
      intro call hcall
      rcases List.mem_append.1 hcall with hcall | hcall
      · exact h.documented call hcall
      · rw [List.mem_singleton.1 hcall]
        exact hd
    | run c now =>
      simp only [WorkerCalls.step]
      cases hcall : l.running.calls[c]? with
      | none => exact h.documented
      | some call =>
        intro other hother
        rcases List.mem_or_eq_of_mem_set hother with hother | rfl
        · exact h.documented other hother
        · exact h.documented call (List.mem_of_getElem? hcall)

theorem flush (h : Endures initial before later past next l) (ord : HashMap.Order String String) :
    Endures initial before later past next (l.step (.flush ord)).2 where
  linearizes := h.linearizes
  numbered := h.numbered
  explains := by
    have hsame : (l.step (.flush ord)).2.running.inMemory = l.running.inMemory := by
      unfold Lifetime.step WorkerCalls.inMemory HTWorker.inMemory
      simp only [NoVoHT.inMemory_flush]
    rw [hsame]
    exact h.explains
  log := LogInv.flush h.log.persistent h.log.faults h.log.rep ord
  documented := h.documented

/-- The next process finds the table as it was. -/
theorem restart (h : Endures initial before later past next l) (ord : HashMap.Order String String) :
    Endures initial (before ++ later.map (.shift l.base)) [] (past ++ next.map (.shift l.base)) []
      (l.step (.restart ord)).2 := by
  refine opened ord _ _ _ h.whole ?_ ?_
  · rintro d hd
    rcases List.mem_append.1 hd with hd | hd
    · have hlt := h.numbered d hd
      omega
    · obtain ⟨e, he, rfl⟩ := List.mem_map.1 hd
      have hlt : e.call < l.running.calls.length := h.explains.numbered e he
      simp only [Done.rename]
      omega
  · rw [← h.store_eq, h.log.read_back]
    rfl

end Endures

namespace Lifetime

variable {w : HTWorker} {l : Lifetime} {turns : List LifeTurn} {order new : List (Done ZPack ZPack)}

/-- Where a process starts, all earlier calls have been made. -/
theorem made_le_base (l : Lifetime) (before : List LifeTurn) (ord : HashMap.Order String String)
    (later : List LifeTurn) :
    (Machine.after step l before).made ≤ (Machine.after step l (before ++ .restart ord :: later)).base := by
  rw [Machine.after_append, Machine.after_cons]
  refine Machine.after_of_step (I := fun l' : Lifetime => (Machine.after step l before).made ≤ l'.base)
    (fun l' turn hle => ?_) (Nat.le_refl _) later
  cases turn with
  | turn turn => exact hle
  | flush ord => exact hle
  | restart ord => exact Nat.le_trans hle (Nat.le_add_right _ _)

/-- Calls of the running process come behind all the stops. -/
theorem Parts.append (h : l.Parts w turns order) (hnew : ∀ d ∈ new, (Machine.after step l turns).base ≤ d.call) :
    l.Parts w turns (order ++ new) := by
  rintro before ord later rfl
  obtain ⟨past, next, rfl, hpast, hnext⟩ := h before ord later rfl
  refine ⟨past, next ++ new, List.append_assoc _ _ _, hpast, fun d hd => ?_⟩
  rcases List.mem_append.1 hd with hd | hd
  · exact hnext d hd
  · exact Nat.le_trans (made_le_base l before ord later) (hnew d hd)

/-- One turn more, which is no stop unless the order explains what was done by then. -/
theorem Parts.concat (h : l.Parts w turns order) {turn : LifeTurn}
    (hstop : ∀ ord, turn = .restart ord → l.Explained w turns order) : l.Parts w (turns ++ [turn]) order := by
  intro before ord later heq
  rcases List.eq_nil_or_concat' later with rfl | ⟨later, last, rfl⟩
  · obtain ⟨rfl, hturn⟩ := List.append_inj' heq rfl
    exact ⟨order, [], (List.append_nil _).symm, hstop ord (List.cons.inj hturn).1, fun _ hd => (by cases hd)⟩
  · rw [← List.cons_append, ← List.append_assoc] at heq
    exact h before ord later (List.append_inj' heq rfl).1

end Lifetime

section Run

variable {w : HTWorker} {before later : List (CallEvent ZPack ZPack)} {past next : List (Done ZPack ZPack)}
  {start : Lifetime} {turns : List LifeTurn}

theorem Endures.explained (h : Endures w.store before later past next (Machine.after Lifetime.step start turns))
    (hhistory : start.history turns =
      before ++ later.map (.shift (Machine.after Lifetime.step start turns).base)) :
    start.Explained w turns (past ++ next.map (.shift (Machine.after Lifetime.step start turns).base)) where
  linearizes := by
    rw [hhistory]
    exact linearizes_process h.whole
  table := by
    rw [(w.simulates_answer _).2]
    have hmap := congrArg NoVoHT.map h.store_eq
    exact hmap
  file := h.log.read_back

/-- A run from a file of any content: what is invariant of it, and how its order falls apart. -/
theorem Lifetime.endures (dbPath : String) (ord : HashMap.Order String String) (content : Bytes)
    (turns : List LifeTurn) (hd : ∀ turn ∈ turns, turn.Documented) :
    let start := Lifetime.start dbPath ord content 0
    let w := HTWorker.new { NoVoHT.new with map := readFileFromReader ∅ content }
    ∃ before later past next, Endures w.store before later past next (Machine.after step start turns) ∧
      start.history turns = before ++ later.map (.shift (Machine.after step start turns).base) ∧
      start.Parts w turns past := by
  intro start w
  induction turns using List.reverseRecOn with
  | nil =>
    refine ⟨[], [], [], [], Endures.opened ord dbPath content 0 .nil (by simp) rfl, rfl, ?_⟩
    rintro before ord later heq
    simp at heq
  | append_singleton turns turn ih =>
    obtain ⟨before, later, past, next, h, hhistory, hparts⟩ := ih fun t ht => hd t (List.mem_append_left _ ht)
    rw [Machine.after_append, history_concat, hhistory]
    cases turn with
    | turn turn =>
      obtain ⟨next', hnext⟩ := h.turn (hd _ (List.mem_append_right _ List.mem_cons_self))
      refine ⟨before, _, past, next', hnext, ?_, hparts.concat fun _ => nofun⟩
      rw [List.map_append, ← List.append_assoc]
      rfl
    | flush ord =>
      exact ⟨before, later, past, next, h.flush ord, List.append_nil _, hparts.concat fun _ => nofun⟩
    | restart ord =>
      refine ⟨_, _, _, _, h.restart ord, by rw [List.map_nil]; rfl, Parts.concat (hparts.append fun d hd => ?_) ?_⟩
      · obtain ⟨e, -, rfl⟩ := List.mem_map.1 hd
        exact Nat.le_add_right _ e.call
      · rintro ord' -
        exact h.explained hhistory

end Run

/-- Any processes that run on a file one after the other, with documented requests under any schedule, are
answered like one worker without a file that goes on from the table read from it; at every point its table
is the one in memory, and the one that the file reads back as. At every stop its calls so far stand before
those of later processes, so a call that was cut off took effect by then or never does. -/
theorem restarts_linearizable (dbPath : String) (ord : HashMap.Order String String) (content : Bytes)
    (turns : List LifeTurn) (hd : ∀ turn ∈ turns, turn.Documented) :
    let start := Lifetime.start dbPath ord content 0
    let w := HTWorker.new { NoVoHT.new with map := readFileFromReader ∅ content }
    ∃ order, start.Explained w turns order ∧ start.Parts w turns order := by
  intro start w
  obtain ⟨before, later, past, next, h, hhistory, hparts⟩ := Lifetime.endures dbPath ord content turns hd
  refine ⟨_, h.explained hhistory, hparts.append fun d hmem => ?_⟩
  obtain ⟨e, -, rfl⟩ := List.mem_map.1 hmem
  exact Nat.le_add_right _ e.call

/-- An INSERT, a stop that cuts a REMOVE off behind its count, and a LOOKUP to the next process. -/
def stoppedOnce : List LifeTurn :=
  [.turn (.call { opcode := utf8Bytes OPC_INSERT, key := utf8Bytes "k", val := utf8Bytes "v" }),
    .turn (.run 0 0), .turn (.run 0 0), .turn (.run 0 0),
    .turn (.call { opcode := utf8Bytes OPC_REMOVE, key := utf8Bytes "k" }), .turn (.run 1 0), .turn (.run 1 0),
    .restart .sorted, .turn (.call { opcode := utf8Bytes OPC_LOOKUP, key := utf8Bytes "k" }),
    .turn (.run 0 0), .turn (.run 0 0), .turn (.run 0 0)]

theorem restarts_linearizable_once :
    let start := Lifetime.start "zht.db" .sorted [] 0
    let w := HTWorker.new { NoVoHT.new with map := readFileFromReader ∅ [] }
    ∃ order, start.Explained w stoppedOnce order ∧ start.Parts w stoppedOnce order :=
  restarts_linearizable "zht.db" .sorted [] stoppedOnce (by decide)

/-- The LOOKUP is answered with the value, and the REMOVE not at all. -/
example : (Lifetime.start "zht.db" .sorted [] 0).history stoppedOnce =
    [.invoke 0 { opcode := utf8Bytes OPC_INSERT, key := utf8Bytes "k", val := utf8Bytes "v" },
      .answer 0 { opcode := utf8Bytes OPC_INSERT, key := utf8Bytes "k", lease := utf8Bytes REC_SUCC },
      .invoke 1 { opcode := utf8Bytes OPC_REMOVE, key := utf8Bytes "k" },
      .invoke 2 { opcode := utf8Bytes OPC_LOOKUP, key := utf8Bytes "k" },
      .answer 2
        { opcode := utf8Bytes OPC_LOOKUP, key := utf8Bytes "k", val := utf8Bytes "v", lease := utf8Bytes "000v" }] := by
  decide

end Zht
