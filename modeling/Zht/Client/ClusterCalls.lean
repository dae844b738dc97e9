/-
A cluster that serves many clients at once. A client sends each request to the node of its key, and every
server runs the calls of its worker section by section and side by side. Each server is linearizable, so
all of them together are; a key is only ever asked of one of them, so together they are one table
(`cluster_linearizable`).
-/
import Mathlib.Data.Nat.Pairing
import Mathlib.Data.String.Basic
import Zht.Config.Routing
import Zht.Lib.Locality
import Zht.Transport.ConcurrentCalls

namespace Zht

open Lib Lib.Utf8 Lib.Linearizable

/-! ## One server -/

/-- What was seen so far are calls under numbers of their own, made before they were answered. -/
structure Numbered (events : List (CallEvent ZPack ZPack)) (p : WorkerCalls) : Prop where
  wellFormed : WellFormed events
  numbered : ∀ e ∈ events, e.call < p.calls.length

section Numbers

variable {events : List (CallEvent ZPack ZPack)} {p p' : WorkerCalls}

theorem Numbered.mono (h : Numbered events p) (hlen : p.calls.length ≤ p'.calls.length) : Numbered events p' :=
  ⟨h.wellFormed, fun e he => Nat.lt_of_lt_of_le (h.numbered e he) hlen⟩

theorem Numbered.call (h : Numbered events p) (request : ZPack) :
    Numbered (events ++ (p.step (.call request)).1) (p.step (.call request)).2 := by
  refine ⟨h.wellFormed.invoke (fun e he => Nat.ne_of_lt (h.numbered e he)) request, fun e he => ?_⟩
  simp only [WorkerCalls.step, List.length_append, List.length_singleton]
  rcases List.mem_append.1 he with he | he
  · have hold := h.numbered e he
    omega
  · rw [List.mem_singleton.1 he]
    exact Nat.lt_succ_self _

theorem Numbered.answers (h : Numbered events p) {c : Nat} (hc : c < p.calls.length) (phase next : CallPhase) :
    Numbered (events ++ WorkerCalls.answers c phase next) p := by
  unfold WorkerCalls.answers
  split
  · next response _ _ =>
    refine ⟨h.wellFormed.answer c response, fun e he => ?_⟩
    rcases List.mem_append.1 he with he | he
    · exact h.numbered e he
    · rw [List.mem_singleton.1 he]
      exact hc
  · rw [List.append_nil]
    exact h

theorem Numbered.step (h : Numbered events p) (turn : Turn) :
    Numbered (events ++ (p.step turn).1) (p.step turn).2 := by
  cases turn with
  | call request => exact h.call request
  | run c now =>
    have hlen := WorkerCalls.length_step_run p c now
    simp only [WorkerCalls.step] at hlen ⊢
    cases hc : p.calls[c]? with
    | none =>
      rw [List.append_nil]
      exact h
    | some call =>
      rw [hc] at hlen
      exact (h.answers (List.getElem?_eq_some_iff.1 hc).1 _ _).mono (Nat.le_of_eq hlen.symm)

end Numbers

theorem WorkerCalls.numbered (w : HTWorker) (turns : List Turn) :
    Numbered (history w turns) (Machine.after step (new w) turns) := by
  induction turns using List.reverseRecOn with
  | nil => exact ⟨.nil, by simp [history]⟩
  | append_singleton turns turn ih =>
    have hstep := ih.step turn
    rw [history] at hstep
    rw [history, Machine.outputs_append, List.flatten_append, Machine.after_append]
    simpa using hstep

/-! ## The cluster -/

/-- Where in the list of neighbors the node of a key is found. -/
def AppConfig.placeOf (config : AppConfig) (key : String) : Option Nat :=
  (config.resolveNode key).toOption.bind fun node => config.neighbors.findIndex node.host node.port

theorem AppConfig.placeOf_lt {config : AppConfig} {key : String} {x : Nat} (h : config.placeOf key = some x) :
    x < config.nodeCount := by
  obtain ⟨node, -, hx⟩ := Option.bind_eq_some_iff.1 h
  exact (List.findIdx?_eq_some_iff_getElem.1 hx).1

inductive ClusterTurn
  /-- A client sends a request to the node of its key. -/
  | call (request : ZPack)
  /-- A server runs the next section of one of its calls. -/
  | run (server call now : Nat)
  deriving DecidableEq, Repr

/-- The place of a request's node. -/
def ZPack.place (config : AppConfig) (request : ZPack) : Option Nat := config.placeOf (fromUtf8Lossy request.key)

/-- The server a turn is one of; a client without nodes sends nothing. -/
def ClusterTurn.address (config : AppConfig) : ClusterTurn → Option (Nat × Turn)
  | .call request => (request.place config).map fun x => (x, .call request)
  | .run server c now => some (server, .run c now)

/-- The turns of a server. -/
def turnsAt (config : AppConfig) (x : Nat) (turns : List ClusterTurn) : List Turn :=
  turns.filterMap fun turn => (turn.address config).bind fun a => if a.1 = x then some a.2 else none

/-- The calls of the servers, each server under the place of its node. -/
abbrev ClusterCalls := Nat → WorkerCalls

namespace ClusterCalls

variable (config : AppConfig)

def new (w : Nat → HTWorker) : ClusterCalls := fun x => .new (w x)

/-- The calls of all servers are told apart by the server and its number of the call. -/
def step (s : ClusterCalls) (turn : ClusterTurn) : List (CallEvent ZPack ZPack) × ClusterCalls :=
  match turn.address config with
  | none => ([], s)
  | some (x, turn) =>
    let turned := (s x).step turn
    (turned.1.map (CallEvent.rename (Nat.pair x)), Function.update s x turned.2)

/-- The invocations and answers of all servers. -/
def history (w : Nat → HTWorker) (turns : List ClusterTurn) : List (CallEvent ZPack ZPack) :=
  (Machine.outputs (step config) (new w) turns).flatten

/-- The server of a call. -/
def server (c : Nat) : Nat := c.unpair.1

@[simp] theorem server_pair (x c : Nat) : server (Nat.pair x c) = x := by
  rw [server, Nat.unpair_pair]

theorem pair_injective (x : Nat) : Function.Injective (Nat.pair x) := by
  intro c d h
  exact (Nat.pair_eq_pair.1 h).2

variable {config}

theorem filter_rename (x y : Nat) (events : List (CallEvent ZPack ZPack)) :
    (events.map (CallEvent.rename (Nat.pair y))).filter (fun e => server e.call = x) =
      if y = x then events.map (CallEvent.rename (Nat.pair y)) else [] := by
  split
  · next hy =>
    refine List.filter_eq_self.2 fun e he => ?_
    obtain ⟨d, -, rfl⟩ := List.mem_map.1 he
    simpa using hy
  · next hy =>
    refine List.filter_eq_nil_iff.2 fun e he => ?_
    obtain ⟨d, -, rfl⟩ := List.mem_map.1 he
    simpa using hy

/-- What is seen of a server, and what becomes of it, is its own run. -/
theorem run_at (s : ClusterCalls) (turns : List ClusterTurn) (x : Nat) :
    (Machine.outputs (step config) s turns).flatten.filter (fun e => server e.call = x) =
        (Machine.outputs WorkerCalls.step (s x) (turnsAt config x turns)).flatten.map (CallEvent.rename (Nat.pair x)) ∧
      Machine.after (step config) s turns x = Machine.after WorkerCalls.step (s x) (turnsAt config x turns) := by
  induction turns generalizing s with
  | nil => exact ⟨rfl, rfl⟩
  | cons turn turns ih =>
    rw [Machine.outputs_cons, List.flatten_cons, List.filter_append, Machine.after_cons, turnsAt, List.filterMap_cons]
    obtain ⟨hevents, hstate⟩ := ih (step config s turn).2
    rw [hevents, hstate]
    cases ha : turn.address config with
    | none =>
      simp only [step, ha, Option.bind_none, List.filter_nil, List.nil_append]
      exact ⟨rfl, rfl⟩
    | some a =>
      obtain ⟨y, turn'⟩ := a
      simp only [step, ha, Option.bind_some, filter_rename]
      by_cases hy : y = x
      · subst hy
        simp only [if_true, Function.update_self, Machine.outputs_cons, Machine.after_cons, List.flatten_cons,
          List.map_append]
        exact ⟨rfl, rfl⟩
      · simp only [if_neg hy, Function.update_of_ne (Ne.symm hy), List.nil_append]
        exact ⟨rfl, rfl⟩

theorem history_at (w : Nat → HTWorker) (turns : List ClusterTurn) (x : Nat) :
    (history config w turns).filter (fun e => server e.call = x) =
      (WorkerCalls.history (w x) (turnsAt config x turns)).map (CallEvent.rename (Nat.pair x)) :=
  (run_at (new w) turns x).1

theorem history_wellFormed (w : Nat → HTWorker) (turns : List ClusterTurn) : WellFormed (history config w turns) := by
  have hservers : ∀ x, WellFormed ((history config w turns).filter fun e => server e.call = x) := by
    intro x
    rw [history_at]
    exact (WorkerCalls.numbered _ _).wellFormed.rename (pair_injective x)
  exact .of_filter hservers

/-- A request is made to the server of its key. -/
theorem place_of_mem_step (s : ClusterCalls) (turn : ClusterTurn) {c : Nat} {request : ZPack}
    (h : CallEvent.invoke c request ∈ (step config s turn).1) : request.place config = some (server c) := by
  cases turn with
  | call r =>
    cases hplace : r.place config with
    | none => simp [step, ClusterTurn.address, hplace] at h
    | some x =>
      simp only [step, ClusterTurn.address, hplace, Option.map_some, WorkerCalls.step, List.map_singleton,
        List.mem_singleton] at h
      obtain ⟨rfl, rfl⟩ := CallEvent.invoke.inj h
      rw [hplace, server_pair]
  | run x d now =>
    simp only [step, ClusterTurn.address] at h
    obtain ⟨e, -, he⟩ := invoke_mem_rename.1 h
    -- the section of a call makes none
    simp only [WorkerCalls.step] at he
    split at he
    · cases he
    · unfold WorkerCalls.answers at he
      split at he
      · simp at he
      · cases he

theorem place_of_invoke (s : ClusterCalls) (turns : List ClusterTurn) {c : Nat} {request : ZPack}
    (h : CallEvent.invoke c request ∈ (Machine.outputs (step config) s turns).flatten) :
    request.place config = some (server c) := by
  induction turns generalizing s with
  | nil => cases h
  | cons turn turns ih =>
    rw [Machine.outputs_cons, List.flatten_cons, List.mem_append] at h
    rcases h with h | h
    · exact place_of_mem_step s turn h
    · exact ih _ h

/-! ## One table -/

/-- The stores of the servers, each on the keys of its node, are the table of one worker. -/
def Joins (config : AppConfig) (stores : Nat → NoVoHT) (w : HTWorker) : Prop :=
  ∀ key x, config.placeOf key = some x → (stores x).map.lookup key = w.store.map.lookup key

/-- The server of a request's key answers it as the one worker does. -/
theorem Joins.answer {stores : Nat → NoVoHT} {w : HTWorker} (h : Joins config stores w) {request : ZPack} {x : Nat}
    (hx : request.place config = some x) :
    ((stores x).answer request).1 = (w.process request).1 ∧
      Joins config (Function.update stores x ((stores x).answer request).2) (w.process request).2 := by
  have hown : ∀ key, (Command.ofRequest request).key = some key → config.placeOf key = some x := by
    intro key hkey
    rw [Command.key_ofRequest hkey]
    exact hx
  obtain ⟨hreply, hvalue⟩ := (Command.ofRequest request).run_local fun key hkey => h key x (hown key hkey)
  have hmap : ((stores x).answer request).2.map = ((Command.ofRequest request).run (stores x).map).2 :=
    HTWorker.process_map (HTWorker.new (stores x)) request
  constructor
  · rw [w.process_answer, ← hreply]
    exact HTWorker.process_answer (HTWorker.new (stores x)) request
  rintro key y hy
  rw [w.process_map]
  by_cases hkey : (Command.ofRequest request).key = some key
  · obtain rfl : y = x := Option.some.inj (hy.symm.trans (hown key hkey))
    rw [Function.update_self, hmap]
    exact hvalue key hkey
  rw [Command.run_frame _ _ hkey, ← h key y hy]
  by_cases hyx : y = x
  · subst hyx
    rw [Function.update_self, hmap, Command.run_frame _ _ hkey]
  · rw [Function.update_of_ne hyx]

/-- A table that has of every server what that has under the keys of its node. -/
theorem exists_joins (config : AppConfig) (w : Nat → HTWorker) :
    ∃ m : Table, ∀ key x, config.placeOf key = some x → m.lookup key = (w x).store.map.lookup key := by
  obtain ⟨m, hm⟩ := HashMap.Order.sorted.exists_assigned (fun x => (w x).store.map) config.placeOf config.nodeCount
  refine ⟨m, fun key x hx => ?_⟩
  rw [hm, hx, Option.bind_some, if_pos (AppConfig.placeOf_lt hx)]

end ClusterCalls

/-- Whatever the servers hold at first, there is a table under which the cluster is one worker without a
file: under any schedule of its calls there is an order, the real one where calls did not overlap, in
which that worker gives one call after the other the same answer, and at the end each server holds its
part of that worker's table. -/
theorem cluster_linearizable (config : AppConfig) (w : Nat → HTWorker) :
    ∃ m : Table, (∀ key x, config.placeOf key = some x → m.lookup key = (w x).store.map.lookup key) ∧
      ∀ turns, ∃ order,
        Linearizes HTWorker.process (.new { NoVoHT.new with map := m }) (ClusterCalls.history config w turns) order ∧
        ∀ key x, config.placeOf key = some x →
          (Machine.after (ClusterCalls.step config) (.new w) turns x).worker.store.map.lookup key =
            (Machine.after HTWorker.process (.new { NoVoHT.new with map := m })
              (order.map Done.input)).store.map.lookup key := by
  obtain ⟨m, hm⟩ := ClusterCalls.exists_joins config w
  refine ⟨m, hm, fun turns => ?_⟩
  let target : ZPack → Nat := fun request => (request.place config).getD 0
  choose orders hexplains using fun x => WorkerCalls.explained (w x) (turnsAt config x turns)
  have hservers : ∀ x, Linearizes NoVoHT.answer (w x).store
      ((ClusterCalls.history config w turns).filter fun e => ClusterCalls.server e.call = x)
      ((orders x).map (.rename (Nat.pair x))) := by
    intro x
    rw [ClusterCalls.history_at]
    exact (hexplains x).linearizes.rename (ClusterCalls.pair_injective x)
  have hplace : ∀ c request, CallEvent.invoke c request ∈ ClusterCalls.history config w turns →
      request.place config = some (ClusterCalls.server c) := fun c request => ClusterCalls.place_of_invoke _ _
  have htarget : ∀ c request, CallEvent.invoke c request ∈ ClusterCalls.history config w turns →
      target request = ClusterCalls.server c := by
    intro c request hc
    simp only [target, hplace c request hc, Option.getD_some]
  obtain ⟨order, hlin, hafter⟩ := Linearizes.family (ClusterCalls.history_wellFormed w turns) htarget hservers
  have hplaced : ∀ request ∈ order.map Done.input, request.place config = some (target request) := by
    intro request hmem
    obtain ⟨d, hd, rfl⟩ := List.mem_map.1 hmem
    simp only [target, hplace _ _ (hlin.invoked d hd), Option.getD_some]
  have hstep : ∀ (stores : Nat → NoVoHT) (worker : HTWorker) (request : ZPack),
      ClusterCalls.Joins config stores worker → request.place config = some (target request) →
        (family NoVoHT.answer target stores request).1 = (worker.process request).1 ∧
          ClusterCalls.Joins config (family NoVoHT.answer target stores request).2 (worker.process request).2 :=
    fun _ _ _ h hx => h.answer hx
  have hfirst : ClusterCalls.Joins config (fun x => (w x).store) (.new { NoVoHT.new with map := m }) :=
    fun key x hx => (hm key x hx).symm
  obtain ⟨hanswers, hjoins⟩ := Machine.simulates hstep hfirst hplaced
  refine ⟨order, ⟨hlin.distinct, hlin.invoked, hlin.answered, hlin.sequential.trans hanswers, hlin.realTime⟩, ?_⟩
  intro key x hx
  rw [← hjoins key x hx, hafter, map_input_rename, ← (hexplains x).store, (ClusterCalls.run_at _ _ x).2]
  rfl

end Zht
