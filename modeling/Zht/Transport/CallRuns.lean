/-
A call of the machine is a run of the loop of `TcpProxy`: a call that is not cancelled returns what
the loop returns on a network that answers as the machine's actions say, and leaves the pool the loop
leaves, whatever the server and other connections do meanwhile. So what the loops do to the pool, the
calls of the machine do.
-/
import Zht.Transport.Reconnect

namespace Zht

open Lib Lib.Stream

/-- The server a call is to. -/
def Call.server (call : Call) : HostEntity := ⟨call.host, call.port⟩

namespace TcpProxy

/-! ## Networks that answer as they have -/

theorem Network.Gives.init {net : Network} {events : List Event} {e : Event} (h : net.Gives (events ++ [e])) :
    net.Gives events := by
  rintro before e' after rfl
  exact h before e' (after ++ [e]) (by simp only [List.append_assoc, List.cons_append])

theorem Network.Gives.last {net : Network} {events : List Event} {e : Event} (h : net.Gives (events ++ [e])) :
    net.Answers events e := h events e [] rfl

/-- The network that answers once more what it has answered. -/
def Network.replay (events : List Event) : Network where
  connect before _ := match events[before.length]? with
    | some (.connected _ result) => result
    | _ => .error ""
  send before _ _ := match events[before.length]? with
    | some (.sent _ _ result) => result
    | _ => .error ""
  receive before _ := match events[before.length]? with
    | some (.received _ result) => result
    | _ => .error ""

theorem Network.replay_gives (events : List Event) : (replay events).Gives events := by
  rintro before e after rfl
  have hat : (before ++ e :: after)[before.length]? = some e := by
    rw [List.getElem?_append_right (Nat.le_refl _), Nat.sub_self, List.getElem?_cons_zero]
  cases e <;> simp only [Answers, replay, hat]

/-! ## The loop from where a call is -/

section Runs

variable {ζ : Type} {c : Codec} {process : ζ → ZPack → ZPack × ζ} {w : TcpWorld ζ} {call : Call} {events : List Event}
  {loop : Network → CallResult × Progress}

/-- The rest of the loop of a call. -/
def resume (c : Codec) (net : Network) (call : Call) (p : Progress) : CallResult × Progress :=
  let again := fun _ p => callLoop c net call.server call.request call.kind.receives (call.attempts + 1) p
  match call.phase with
  | .connecting => callLoop c net call.server call.request call.kind.receives call.attempts p
  | .sending k _ => sending c net call.server call.request call.attempts again call.kind.receives p k
  | .receiving k _ => receiving c net call.server call.attempts again p k

/-- The machine is at a call as `loop` is, on every network that has answered the same. -/
structure Midway (c : Codec) (loop : Network → CallResult × Progress) (w : TcpWorld ζ) (call : Call)
    (events : List Event) : Prop where
  active : w.active = some call
  connecting : call.phase = .connecting → w.pool.lookup call.addr = none
  rest : ∀ net, net.Gives events → loop net = resume c net call { pool := w.pool, events }

/-- A step of the machine that goes on with the call as the loop does, or returns from it. -/
def Follows (c : Codec) (loop : Network → CallResult × Progress) (out : Option Return × TcpWorld ζ) : Prop :=
  (out.1 = none ∧ ∃ call events, Midway c loop out.2 call events) ∨
    ∃ ret events, out.1 = some ret ∧
      ∀ net, net.Gives events → loop net = (ret.result, { pool := out.2.pool, events })

theorem follows_finish (events : List Event) {result : CallResult} {origin : Option Nat}
    (h : ∀ net, net.Gives events → loop net = (result, { pool := w.pool, events })) :
    Follows c loop (w.finish call result origin) := .inr ⟨_, events, rfl, h⟩

section Heads

variable (c : Codec) (net : Network) {server : HostEntity} (request : ZPack) (receives : Bool) (attempts : Nat)
  {p : Progress}

/-- The head of the loop with a pooled connection. -/
theorem callLoop_pooled {entry : ConnectionEntry} (h : p.pool.lookup server.address = some entry) :
    callLoop c net server request receives attempts p =
      sending c net server request attempts
        (fun _ p => callLoop c net server request receives (attempts + 1) p) receives p entry.conn := by
  rw [callLoop]
  simp only [establish, getMut, h]

theorem callLoop_refused (h : p.pool.lookup server.address = none) {reason : String}
    (hanswer : net.connect p.events server.address = .error reason) :
    callLoop c net server request receives attempts p =
      (.error (.connectionFailed server.host server.port reason),
        p.met (.connected server.address (.error reason))) := by
  rw [callLoop]
  simp only [establish, h, hanswer]

theorem callLoop_connected (h : p.pool.lookup server.address = none) {k : Nat}
    (hanswer : net.connect p.events server.address = .ok k) :
    callLoop c net server request receives attempts p =
      sending c net server request attempts
        (fun _ p => callLoop c net server request receives (attempts + 1) p) receives
        { pool := p.pool.insert server.address { conn := k }
          events := p.events ++ [.connected server.address (.ok k)] } k := by
  rw [callLoop]
  simp only [establish, getMut, h, hanswer, Finmap.lookup_insert]
  rfl

end Heads

theorem follows_beginAttempt (w : TcpWorld ζ) (call : Call) (events : List Event)
    (h : ∀ net, net.Gives events → loop net =
      callLoop c net call.server call.request call.kind.receives call.attempts { pool := w.pool, events }) :
    Follows c loop (none, w.beginAttempt c call) := by
  unfold TcpWorld.beginAttempt
  split
  · next entry hentry =>
    refine .inl ⟨rfl, _, events, rfl, nofun, fun net hnet => ?_⟩
    exact (h net hnet).trans (callLoop_pooled c net _ _ _ hentry)
  · next hnone => exact .inl ⟨rfl, _, events, rfl, fun _ => hnone, h⟩

theorem follows_fail (events : List Event) {e : ZhtError}
    (h : ∀ net, net.Gives events → loop net =
      failed call.server call.attempts
        (fun _ p => callLoop c net call.server call.request call.kind.receives (call.attempts + 1) p)
        { pool := w.pool, events } e) :
    Follows c loop (w.fail c call e) := by
  unfold TcpWorld.fail
  simp only
  split
  · next hbroken =>
    split
    · next hlt =>
      refine follows_finish events fun net hnet => ?_
      rw [h net hnet]
      simp only [failed, if_pos hbroken, dif_pos hlt]
      rfl
    · next hlt =>
      refine follows_beginAttempt _ { call with attempts := call.attempts + 1 } events fun net hnet => ?_
      rw [h net hnet]
      simp only [failed, if_pos hbroken, dif_neg hlt]
      rfl
  · next hbroken =>
    refine follows_finish events fun net hnet => ?_
    rw [h net hnet]
    simp only [failed, if_neg hbroken]
    rfl

theorem follows_connect (h : Midway c loop w call events) (hphase : call.phase = .connecting)
    (result : Except String Unit) : Follows c loop (w.connect c call result) := by
  have hnone : w.pool.lookup call.server.address = none := h.connecting hphase
  have hloop : ∀ net, net.Gives events → loop net =
      callLoop c net call.server call.request call.kind.receives call.attempts { pool := w.pool, events } := by
    intro net hnet
    rw [h.rest net hnet, resume, hphase]
  cases result with
  | error reason =>
    refine follows_finish (events ++ [.connected call.server.address (.error reason)]) fun net hnet => ?_
    exact (hloop net hnet.init).trans (callLoop_refused c net _ _ _ (p := ⟨w.pool, events⟩) hnone hnet.last)
  | ok u =>
    -- the network gives the connection the machine's number
    refine .inl ⟨rfl, _, events ++ [.connected call.server.address (.ok w.opened)], rfl, nofun, fun net hnet => ?_⟩
    exact (hloop net hnet.init).trans (callLoop_connected c net _ _ _ (p := ⟨w.pool, events⟩) hnone hnet.last)

/-- Bytes that get out are no outcome yet. -/
theorem follows_write (h : Midway c loop w call events) {k : Nat} {left : Stream Attempt}
    (hphase : call.phase = .sending k left) (n : Nat) : Follows c loop (none, w.write call k left n) := by
  refine .inl ⟨rfl, _, events, rfl, nofun, fun net hnet => ?_⟩
  rw [h.rest net hnet, resume, hphase]
  rfl

theorem follows_flush (h : Midway c loop w call events) {k : Nat} (hphase : call.phase = .sending k []) :
    Follows c loop (w.flush c call k) := by
  let events' := events ++ [.sent k (encodeMessage c call.request) (.ok ())]
  have hanswer : ∀ net : Network, net.Gives events' → net.send events k (encodeMessage c call.request) = .ok () :=
    fun _ hnet => hnet.last
  unfold TcpWorld.flush
  simp only
  split
  · next hreceives =>
    refine .inl ⟨rfl, _, events', rfl, nofun, fun net hnet => ?_⟩
    rw [h.rest net hnet.init, resume]
    simp only [hphase, sending, sendMessage, hanswer net hnet, Except.mapError, if_pos hreceives]
    rfl
  · next hreceives =>
    refine follows_finish events' fun net hnet => ?_
    rw [h.rest net hnet.init, resume]
    simp only [hphase, sending, sendMessage, hanswer net hnet, Except.mapError, if_neg hreceives]
    rfl

theorem follows_sendFails (h : Midway c loop w call events) {k : Nat} {left : Stream Attempt}
    (hphase : call.phase = .sending k left) (e : String) : Follows c loop (w.fail c call (.sendFailed e)) := by
  refine follows_fail (events ++ [.sent k (encodeMessage c call.request) (.error e)]) fun net hnet => ?_
  have hanswer : net.send events k (encodeMessage c call.request) = .error e := hnet.last
  rw [h.rest net hnet.init, resume]
  simp only [hphase, sending, sendMessage, hanswer, Except.mapError]
  rfl

theorem follows_recvFails (h : Midway c loop w call events) {k : Nat} {got : Stream Nat}
    (hphase : call.phase = .receiving k got) (e : String) : Follows c loop (w.fail c call (.recvFailed e)) := by
  refine follows_fail (events ++ [.received k (.error e)]) fun net hnet => ?_
  have hanswer : net.receive events k = .error e := hnet.last
  rw [h.rest net hnet.init, resume]
  simp only [hphase, receiving, recvMessage, hanswer]
  rfl

theorem follows_read (h : Midway c loop w call events) {k : Nat} {got : Stream Nat}
    (hphase : call.phase = .receiving k got) (n : Nat) : Follows c loop (w.read c call k got n) := by
  unfold TcpWorld.read
  simp only
  generalize got ++ ((w.conns k).toClient.take (min n (want got.bytes))) = got'
  let events' := events ++ [.received k (.ok (got'.bytes.drop 4))]
  have hanswer : ∀ net : Network, net.Gives events' → net.receive events k = .ok (got'.bytes.drop 4) :=
    fun _ hnet => hnet.last
  split
  · split
    · next response hdecode =>
      refine follows_finish events' fun net hnet => ?_
      rw [h.rest net hnet.init, resume]
      simp only [hphase, receiving, recvMessage, hanswer net hnet, hdecode, Except.mapError]
      rfl
    · next e hdecode =>
      refine follows_fail events' fun net hnet => ?_
      rw [h.rest net hnet.init, resume]
      simp only [hphase, receiving, recvMessage, hanswer net hnet, hdecode, Except.mapError]
      rfl
  · refine .inl ⟨rfl, _, events, rfl, nofun, fun net hnet => ?_⟩
    rw [h.rest net hnet, resume, hphase]
    rfl

/-- What leaves the pool and the calls alone leaves the loop where it is. -/
theorem Midway.keep {w' : TcpWorld ζ} (h : Midway c loop w call events) (hactive : w'.active = w.active)
    (hpool : w'.pool = w.pool) : Follows c loop (none, w') := by
  refine .inl ⟨rfl, call, events, hactive.trans h.active, ?_, ?_⟩
  · rw [hpool]
    exact h.connecting
  · rw [hpool]
    exact h.rest

theorem pool_serve (w : TcpWorld ζ) (k : Nat) (written : Option Nat) :
    (w.serve c process k written).pool = w.pool := by
  unfold TcpWorld.serve
  split
  · rfl
  split
  · rfl
  split <;> rfl

theorem follows_step (process : ζ → ZPack → ZPack × ζ) (h : Midway c loop w call events) {a : Action}
    (ha : a ≠ .cancel) : Follows c loop (w.step c process a) := by
  have hnothing : Follows c loop (none, w) := h.keep rfl rfl
  cases a with
  | cancel => exact absurd rfl ha
  | serve k written => exact h.keep (TcpWorld.serve_calls c process w k written).1 (pool_serve w k written)
  | hangUp k => exact h.keep rfl rfl
  | lose k m n => exact h.keep rfl rfl
  | start kind host port request => simpa only [TcpWorld.step, h.active] using hnothing
  | connect result | write n | flush | sendFails e | read n | recvFails e =>
    simp only [TcpWorld.step, h.active]
    split
    all_goals first
      | exact hnothing
      | exact follows_connect h ‹_› _
      | exact follows_write h ‹_› _
      | exact follows_flush h ‹_›
      | exact follows_sendFails h ‹_› _
      | exact follows_read h ‹_› _
      | exact follows_recvFails h ‹_› _

/-- The steps of a call up to its return. -/
theorem midway_run : ∀ (actions : List Action) {w : TcpWorld ζ} {call : Call} {events : List Event},
    Midway c loop w call events → .cancel ∉ actions →
      (∀ o ∈ Machine.outputs (TcpWorld.step c process) w actions, o = none) →
      ∃ call events, Midway c loop (Machine.after (TcpWorld.step c process) w actions) call events
  | [], _, _, _, h, _, _ => ⟨_, _, h⟩
  | a :: actions, w, _, _, h, hcancel, hnone => by
    rw [List.mem_cons, not_or] at hcancel
    rw [Machine.outputs_cons, List.forall_mem_cons] at hnone
    rcases follows_step process h (Ne.symm hcancel.1) with ⟨-, call', events', h'⟩ | ⟨ret, -, hret, -⟩
    · exact midway_run actions h' hcancel.2 hnone.2
    · rw [hret] at hnone
      exact absurd hnone.1 (Option.some_ne_none ret)

end Runs

/-- From `w`, where no call is active, the machine has run a call to its return, which leaves `w'`; no
timeout has cancelled it. -/
structure Completes {ζ : Type} (c : Codec) (process : ζ → ZPack → ZPack × ζ) (w : TcpWorld ζ) (kind : CallKind)
    (host : String) (port : UInt16) (request : ZPack) (actions : List Action) (last : Action) (ret : Return)
    (w' : TcpWorld ζ) : Prop where
  idle : w.active = none
  uncancelled : .cancel ∉ actions ++ [last]
  underway : ∀ o ∈ Machine.outputs (TcpWorld.step c process) (w.start c kind host port request) actions, o = none
  returns : (Machine.after (TcpWorld.step c process) (w.start c kind host port request) actions).step c process last =
    (some ret, w')

section Completes

variable {ζ : Type} {c : Codec} {process : ζ → ZPack → ZPack × ζ} {w w' : TcpWorld ζ} {kind : CallKind}
  {host : String} {port : UInt16} {request : ZPack} {actions : List Action} {last : Action} {ret : Return}

/-- A call of the machine returns what the loop does on some network, and leaves the pool the loop
leaves. -/
theorem Completes.eq_loop (h : Completes c process w kind host port request actions last ret w') :
    ∃ net events, callLoop c net ⟨host, port⟩ request kind.receives 0 { pool := w.pool, events := [] } =
      (ret.result, { pool := w'.pool, events }) := by
  have huncancelled := h.uncancelled
  rw [List.mem_append, List.mem_singleton, not_or] at huncancelled
  obtain ⟨hactions, hlast⟩ := huncancelled
  let loop := fun net => callLoop c net ⟨host, port⟩ request kind.receives 0 { pool := w.pool, events := [] }
  have hbegin : Follows c loop (none, w.start c kind host port request) :=
    follows_beginAttempt { w with calls := w.calls + 1 }
      { id := w.calls, kind, host, port, request, attempts := 0, phase := .connecting } [] fun _ _ => rfl
  rcases hbegin with ⟨-, call, events, hmid⟩ | ⟨_, _, hsome, -⟩
  · obtain ⟨call, events, hmid⟩ := midway_run actions hmid hactions h.underway
    have hstep := follows_step process hmid (Ne.symm hlast)
    rw [h.returns] at hstep
    rcases hstep with ⟨hnone, -⟩ | ⟨ret', events, hret, hloop⟩
    · cases hnone
    · cases hret
      exact ⟨.replay events, events, hloop _ (Network.replay_gives events)⟩
  · cases hsome

/-- So the calls of the machine end as the loops do. -/
theorem Completes.ends (h : Completes c process w kind host port request actions last ret w') :
    ∃ net events, Ends c net (HostEntity.address ⟨host, port⟩) request kind.receives (MAX_RECONNECT_ATTEMPTS + 1)
      { pool := w.pool, events := [] } (ret.result, { pool := w'.pool, events }) := by
  obtain ⟨net, events, hloop⟩ := h.eq_loop
  have hends := callLoop_ends c net ⟨host, port⟩ request kind.receives 0 ⟨w.pool, []⟩ (Nat.zero_le _)
  rw [hloop] at hends
  exact ⟨net, events, hends⟩

end Completes

end TcpProxy

end Zht
