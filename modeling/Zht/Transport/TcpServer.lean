/-
The server of `tcp.rs`. `TcpServer::run` looks at the shutdown flag before each accept, and each
connection's `handle_conn` looks at it before each request; a request has thirty seconds to come in, and
when it has not, what was read of it is lost and the next byte is taken for the start of a frame. When
bytes arrive and timers fire is left to the schedule. A call of the handler is one step, although two
connections may be inside it at once and a STATE_CHANGE_CALLBACK waits there; calls of `process` that overlap
are taken section by section in `Zht.Transport.ConcurrentCalls`.

`server_handles` says which requests a connection is taken to have made, and what is written back;
`shutdown_drains` what is still done once the flag is up.
-/
import Zht.Lib.Machine
import Zht.Transport.FrameStream
import Zht.Transport.TcpProxy

namespace Zht.Tcp

open Lib Lib.Delimited

/-! ## The server -/

/-- Where `handle_conn` stands. -/
inductive ConnPhase
  | spawned
  | checking
  | receiving
  | responding (response : ZPack)
  | closed
  deriving DecidableEq, Repr

/-- A connection: all that its client has sent, the part of that which has not been read, what the
receive under way has read, and what was written back. -/
structure Conn where
  stream : Bytes := []
  arrived : Bytes := []
  got : Bytes := []
  phase : ConnPhase := .spawned
  written : Bytes := []
  deriving DecidableEq, Repr

inductive ConnTurn
  /-- `set_nodelay` succeeds or fails. -/
  | nodelay (ok : Bool)
  | arrive (bytes : Bytes)
  | check
  | receive (n : Nat)
  /-- The stream has ended or broken. -/
  | receiveFails
  /-- The thirty seconds are over. -/
  | timeout
  /-- The answer goes out, or only its first bytes do. -/
  | send (written : Option Nat)
  deriving DecidableEq, Repr

/-- What a turn of a connection asks of the server. -/
inductive Effect
  | none
  | handle (request : ZPack)
  | sendError
  deriving DecidableEq, Repr

namespace Conn

variable (c : Codec) (conn : Conn)

/-- `recv_raw` gets up to `n` more bytes, and returns once the frame is complete. -/
def receive (n : Nat) : Conn × Effect :=
  let m := min n (want conn.got)
  let conn := { conn with got := conn.got ++ conn.arrived.take m, arrived := conn.arrived.drop m }
  if frameLength conn.got = some conn.got.length then
    match c.decode (conn.got.drop 4) with
    | .ok request => ({ conn with got := [] }, .handle request)
    | .error _ => ({ conn with phase := .closed }, .none)
  else (conn, .none)

/-- `send_raw`. -/
def send (response : ZPack) : Option Nat → Conn × Effect
  | none => ({ conn with phase := .checking, written := conn.written ++ encodeMessage c response }, .none)
  | some n =>
    ({ conn with phase := .closed, written := conn.written ++ (encodeMessage c response).take n }, .sendError)

/-- A turn of a connection; one that is not possible where it comes changes nothing. -/
def turn (triggered : Bool) (turn : ConnTurn) : Conn × Effect :=
  match turn, conn.phase with
  | .nodelay ok, .spawned => ({ conn with phase := if ok then .checking else .closed }, .none)
  | .arrive bytes, _ => ({ conn with stream := conn.stream ++ bytes, arrived := conn.arrived ++ bytes }, .none)
  | .check, .checking => ({ conn with phase := if triggered then .closed else .receiving }, .none)
  | .receive n, .receiving => conn.receive c n
  | .receiveFails, .receiving => ({ conn with phase := .closed }, .none)
  -- what the receive had read is dropped with it
  | .timeout, .receiving => ({ conn with phase := .checking, got := [] }, .none)
  | .send written, .responding response => conn.send c response written
  | _, _ => (conn, .none)

end Conn

/-- The counters of `TransportMetrics` that the server moves on. -/
structure ServerCounters where
  connectionsAccepted : UInt64 := 0
  requestsProcessed : UInt64 := 0
  sendErrors : UInt64 := 0
  deriving DecidableEq, Repr

/-- Where the accept loop of `run` stands. -/
inductive AcceptPhase
  | checking
  | accepting
  | stopped
  deriving DecidableEq, Repr

/-- A request that was handled, for which connection, and its answer. -/
structure Handled where
  conn : Nat
  request : ZPack
  response : ZPack
  deriving DecidableEq, Repr

/-- The server; `handled` records, in order, what its handler was asked. -/
structure TcpServer (σ : Type) where
  handler : σ
  counters : ServerCounters
  triggered : Bool
  phase : AcceptPhase
  conns : List Conn
  handled : List Handled

inductive TcpTurn
  /-- `ShutdownController::shutdown`. -/
  | shutdown
  | check
  | accept
  /-- The accept fails, or has not come within its 100 milliseconds. -/
  | acceptFails
  | conn (k : Nat) (turn : ConnTurn)
  deriving DecidableEq, Repr

namespace TcpServer

variable {σ : Type}

def new (handler : σ) : TcpServer σ :=
  { handler, counters := {}, triggered := false, phase := .checking, conns := [], handled := [] }

section Step

variable (c : Codec) (handle : σ → ZPack → ZPack × σ) (s : TcpServer σ)

def connTurn (k : Nat) (conn : Conn) (turn : ConnTurn) : TcpServer σ :=
  match conn.turn c s.triggered turn with
  | (conn, .none) => { s with conns := s.conns.set k conn }
  | (conn, .sendError) =>
    { s with
      conns := s.conns.set k conn
      counters := { s.counters with sendErrors := s.counters.sendErrors + 1 } }
  | (conn, .handle request) =>
    let answer := handle s.handler request
    { s with
      handler := answer.2
      handled := s.handled ++ [⟨k, request, answer.1⟩]
      conns := s.conns.set k { conn with phase := .responding answer.1 }
      counters := { s.counters with requestsProcessed := s.counters.requestsProcessed + 1 } }

def step : TcpTurn → TcpServer σ
  | .shutdown => { s with triggered := true }
  | .check =>
    if s.phase = .checking then { s with phase := if s.triggered then .stopped else .accepting } else s
  | .accept =>
    if s.phase = .accepting then
      { s with
        phase := .checking
        conns := s.conns ++ [{}]
        counters := { s.counters with connectionsAccepted := s.counters.connectionsAccepted + 1 } }
    else s
  | .acceptFails => if s.phase = .accepting then { s with phase := .checking } else s
  | .conn k turn =>
    match s.conns[k]? with
    | some conn => s.connTurn c handle k conn turn
    | none => s

def run (turns : List TcpTurn) : TcpServer σ := turns.foldl (step c handle) s

end Step

/-- What was handled for a connection. -/
def handledFor (s : TcpServer σ) (k : Nat) : List Handled := s.handled.filter (·.conn = k)

end TcpServer

/-! ## One connection -/

/-- Bytes that are no whole frame yet. -/
def Incomplete (bs : Bytes) : Prop := ∀ n, frameLength bs = some n → bs.length < n

/-- What one receive took off a stream: the frame of a request, or what it had read when its time was over. -/
structure Segment where
  bytes : Bytes
  request : Option ZPack
  deriving DecidableEq, Repr

def Segment.Sound (c : Codec) (seg : Segment) : Prop :=
  match seg.request with
  | some request => decodeMessage c seg.bytes = .ok (request, [])
  | none => seg.bytes ≠ [] ∧ Incomplete seg.bytes

theorem incomplete_nil : Incomplete [] := by
  intro n hn
  cases hn

/-- A whole frame is a message with nothing behind it. -/
theorem decodeMessage_whole {c : Codec} {bs : Bytes} {z : ZPack} (hlen : frameLength bs = some bs.length)
    (hz : c.decode (bs.drop 4) = .ok z) : decodeMessage c bs = .ok (z, []) := by
  unfold frameLength at hlen
  split at hlen
  · cases hlen
  · next hfour =>
    have hn : 4 + fromBeBytes (bs.take 4) = bs.length := Option.some.inj hlen
    have htake : (bs.drop 4).take (fromBeBytes (bs.take 4)) = bs.drop 4 :=
      List.take_of_length_le (by rw [List.length_drop]; omega)
    unfold decodeMessage
    simp only
    rw [if_neg hfour, hn, if_neg (Nat.lt_irrefl _), htake, hz, List.drop_length]
    rfl

/-- Reading no more than is wanted leaves a frame incomplete or just completes it. -/
theorem incomplete_append {got more : Bytes} (hgot : Incomplete got) (hmore : more.length ≤ want got)
    (hlen : frameLength (got ++ more) ≠ some (got ++ more).length) : Incomplete (got ++ more) := by
  intro n hn
  have hle : (got ++ more).length ≤ n := by
    rw [List.length_append]
    unfold want at hmore
    cases hg : frameLength got with
    | some m =>
      -- the length was known before
      have hm := hgot m hg
      have hsame : frameLength (got ++ more) = some m := by
        unfold frameLength at hg ⊢
        split at hg
        · cases hg
        · next hfour =>
          rw [if_neg (by rw [List.length_append]; omega), List.take_append_of_le_length (Nat.le_of_not_lt hfour)]
          exact hg
      rw [hsame] at hn
      simp only [hg] at hmore
      cases hn
      omega
    | none =>
      simp only [hg] at hmore
      have hfour : got.length < 4 := by
        unfold frameLength at hg
        split at hg
        · assumption
        · cases hg
      unfold frameLength at hn
      split at hn
      · cases hn
      · cases hn
        omega
  exact Nat.lt_of_le_of_ne hle fun he => hlen (he ▸ hn)

namespace Conn

variable {c : Codec} {conn : Conn}

/-- What a receive comes to: a request, an end of the connection, or more bytes of a frame. -/
theorem receive_cases (hgot : Incomplete conn.got) (n : Nat) :
    (∃ bytes rest request, conn.receive c n = ({ conn with got := [], arrived := rest }, .handle request) ∧
      conn.got ++ conn.arrived = bytes ++ rest ∧ decodeMessage c bytes = .ok (request, [])) ∨
    (∃ got rest, conn.receive c n = ({ conn with got, arrived := rest, phase := .closed }, .none) ∧
      conn.got ++ conn.arrived = got ++ rest) ∨
    ∃ got rest, conn.receive c n = ({ conn with got, arrived := rest }, .none) ∧
      conn.got ++ conn.arrived = got ++ rest ∧ Incomplete got := by
  have hsplit : conn.got ++ conn.arrived = (conn.got ++ conn.arrived.take (min n (want conn.got))) ++
      conn.arrived.drop (min n (want conn.got)) := by
    rw [List.append_assoc, List.take_append_drop]
  have hmore : (conn.arrived.take (min n (want conn.got))).length ≤ want conn.got := by
    rw [List.length_take]
    omega
  unfold receive
  simp only
  split
  · next hlen =>
    cases hz : c.decode ((conn.got ++ conn.arrived.take (min n (want conn.got))).drop 4) with
    | ok request => exact .inl ⟨_, _, request, rfl, hsplit, decodeMessage_whole hlen hz⟩
    | error e => exact .inr (.inl ⟨_, _, rfl, hsplit⟩)
  · next hlen => exact .inr (.inr ⟨_, _, rfl, hsplit, incomplete_append hgot hmore hlen⟩)

/-- A request is completed by a receive. -/
theorem receiving_of_handle {triggered : Bool} {turn : ConnTurn} {conn' : Conn} {request : ZPack}
    (hturn : conn.turn c triggered turn = (conn', .handle request)) : conn.phase = .receiving := by
  unfold Conn.turn at hturn
  split at hturn
  case h_4 n hphase => exact hphase
  case h_7 out response hphase => cases out <;> cases hturn
  all_goals cases hturn

/-- With the flag up no receive begins. -/
theorem receiving_of_turn {turn : ConnTurn} {conn' : Conn} {effect : Effect}
    (hturn : conn.turn c true turn = (conn', effect)) (heffect : ∀ z, effect ≠ .handle z)
    (hphase : conn'.phase = .receiving) : conn.phase = .receiving := by
  unfold Conn.turn at hturn
  split at hturn
  case h_1 ok hspawned =>
    cases hturn
    cases ok <;> cases hphase
  case h_2 => cases hturn; exact hphase
  case h_3 => cases hturn; cases hphase
  case h_4 hreceiving => exact hreceiving
  case h_5 => cases hturn; cases hphase
  case h_6 => cases hturn; cases hphase
  case h_7 out response hresponding => cases out <;> cases hturn <;> cases hphase
  case h_8 => cases hturn; exact hphase

/-- The frames of the answers to what was handled. -/
def answers (c : Codec) (hs : List Handled) : Bytes := hs.flatMap fun h => encodeMessage c h.response

theorem answers_append (hs more : List Handled) : answers c (hs ++ more) = answers c hs ++ answers c more :=
  List.flatMap_append

/-- What was written on a connection. -/
def Wrote (c : Codec) (hs : List Handled) (conn : Conn) : Prop :=
  match conn.phase with
  | .responding response =>
    ∃ before h, hs = before ++ [h] ∧ h.response = response ∧ conn.written = answers c before
  | .closed => conn.written <+: answers c hs ∧ answers c hs.dropLast <+: conn.written
  | _ => conn.written = answers c hs

theorem wrote_closed {hs : List Handled} {written : Bytes} (h : written = answers c hs) :
    written <+: answers c hs ∧ answers c hs.dropLast <+: written := by
  refine ⟨h ▸ List.prefix_rfl, h ▸ ?_⟩
  obtain ⟨last, hlast⟩ := List.dropLast_prefix hs
  exact ⟨answers c last, by rw [← answers_append, hlast]⟩

end Conn

/-- Segments that are all frames of requests are decoded one after the other. -/
theorem decodeMessages_segments {c : Codec} {segments : List Segment} (hsound : ∀ seg ∈ segments, seg.Sound c)
    (hall : ∀ seg ∈ segments, seg.request ≠ none) (rest : Bytes) :
    decodeMessages c (segments.filterMap (·.request)).length (segments.flatMap (·.bytes) ++ rest) =
      .ok (segments.filterMap (·.request), rest) := by
  induction segments with
  | nil => rfl
  | cons seg segments ih =>
    obtain ⟨bytes, request⟩ := seg
    obtain ⟨hseg, hsegments⟩ := List.forall_mem_cons.1 hsound
    obtain ⟨hsome, hrest⟩ := List.forall_mem_cons.1 hall
    obtain ⟨request, rfl⟩ := Option.ne_none_iff_exists'.1 hsome
    have hframe : decodeMessage c (bytes ++ (segments.flatMap (·.bytes) ++ rest)) =
        .ok (request, segments.flatMap (·.bytes) ++ rest) := decodeMessage_append c hseg _
    have hmany := ih hsegments hrest
    unfold decodeMessages at hmany ⊢
    have hrequests : (Segment.mk bytes (some request) :: segments).filterMap (·.request) =
        request :: segments.filterMap (·.request) := rfl
    rw [List.flatMap_cons, List.append_assoc, hrequests, List.length_cons]
    simp only [decodeMany, hframe, hmany, bind, Except.bind]
    rfl

/-- The stream of a connection is the frames of the requests handled for it, with what timeouts lost in
between, and what is still unread. -/
structure ConnSound (c : Codec) (hs : List Handled) (timeouts : Nat) (conn : Conn) : Prop where
  split : ∃ segments : List Segment,
    conn.stream = segments.flatMap (·.bytes) ++ (conn.got ++ conn.arrived) ∧ (∀ seg ∈ segments, seg.Sound c) ∧
      segments.filterMap (·.request) = hs.map (·.request) ∧ segments.countP (·.request.isNone) ≤ timeouts
  incomplete : conn.phase ≠ .closed → Incomplete conn.got
  wrote : conn.Wrote c hs

namespace ConnSound

variable {c : Codec} {hs : List Handled} {timeouts : Nat} {stream arrived got written : Bytes} {phase : ConnPhase}

theorem new (c : Codec) : ConnSound c [] 0 {} :=
  ⟨⟨[], rfl, List.forall_mem_nil _, rfl, Nat.le_refl 0⟩, fun _ => incomplete_nil, rfl⟩

theorem mono {conn : Conn} (h : ConnSound c hs timeouts conn) {more : Nat} (hle : timeouts ≤ more) :
    ConnSound c hs more conn := by
  obtain ⟨segments, hstream, hsound, hrequests, hcount⟩ := h.split
  exact ⟨⟨segments, hstream, hsound, hrequests, hcount.trans hle⟩, h.incomplete, h.wrote⟩

/-- What was written are the answers, but for a part of the last one. -/
theorem wrote_part {conn : Conn} (h : ConnSound c hs timeouts conn) :
    conn.written <+: Conn.answers c hs ∧ Conn.answers c hs.dropLast <+: conn.written := by
  have hwrote := h.wrote
  unfold Conn.Wrote at hwrote
  split at hwrote
  · next response hphase =>
    obtain ⟨before, last, rfl, -, hwritten⟩ := hwrote
    rw [hwritten, List.dropLast_concat, Conn.answers_append]
    exact ⟨List.prefix_append _ _, List.prefix_rfl⟩
  · exact hwrote
  · exact Conn.wrote_closed hwrote

/-- The receive moves on: the bytes it reads are those that had arrived. -/
theorem resplit (h : ConnSound c hs timeouts ⟨stream, arrived, got, phase, written⟩) {got' rest : Bytes}
    (hsplit : got ++ arrived = got' ++ rest) {phase' : ConnPhase} (hgot : phase' ≠ .closed → Incomplete got')
    (hwrote : Conn.Wrote c hs ⟨stream, rest, got', phase', written⟩) :
    ConnSound c hs timeouts ⟨stream, rest, got', phase', written⟩ := by
  obtain ⟨segments, hstream, hsound, hrequests, hcount⟩ := h.split
  exact ⟨⟨segments, hstream.trans (by rw [hsplit]), hsound, hrequests, hcount⟩, hgot, hwrote⟩

/-- A request is complete, and is answered. -/
theorem handle (h : ConnSound c hs timeouts ⟨stream, arrived, got, .receiving, written⟩) {bytes rest : Bytes}
    (hsplit : got ++ arrived = bytes ++ rest) {request : ZPack} (hframe : decodeMessage c bytes = .ok (request, []))
    (k : Nat) (response : ZPack) :
    ConnSound c (hs ++ [⟨k, request, response⟩]) timeouts ⟨stream, rest, [], .responding response, written⟩ := by
  obtain ⟨segments, hstream, hsound, hrequests, hcount⟩ := h.split
  refine ⟨⟨segments ++ [⟨bytes, some request⟩], ?_, ?_, ?_, ?_⟩, fun _ => incomplete_nil, ?_⟩
  · rw [List.flatMap_append, List.flatMap_singleton, List.append_assoc, List.nil_append, ← hsplit]
    exact hstream
  · intro seg hmem
    rcases List.mem_append.1 hmem with hmem | hmem
    · exact hsound seg hmem
    · rw [List.mem_singleton.1 hmem]
      exact hframe
  · rw [List.filterMap_append, hrequests, List.map_append]
    rfl
  · rw [List.countP_append]
    exact hcount
  · exact ⟨hs, _, rfl, rfl, h.wrote⟩

/-- The time for a request is over. -/
theorem timeout (h : ConnSound c hs timeouts ⟨stream, arrived, got, .receiving, written⟩) :
    ConnSound c hs (timeouts + 1) ⟨stream, arrived, [], .checking, written⟩ := by
  obtain ⟨segments, hstream, hsound, hrequests, hcount⟩ := h.split
  refine ⟨?_, fun _ => incomplete_nil, h.wrote⟩
  by_cases hgot : got = []
  · subst hgot
    exact ⟨segments, hstream, hsound, hrequests, hcount.trans (Nat.le_succ _)⟩
  · refine ⟨segments ++ [⟨got, none⟩], ?_, ?_, ?_, ?_⟩
    · rw [List.flatMap_append, List.flatMap_singleton, List.append_assoc, List.nil_append]
      exact hstream
    · intro seg hmem
      rcases List.mem_append.1 hmem with hmem | hmem
      · exact hsound seg hmem
      · rw [List.mem_singleton.1 hmem]
        exact ⟨hgot, h.incomplete (by simp)⟩
    · rw [List.filterMap_append, hrequests]
      exact List.append_nil _
    · rw [List.countP_append]
      exact Nat.succ_le_succ hcount

/-- A turn in which nothing is handled. -/
theorem turn {conn : Conn} (h : ConnSound c hs timeouts conn) {triggered : Bool} {turn : ConnTurn} {conn' : Conn}
    {effect : Effect} (hturn : conn.turn c triggered turn = (conn', effect)) (heffect : ∀ z, effect ≠ .handle z) :
    ConnSound c hs (timeouts + if turn = .timeout then 1 else 0) conn' := by
  obtain ⟨stream, arrived, got, phase, written⟩ := conn
  unfold Conn.turn at hturn
  split at hturn
  · next ok hphase =>
    cases hturn
    cases hphase
    cases ok with
    | true => exact h.resplit rfl (fun _ => h.incomplete (by simp)) h.wrote
    | false => exact h.resplit rfl (fun hno => absurd rfl hno) (Conn.wrote_closed h.wrote)
  · next bytes =>
    cases hturn
    obtain ⟨segments, hstream, hsound, hrequests, hcount⟩ := h.split
    refine ⟨⟨segments, ?_, hsound, hrequests, hcount⟩, h.incomplete, h.wrote⟩
    show stream ++ bytes = _
    rw [show stream = _ from hstream, List.append_assoc, List.append_assoc]
  · next hphase =>
    cases hturn
    cases hphase
    cases triggered with
    | true => exact h.resplit rfl (fun hno => absurd rfl hno) (Conn.wrote_closed h.wrote)
    | false => exact h.resplit rfl (fun _ => h.incomplete (by simp)) h.wrote
  · next n hphase =>
    cases hphase
    rcases Conn.receive_cases (c := c) (h.incomplete (by simp)) n with
      ⟨bytes, rest, request, hrec, -, -⟩ | ⟨got', rest, hrec, hsplit⟩ | ⟨got', rest, hrec, hsplit, hgot⟩
    · rw [hrec] at hturn
      cases hturn
      exact absurd rfl (heffect request)
    · rw [hrec] at hturn
      cases hturn
      exact h.resplit hsplit (fun hno => absurd rfl hno) (Conn.wrote_closed h.wrote)
    · rw [hrec] at hturn
      cases hturn
      exact h.resplit hsplit (fun _ => hgot) h.wrote
  · next hphase =>
    cases hturn
    cases hphase
    exact h.resplit rfl (fun hno => absurd rfl hno) (Conn.wrote_closed h.wrote)
  · next hphase =>
    cases hturn
    cases hphase
    exact h.timeout
  · next out response hphase =>
    cases hphase
    obtain ⟨before, last, hlast, hresponse, hwritten⟩ := h.wrote
    have hall : Conn.answers c hs = written ++ encodeMessage c response := by
      rw [hlast, Conn.answers_append, ← hresponse, show written = _ from hwritten]
      simp [Conn.answers]
    cases out with
    | none =>
      cases hturn
      exact ⟨h.split, h.incomplete ∘ fun _ => by simp, hall.symm⟩
    | some n =>
      cases hturn
      refine ⟨h.split, fun hno => absurd rfl hno, ?_, ?_⟩
      · rw [hall]
        exact (List.prefix_append_right_inj written).2 (List.take_prefix n _)
      · rw [hlast, List.dropLast_concat, ← show written = _ from hwritten]
        exact List.prefix_append _ _
  · cases hturn
    exact h.mono (Nat.le_add_right _ _)

/-- A turn that completes a request, with the answer it is given. -/
theorem turn_handle {conn : Conn} (h : ConnSound c hs timeouts conn) {triggered : Bool} {turn : ConnTurn} {conn' : Conn}
    {request : ZPack} (hturn : conn.turn c triggered turn = (conn', .handle request)) (k : Nat) (response : ZPack) :
    ConnSound c (hs ++ [⟨k, request, response⟩]) timeouts { conn' with phase := .responding response } := by
  obtain ⟨stream, arrived, got, phase, written⟩ := conn
  unfold Conn.turn at hturn
  split at hturn
  case h_4 n hphase =>
    cases hphase
    rcases Conn.receive_cases (c := c) (h.incomplete (by simp)) n with
      ⟨bytes, rest, z, hrec, hsplit, hframe⟩ | ⟨got', rest, hrec, -⟩ | ⟨got', rest, hrec, -⟩
    · rw [hrec] at hturn
      cases hturn
      exact h.handle hsplit hframe k response
    · rw [hrec] at hturn
      cases hturn
    · rw [hrec] at hturn
      cases hturn
  case h_7 out response hphase =>
    -- an answer that goes out completes nothing
    cases out <;> cases hturn
  all_goals cases hturn

end ConnSound

/-! ## The server -/

namespace TcpServer

variable {σ : Type} {c : Codec} {handle : σ → ZPack → ZPack × σ} {s : TcpServer σ}

theorem handledFor_append (s : TcpServer σ) (j : Nat) (h : Handled) :
    (s.handled ++ [h]).filter (·.conn = j) = s.handledFor j ++ if h.conn = j then [h] else [] := by
  rw [List.filter_append, handledFor, List.filter_singleton]
  by_cases hj : h.conn = j <;> simp [hj]

/-- The handler was asked, in order, what is recorded; each connection is in order; the counters count. -/
structure Sound (c : Codec) (handle : σ → ZPack → ZPack × σ) (start : σ) (turns : List TcpTurn) (s : TcpServer σ) :
    Prop where
  answers : s.handled.map (·.response) = Machine.outputs handle start (s.handled.map (·.request))
  handler : s.handler = Machine.after handle start (s.handled.map (·.request))
  conns : ∀ k conn, s.conns[k]? = some conn →
    ConnSound c (s.handledFor k) (turns.count (.conn k .timeout)) conn
  opened : ∀ h ∈ s.handled, h.conn < s.conns.length
  processed : s.counters.requestsProcessed = UInt64.ofNat s.handled.length
  accepted : s.counters.connectionsAccepted = UInt64.ofNat s.conns.length

namespace Sound

variable {start : σ} {turns : List TcpTurn}

/-- A turn that leaves connections and handler alone. -/
theorem other (h : Sound c handle start turns s) (turn : TcpTurn) {triggered : Bool} {phase : AcceptPhase} :
    Sound c handle start (turns ++ [turn]) { s with triggered, phase } where
  answers := h.answers
  handler := h.handler
  conns k conn hk := (h.conns k conn hk).mono ((List.sublist_append_left _ _).count_le _)
  opened := h.opened
  processed := h.processed
  accepted := h.accepted

theorem accept (h : Sound c handle start turns s) (turn : TcpTurn) {phase : AcceptPhase} :
    Sound c handle start (turns ++ [turn])
      { s with
        phase
        conns := s.conns ++ [{}]
        counters := { s.counters with connectionsAccepted := s.counters.connectionsAccepted + 1 } } where
  answers := h.answers
  handler := h.handler
  conns k conn hk := by
    rw [List.getElem?_append] at hk
    split at hk
    · exact (h.conns k conn hk).mono ((List.sublist_append_left _ _).count_le _)
    · next hge =>
      obtain ⟨-, rfl⟩ : k - s.conns.length = 0 ∧ ({} : Conn) = conn := by simpa [List.getElem?_singleton] using hk
      have hnone : s.handledFor k = [] :=
        List.filter_eq_nil_iff.2 fun e he => by
          have := h.opened e he
          simp only [decide_eq_true_eq]
          omega
      show ConnSound c (s.handledFor k) _ _
      rw [hnone]
      exact (ConnSound.new c).mono (Nat.zero_le _)
  opened e he := by
    rw [List.length_append]
    exact Nat.lt_add_right _ (h.opened e he)
  processed := h.processed
  accepted := by
    rw [h.accepted, List.length_append, List.length_singleton, UInt64.ofNat_add]
    rfl

/-- A turn of a connection: the others see nothing of it. -/
theorem conn (h : Sound c handle start turns s) {k : Nat} {conn : Conn} (hk : s.conns[k]? = some conn)
    (turn : ConnTurn) : Sound c handle start (turns ++ [.conn k turn]) (s.connTurn c handle k conn turn) := by
  have hlt : k < s.conns.length := (List.getElem?_eq_some_iff.1 hk).1
  have hcount : ∀ j, turns.count (.conn j .timeout) + (if j = k ∧ turn = .timeout then 1 else 0) ≤
      (turns ++ [TcpTurn.conn k turn]).count (.conn j .timeout) := by
    intro j
    rw [List.count_append, List.count_singleton]
    apply Nat.add_le_add_left
    split
    · next hj =>
      rw [hj.1, hj.2, if_pos (by simp)]
    · exact Nat.zero_le _
  have hmono : ∀ j, turns.count (.conn j .timeout) ≤ (turns ++ [TcpTurn.conn k turn]).count (.conn j .timeout) :=
    fun j => (List.sublist_append_left _ _).count_le _
  -- the others are as they were
  have hothers : ∀ (new : Conn) (j : Nat) (other : Conn), (s.conns.set k new)[j]? = some other →
      (j ≠ k ∧ s.conns[j]? = some other) ∨ (j = k ∧ other = new) := by
    intro new j other hj
    rw [List.getElem?_set] at hj
    split at hj
    · next heq =>
      have hnew : new = other := by simpa [hlt] using hj
      exact .inr ⟨heq.symm, hnew.symm⟩
    · next hne => exact .inl ⟨Ne.symm hne, hj⟩
  -- the connection itself, where nothing is handled
  have hquiet : ∀ (conn' : Conn) (effect : Effect), conn.turn c s.triggered turn = (conn', effect) →
      (∀ z, effect ≠ .handle z) → ∀ j other, (s.conns.set k conn')[j]? = some other →
      ConnSound c (s.handledFor j) ((turns ++ [TcpTurn.conn k turn]).count (.conn j .timeout)) other := by
    intro conn' effect hturn heffect j other hj
    rcases hothers conn' j other hj with ⟨-, hold⟩ | ⟨rfl, rfl⟩
    · exact (h.conns j other hold).mono (hmono j)
    · refine ((h.conns j conn hk).turn hturn heffect).mono ?_
      have hbound := hcount j
      simp only [true_and] at hbound
      exact hbound
  unfold connTurn
  split
  · next conn' hturn =>
    exact ⟨h.answers, h.handler, hquiet conn' .none hturn (by simp), fun e he => by
      rw [List.length_set]
      exact h.opened e he, h.processed, by rw [List.length_set]; exact h.accepted⟩
  · next conn' hturn =>
    exact ⟨h.answers, h.handler, hquiet conn' .sendError hturn (by simp), fun e he => by
      rw [List.length_set]
      exact h.opened e he, h.processed, by rw [List.length_set]; exact h.accepted⟩
  · next conn' request hturn =>
    simp only
    refine ⟨?_, ?_, fun j other hj => ?_, fun e he => ?_, ?_, ?_⟩
    · rw [List.map_append, List.map_append, Machine.outputs_append, h.answers, ← h.handler]
      rfl
    · rw [List.map_append, Machine.after_append, ← h.handler]
      rfl
    · show ConnSound c ((s.handled ++ [_]).filter _) _ _
      rw [handledFor_append]
      rcases hothers _ j other hj with ⟨hne, hold⟩ | ⟨rfl, rfl⟩
      · rw [if_neg hne.symm, List.append_nil]
        exact (h.conns j other hold).mono (hmono j)
      · rw [if_pos rfl]
        exact ((h.conns j conn hk).turn_handle hturn j _).mono (hmono j)
    · rw [List.length_set]
      rcases List.mem_append.1 he with he | he
      · exact h.opened e he
      · rw [List.mem_singleton.1 he]
        exact hlt
    · rw [h.processed, List.length_append, List.length_singleton, UInt64.ofNat_add]
      rfl
    · rw [List.length_set]
      exact h.accepted

/-- Every turn. -/
theorem step (h : Sound c handle start turns s) (turn : TcpTurn) :
    Sound c handle start (turns ++ [turn]) (s.step c handle turn) := by
  cases turn with
  | shutdown => exact h.other _
  | check =>
    show Sound _ _ _ _ (if _ then _ else _)
    split
    · exact h.other _
    · exact h.other _
  | accept =>
    show Sound _ _ _ _ (if _ then _ else _)
    split
    · exact h.accept _
    · exact h.other _
  | acceptFails =>
    show Sound _ _ _ _ (if _ then _ else _)
    split
    · exact h.other _
    · exact h.other _
  | conn k turn =>
    show Sound _ _ _ _ (match s.conns[k]? with
      | some conn => s.connTurn c handle k conn turn
      | none => s)
    cases hk : s.conns[k]? with
    | some conn => exact h.conn hk turn
    | none => exact h.other _

theorem run (c : Codec) (handle : σ → ZPack → ZPack × σ) (start : σ) (turns : List TcpTurn) :
    Sound c handle start turns ((new start).run c handle turns) := by
  induction turns using List.reverseRecOn with
  | nil =>
    exact ⟨rfl, rfl, fun _ _ hk => (by cases hk), fun _ he => absurd he List.not_mem_nil, rfl, rfl⟩
  | append_singleton turns turn ih =>
    unfold TcpServer.run at ih ⊢
    rw [List.foldl_append]
    exact ih.step turn

end Sound

/-- Every run of a server, each call of its handler being one step. The handler is asked one request after the
other, and the counters count them and the connections. The stream of each connection is the frames of the
requests handled for it, in order, with pieces in between that were lost, at most one for each of its timeouts,
and what is still unread: so without a timeout the requests are those its bytes decode to. What was written back
are the answers' frames, but for the end of an answer whose sending failed. -/
theorem server_handles (c : Codec) (handle : σ → ZPack → ZPack × σ) (start : σ) (turns : List TcpTurn) :
    let s := (new start).run c handle turns
    (s.handled.map (·.response) = Machine.outputs handle start (s.handled.map (·.request)) ∧
      s.handler = Machine.after handle start (s.handled.map (·.request))) ∧
    (s.counters.requestsProcessed = UInt64.ofNat s.handled.length ∧
      s.counters.connectionsAccepted = UInt64.ofNat s.conns.length) ∧
    ∀ k conn, s.conns[k]? = some conn →
      (∃ segments : List Segment,
        conn.stream = segments.flatMap (·.bytes) ++ (conn.got ++ conn.arrived) ∧ (∀ seg ∈ segments, seg.Sound c) ∧
          segments.filterMap (·.request) = (s.handledFor k).map (·.request) ∧
          segments.countP (·.request.isNone) ≤ turns.count (.conn k .timeout)) ∧
      (TcpTurn.conn k .timeout ∉ turns →
        decodeMessages c (s.handledFor k).length conn.stream =
          .ok ((s.handledFor k).map (·.request), conn.got ++ conn.arrived)) ∧
      conn.written <+: Conn.answers c (s.handledFor k) ∧
        Conn.answers c (s.handledFor k).dropLast <+: conn.written := by
  intro s
  have h := Sound.run c handle start turns
  refine ⟨⟨h.answers, h.handler⟩, ⟨h.processed, h.accepted⟩, fun k conn hk => ?_⟩
  have hconn := h.conns k conn hk
  obtain ⟨segments, hstream, hsound, hrequests, hcount⟩ := hconn.split
  refine ⟨⟨segments, hstream, hsound, hrequests, hcount⟩, fun hnone => ?_, hconn.wrote_part⟩
  rw [List.count_eq_zero.2 hnone, Nat.le_zero, List.countP_eq_zero] at hcount
  have hdecode := decodeMessages_segments hsound (fun seg hmem => by simpa using hcount seg hmem)
    (conn.got ++ conn.arrived)
  have hlength := congrArg List.length hrequests
  rw [List.length_map] at hlength
  rw [hstream, ← hlength, ← hrequests]
  exact hdecode

/-- An insert whose bytes come in two parts, half a minute apart: the remove that its value spells out is what is
handled. -/
example :
    let remove : ZPack := { opcode := [0x30, 0x30, 0x32], key := [0x6b] }
    let insert : ZPack := { opcode := [0x30, 0x30, 0x33], key := [0x61], val := encodeMessage .protobuf remove }
    let frame := encodeMessage .protobuf insert
    let s := (new ()).run .protobuf (fun _ request => (request, ()))
      [.check, .accept, .conn 0 (.nodelay true), .conn 0 .check, .conn 0 (.arrive (frame.take 14)),
        .conn 0 (.receive 4), .conn 0 (.receive 10), .conn 0 .timeout, .conn 0 .check,
        .conn 0 (.arrive (frame.drop 14)), .conn 0 (.receive 4), .conn 0 (.receive 8)]
    s.handled.map (·.request) = [remove] := by decide +kernel

/-! ## Shutdown -/

/-- A connection that was told to go on before the flag went up. -/
def pending (s : TcpServer σ) (k : Nat) : Nat := if s.conns[k]?.any (·.phase = .receiving) then 1 else 0

/-- An accept that was under way before the flag went up. -/
def opening (s : TcpServer σ) : Nat := if s.phase = .accepting then 1 else 0

/-- With the flag up: no more connections, and no more requests, than were under way in `s`. -/
structure Draining (s t : TcpServer σ) : Prop where
  triggered : t.triggered = true
  conns : t.conns.length + t.opening ≤ s.conns.length + s.opening
  requests : ∀ k, (t.handledFor k).length + t.pending k ≤ (s.handledFor k).length + s.pending k

theorem pending_set {k : Nat} {conn conn' : Conn} (hk : s.conns[k]? = some conn)
    (hphase : conn'.phase = .receiving → conn.phase = .receiving) (j : Nat) :
    (if (s.conns.set k conn')[j]?.any (·.phase = .receiving) then 1 else 0) ≤ s.pending j := by
  have hlt : k < s.conns.length := (List.getElem?_eq_some_iff.1 hk).1
  unfold pending
  by_cases hj : k = j
  · subst hj
    rw [List.getElem?_set_self hlt, hk]
    by_cases hrec : conn'.phase = .receiving
    · simp [hrec, hphase hrec]
    · simp [hrec]
  · rw [List.getElem?_set_ne hj]

theorem Draining.connTurn {t : TcpServer σ} (h : Draining s t) {k : Nat} {conn : Conn} (hk : t.conns[k]? = some conn)
    (turn : ConnTurn) : Draining s (t.connTurn c handle k conn turn) := by
  have hquiet : ∀ (conn' : Conn) (effect : Effect), conn.turn c t.triggered turn = (conn', effect) →
      (∀ z, effect ≠ .handle z) → ∀ j,
      (t.handledFor j).length + (if (t.conns.set k conn')[j]?.any (·.phase = .receiving) then 1 else 0) ≤
        (s.handledFor j).length + s.pending j := by
    intro conn' effect hturn heffect j
    rw [h.triggered] at hturn
    have hset := pending_set hk (Conn.receiving_of_turn hturn heffect) j
    exact (Nat.add_le_add_left hset _).trans (h.requests j)
  unfold TcpServer.connTurn
  split
  · next conn' hturn =>
    refine ⟨h.triggered, ?_, hquiet conn' .none hturn (by simp)⟩
    show (t.conns.set k conn').length + t.opening ≤ _
    rw [List.length_set]
    exact h.conns
  · next conn' hturn =>
    refine ⟨h.triggered, ?_, hquiet conn' .sendError hturn (by simp)⟩
    show (t.conns.set k conn').length + t.opening ≤ _
    rw [List.length_set]
    exact h.conns
  · next conn' request hturn =>
    refine ⟨h.triggered, ?_, fun j => ?_⟩
    · show (t.conns.set k _).length + t.opening ≤ _
      rw [List.length_set]
      exact h.conns
    · -- the request that was pending is the one handled
      have hreceiving : conn.phase = .receiving := Conn.receiving_of_handle hturn
      have hbefore := h.requests j
      have hlt : k < t.conns.length := (List.getElem?_eq_some_iff.1 hk).1
      show ((t.handled ++ [_]).filter _).length +
        (if (t.conns.set k _)[j]?.any (·.phase = .receiving) then 1 else 0) ≤ _
      rw [handledFor_append, List.length_append]
      by_cases hj : k = j
      · subst hj
        have hpending : t.pending k = 1 := by simp [pending, hk, hreceiving]
        rw [List.getElem?_set_self hlt, if_pos rfl]
        simp only [Option.any_some, List.length_singleton, reduceCtorEq, decide_false, Bool.false_eq_true, if_false]
        omega
      · have hsame : (if t.conns[j]?.any (·.phase = .receiving) then 1 else 0) = t.pending j := rfl
        rw [List.getElem?_set_ne hj, if_neg hj, hsame]
        simpa using hbefore

theorem Draining.step {t : TcpServer σ} (h : Draining s t) (turn : TcpTurn) : Draining s (t.step c handle turn) := by
  have hconns := h.conns
  unfold opening at hconns
  cases turn with
  | shutdown => exact ⟨rfl, h.conns, h.requests⟩
  | check =>
    show Draining s (if _ then _ else _)
    split
    · refine ⟨h.triggered, ?_, h.requests⟩
      rw [h.triggered]
      exact (Nat.add_le_add_left (Nat.zero_le _) _).trans h.conns
    · exact h
  | accept =>
    show Draining s (if _ then _ else _)
    split
    · next hphase =>
      refine ⟨h.triggered, ?_, fun k => ?_⟩
      · rw [if_pos hphase] at hconns
        show (t.conns ++ [({} : Conn)]).length + 0 ≤ _
        rw [List.length_append]
        exact hconns
      · have hnew : (if (t.conns ++ [({} : Conn)])[k]?.any (·.phase = .receiving) then 1 else 0) ≤ t.pending k := by
          unfold pending
          rw [List.getElem?_append]
          split
          · exact Nat.le_refl _
          · rw [List.getElem?_singleton]
            split <;> simp
        exact (Nat.add_le_add_left hnew _).trans (h.requests k)
    · exact h
  | acceptFails =>
    show Draining s (if _ then _ else _)
    split
    · exact ⟨h.triggered, (Nat.add_le_add_left (Nat.zero_le _) _).trans h.conns, h.requests⟩
    · exact h
  | conn k turn =>
    show Draining s (match t.conns[k]? with
      | some conn => t.connTurn c handle k conn turn
      | none => t)
    cases hk : t.conns[k]? with
    | some conn => exact h.connTurn hk turn
    | none => exact h

/-- From a shutdown on, however the server is scheduled, it takes at most the connection whose accept was under
way, and handles for each connection at most the request whose receive was under way; a connection that comes
or checks later is handled nothing. -/
theorem shutdown_drains (c : Codec) (handle : σ → ZPack → ZPack × σ) (s : TcpServer σ) (turns : List TcpTurn) :
    let t := (s.step c handle .shutdown).run c handle turns
    t.conns.length ≤ s.conns.length + s.opening ∧
      ∀ k, (t.handledFor k).length ≤ (s.handledFor k).length + s.pending k := by
  intro t
  have h : Draining s t := by
    have hstart : Draining s (s.step c handle .shutdown) := ⟨rfl, Nat.le_refl _, fun _ => Nat.le_refl _⟩
    have hrun : ∀ (turns : List TcpTurn) (r : TcpServer σ), Draining s r → Draining s (r.run c handle turns) := by
      intro turns
      induction turns with
      | nil => exact fun _ h => h
      | cons turn turns ih => exact fun r h => ih _ (h.step turn)
    exact hrun turns _ hstart
  exact ⟨(Nat.le_add_right _ _).trans h.conns, fun k => (Nat.le_add_right _ _).trans (h.requests k)⟩

end TcpServer

end Zht.Tcp
