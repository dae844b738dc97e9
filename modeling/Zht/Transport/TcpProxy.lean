/-
`TcpProxy` and the server it talks to, as one machine. A call holds the pool's lock from its first
attempt to its return, so one call is active at a time; its awaits are the steps between which the
server, the network and a timeout may act. Connections are byte streams in both directions that
arrive whole and in order until they break; what has been written on one stays there for the server
to read after the call has given it up. Every write and every answer is marked with the attempt or
the answer it is part of.

Left to the schedule: what a connect, a send and a receive come to, how many bytes move at a time,
when the server answers, and when a timeout fires. A timeout that fires while its call still waits
for the lock changes nothing and is no step.
-/
import Mathlib.Logic.Function.Basic
import Mathlib.Data.List.Infix
import Zht.Lib.HashMap
import Zht.Lib.Machine
import Zht.Lib.Provenance
import Zht.Transport.Framing

namespace Zht

open Lib Lib.Stream

/-! ## Broken connections -/

def MAX_RECONNECT_ATTEMPTS : Nat := 1

/-- `char::to_lowercase` as far as ASCII texts can tell: the Kelvin sign is the one character
outside ASCII whose lower case is an ASCII letter by itself. -/
def lowerChar (c : Char) : Char := if c.toNat = 0x212A then 'k' else c.toLower

/-- `haystack.to_lowercase().contains(needle)`. -/
def lowerContains (haystack needle : String) : Bool := decide (needle.toList <:+: haystack.toList.map lowerChar)

def isConnectionBrokenError : ZhtError → Bool
  | .sendFailed msg | .recvFailed msg =>
    lowerContains msg "broken pipe" || lowerContains msg "connection reset" || lowerContains msg "unexpected eof" ||
      lowerContains msg "connection aborted" || lowerContains msg "broken pipe"
  | _ => false

/-! ## Connections -/

/-- The frame of one attempt of a call. -/
structure Attempt where
  call : Nat
  number : Nat
  deriving DecidableEq, Repr

/-- A connection: what each side has written and the other has not read, whether the server's
handler is still in its loop, and whether the connection is broken, so that nothing written on it
arrives any more. An answer is marked with its number among all answers of the server. -/
structure Connection where
  toServer : Stream Attempt := []
  toClient : Stream Nat := []
  serving : Bool := true
  broken : Bool := false

/-- `ConnectionStats`, without the time of the last activity. -/
structure ConnectionStats where
  messagesSent : UInt64 := 0
  messagesReceived : UInt64 := 0
  bytesSent : UInt64 := 0
  bytesReceived : UInt64 := 0
  errors : UInt64 := 0
  deriving DecidableEq, Repr

/-- An entry of the pool, with the number of its connection. -/
structure ConnectionEntry where
  conn : Nat
  stats : ConnectionStats := {}
  deriving DecidableEq, Repr

/-- The frame at the start of a stream, when all of it is there, and what follows. -/
def splitFrame {φ : Type} (s : Stream φ) : Option (Stream φ × Stream φ) :=
  match frameLength s.bytes with
  | some n => if n ≤ s.length then some (s.take n, s.drop n) else none
  | none => none

theorem splitFrame_nil {φ : Type} : splitFrame ([] : Stream φ) = none := rfl

theorem splitFrame_append {φ : Type} {s frame rest : Stream φ} (h : splitFrame s = some (frame, rest)) :
    frame ++ rest = s := by
  unfold splitFrame at h
  split at h
  · split at h
    · cases h
      exact List.take_append_drop _ s
    · cases h
  · cases h

/-- How many bytes `recv_message` still reads: the rest of the length, or of the frame. -/
def want (got : Bytes) : Nat :=
  match frameLength got with
  | some n => n - got.length
  | none => 4 - got.length

/-- What gets out of an answer: all of it, or its first bytes when the send fails. -/
def sentPart (written : Option Nat) (answer : Stream Nat) : Stream Nat :=
  match written with
  | some n => answer.take n
  | none => answer

/-! ## Calls -/

inductive CallKind
  | sendrecv
  | sendOnly
  | sendrecvWithTimeout (timeoutMs : Nat)
  deriving DecidableEq, Repr

def CallKind.receives : CallKind → Bool
  | sendOnly => false
  | sendrecv | sendrecvWithTimeout _ => true

/-- Where a call awaits: a connect, the rest of its frame to be written, or its answer. -/
inductive Phase
  | connecting
  | sending (conn : Nat) (left : Stream Attempt)
  | receiving (conn : Nat) (got : Stream Nat)
  deriving DecidableEq, Repr

/-- The connection a call is using. -/
def Phase.conn : Phase → Option Nat
  | connecting => none
  | sending k _ | receiving k _ => some k

structure Call where
  id : Nat
  kind : CallKind
  host : String
  port : UInt16
  request : ZPack
  attempts : Nat
  phase : Phase
  deriving DecidableEq, Repr

def Call.addr (call : Call) : String := HostEntity.address ⟨call.host, call.port⟩

/-- The attempt a call is at. -/
def Call.attempt (call : Call) : Attempt := ⟨call.id, call.attempts⟩

inductive CallResult
  | response (z : ZPack)
  | sent
  | error (e : ZhtError)
  deriving DecidableEq, Repr

/-- The return of a call. A response comes with the number of the answer its bytes are. -/
structure Return where
  call : Call
  result : CallResult
  origin : Option Nat
  deriving DecidableEq, Repr

/-- A frame the server has read and processed: the attempt its bytes are, the request and the
response. -/
structure Served where
  origin : Option Attempt
  request : ZPack
  response : ZPack
  deriving DecidableEq, Repr

/-! ## The machine -/

/-- The proxy, the connections and the server, whose state is a `ζ`. `calls` and `opened` count the
calls and the connections so far; `served` and `resent` record what the server has processed and
which calls have gone on to another attempt after which error. -/
structure TcpWorld (ζ : Type) where
  pool : HashMap String ConnectionEntry
  active : Option Call
  calls : Nat
  conns : Nat → Connection
  opened : Nat
  server : ζ
  served : List Served
  resent : List (Nat × ZhtError)

inductive Action
  | start (kind : CallKind) (host : String) (port : UInt16) (request : ZPack)
  | connect (result : Except String Unit)
  | write (n : Nat)
  | flush
  | sendFails (e : String)
  | read (n : Nat)
  | recvFails (e : String)
  | cancel
  | serve (conn : Nat) (written : Option Nat)
  | hangUp (conn : Nat)
  | lose (conn : Nat) (toServer toClient : Nat)

namespace TcpWorld

variable {ζ : Type}

/-- `TcpProxy::new`, and a server in its first state. -/
def new (server : ζ) : TcpWorld ζ where
  pool := ∅
  active := none
  calls := 0
  conns := fun _ => {}
  opened := 0
  server := server
  served := []
  resent := []

def setConn (w : TcpWorld ζ) (k : Nat) (f : Connection → Connection) : TcpWorld ζ :=
  { w with conns := Function.update w.conns k (f (w.conns k)) }

/-- Update the statistics of a pooled connection. -/
def count (w : TcpWorld ζ) (addr : String) (f : ConnectionStats → ConnectionStats) : TcpWorld ζ :=
  { w with
    pool := match w.pool.lookup addr with
      | some entry => w.pool.insert addr { entry with stats := f entry.stats }
      | none => w.pool }

def setPhase (w : TcpWorld ζ) (call : Call) (phase : Phase) : TcpWorld ζ :=
  { w with active := some { call with phase } }

def finish (w : TcpWorld ζ) (call : Call) (result : CallResult) (origin : Option Nat) : Option Return × TcpWorld ζ :=
  (some { call, result, origin }, { w with active := none })

section Step

variable (c : Codec) (process : ζ → ZPack → ZPack × ζ)

/-- The frame of the attempt a call is at. -/
def frameOf (call : Call) : Stream Attempt := mark call.attempt (encodeMessage c call.request)

/-- The head of the loop of `sendrecv` and `send_only`: the pooled connection, or a new one. -/
def beginAttempt (w : TcpWorld ζ) (call : Call) : TcpWorld ζ :=
  match w.pool.lookup call.addr with
  | some entry => w.setPhase call (.sending entry.conn (frameOf c call))
  | none => w.setPhase call .connecting

/-- A failed send or receive: a broken connection leaves the pool, and the loop goes on while there
are attempts left. -/
def fail (w : TcpWorld ζ) (call : Call) (e : ZhtError) : Option Return × TcpWorld ζ :=
  let w := w.count call.addr fun s => { s with errors := s.errors + 1 }
  if isConnectionBrokenError e then
    -- its statistics leave the pool with it
    let w := { w with pool := w.pool.erase call.addr }
    if MAX_RECONNECT_ATTEMPTS < call.attempts + 1 then w.finish call (.error e) none
    else
      let w := { w with resent := w.resent ++ [(call.id, e)] }
      (none, w.beginAttempt c { call with attempts := call.attempts + 1 })
  else w.finish call (.error e) none

def start (w : TcpWorld ζ) (kind : CallKind) (host : String) (port : UInt16) (request : ZPack) : TcpWorld ζ :=
  let call := { id := w.calls, kind, host, port, request, attempts := 0, phase := .connecting }
  { w with calls := w.calls + 1 }.beginAttempt c call

def connect (w : TcpWorld ζ) (call : Call) : Except String Unit → Option Return × TcpWorld ζ
  | .error reason => w.finish call (.error (.connectionFailed call.host call.port reason)) none
  | .ok () =>
    let k := w.opened
    let w := { w.setConn k fun _ => {} with pool := w.pool.insert call.addr { conn := k }, opened := k + 1 }
    (none, w.setPhase call (.sending k (frameOf c call)))

/-- `write_all` gets `n` more bytes out. -/
def write (w : TcpWorld ζ) (call : Call) (k : Nat) (left : Stream Attempt) (n : Nat) : TcpWorld ζ :=
  let w := w.setConn k fun conn =>
    { conn with toServer := if conn.broken then conn.toServer else conn.toServer ++ left.take n }
  w.setPhase call (.sending k (left.drop n))

/-- `send_message` returns. -/
def flush (w : TcpWorld ζ) (call : Call) (k : Nat) : Option Return × TcpWorld ζ :=
  let w := w.count call.addr fun s =>
    { s with messagesSent := s.messagesSent + 1
             bytesSent := s.bytesSent + UInt64.ofNat (4 + c.encodedLen call.request) }
  if call.kind.receives then (none, w.setPhase call (.receiving k [])) else w.finish call .sent none

/-- `recv_message` gets up to `n` more bytes, and returns once the frame is complete. -/
def read (w : TcpWorld ζ) (call : Call) (k : Nat) (got : Stream Nat) (n : Nat) : Option Return × TcpWorld ζ :=
  let m := min n (want got.bytes)
  let got := got ++ (w.conns k).toClient.take m
  let w := w.setConn k fun conn => { conn with toClient := conn.toClient.drop m }
  if frameLength got.bytes = some got.length then
    match c.decode (got.bytes.drop 4) with
    | .ok response =>
      let w := w.count call.addr fun s =>
        { s with messagesReceived := s.messagesReceived + 1
                 bytesReceived := s.bytesReceived + UInt64.ofNat (4 + c.encodedLen response) }
      w.finish call (.response response) got.origin
    -- no broken connection: it stays in the pool
    | .error e => w.fail c call (.protobufDecodeError e)
  else (none, w.setPhase call (.receiving k got))

/-- The handler of a connection reads a frame and answers it; `written` is how much of the answer it
gets out before its send fails, if it does. -/
def serve (w : TcpWorld ζ) (k : Nat) (written : Option Nat) : TcpWorld ζ :=
  if (w.conns k).serving = false then w
  else
    match splitFrame (w.conns k).toServer with
    | none => w
    | some (frame, rest) =>
      match c.decode (frame.bytes.drop 4) with
      -- the handler leaves its loop
      | .error _ => w.setConn k fun conn => { conn with toServer := rest, serving := false }
      | .ok request =>
        let processed := process w.server request
        let answer := mark w.served.length (encodeMessage c processed.1)
        let w := w.setConn k fun conn =>
          { conn with
            toServer := rest
            toClient := if conn.broken then conn.toClient else conn.toClient ++ sentPart written answer
            serving := written.isNone }
        { w with server := processed.2, served := w.served ++ [⟨frame.origin, request, processed.1⟩] }

/-- One action; one that is not possible where it comes changes nothing. -/
def step (w : TcpWorld ζ) (a : Action) : Option Return × TcpWorld ζ :=
  match a, w.active with
  | .start kind host port request, none => (none, w.start c kind host port request)
  | .connect result, some call =>
    match call.phase with
    | .connecting => w.connect c call result
    | _ => (none, w)
  | .write n, some call =>
    match call.phase with
    | .sending k left => (none, w.write call k left n)
    | _ => (none, w)
  | .flush, some call =>
    match call.phase with
    | .sending k [] => w.flush c call k
    | _ => (none, w)
  | .sendFails e, some call =>
    match call.phase with
    | .sending _ _ => w.fail c call (.sendFailed e)
    | _ => (none, w)
  | .read n, some call =>
    match call.phase with
    | .receiving k got => w.read c call k got n
    | _ => (none, w)
  | .recvFails e, some call =>
    match call.phase with
    | .receiving _ _ => w.fail c call (.recvFailed e)
    | _ => (none, w)
  | .cancel, some call =>
    match call.kind with
    | .sendrecvWithTimeout timeoutMs => w.finish call (.error (.timeout timeoutMs)) none
    | _ => (none, w)
  | .serve k written, _ => (none, w.serve c process k written)
  | .hangUp k, _ => (none, w.setConn k fun conn => { conn with serving := false })
  | .lose k m n, _ =>
    (none, w.setConn k fun conn =>
      { conn with toServer := conn.toServer.take m, toClient := conn.toClient.take n, broken := true })
  | _, _ => (none, w)

end Step

/-! ## What a step can do -/

/-- What an action comes to, and what it needs for that of the state it comes in. -/
inductive Does (c : Codec) (process : ζ → ZPack → ZPack × ζ) (w : TcpWorld ζ) :
    Action → Option Return × TcpWorld ζ → Prop
  | nothing (a : Action) : Does c process w a (none, w)
  | start (kind : CallKind) (host : String) (port : UInt16) (request : ZPack) (idle : w.active = none) :
    Does c process w (.start kind host port request) (none, w.start c kind host port request)
  | connect (call : Call) (active : w.active = some call) (phase : call.phase = .connecting)
      (result : Except String Unit) : Does c process w (.connect result) (w.connect c call result)
  | write (call : Call) (active : w.active = some call) (k : Nat) (left : Stream Attempt)
      (phase : call.phase = .sending k left) (n : Nat) : Does c process w (.write n) (none, w.write call k left n)
  | flush (call : Call) (active : w.active = some call) (k : Nat) (phase : call.phase = .sending k []) :
    Does c process w .flush (w.flush c call k)
  | read (call : Call) (active : w.active = some call) (k : Nat) (got : Stream Nat)
      (phase : call.phase = .receiving k got) (n : Nat) : Does c process w (.read n) (w.read c call k got n)
  | fail (a : Action) (call : Call) (active : w.active = some call) (e : ZhtError) :
    Does c process w a (w.fail c call e)
  | cancel (call : Call) (active : w.active = some call) (e : ZhtError) :
    Does c process w .cancel (w.finish call (.error e) none)
  | serve (k : Nat) (written : Option Nat) : Does c process w (.serve k written) (none, w.serve c process k written)
  | hangUp (k : Nat) : Does c process w (.hangUp k) (none, w.setConn k fun conn => { conn with serving := false })
  | lose (k m n : Nat) :
    Does c process w (.lose k m n) (none, w.setConn k fun conn =>
      { conn with toServer := conn.toServer.take m, toClient := conn.toClient.take n, broken := true })

/-- Every step is one of these. -/
theorem does_step (c : Codec) (process : ζ → ZPack → ZPack × ζ) (w : TcpWorld ζ) (a : Action) :
    Does c process w a (w.step c process a) := by
  cases a with
  | serve k written => exact .serve k written
  | hangUp k => exact .hangUp k
  | lose k m n => exact .lose k m n
  | start kind host port request =>
    cases hactive : w.active with
    | some call => simpa only [step, hactive] using .nothing _
    | none => simpa only [step, hactive] using .start kind host port request hactive
  | connect result | write n | flush | sendFails e | read n | recvFails e | cancel =>
    cases hactive : w.active with
    | none => simpa only [step, hactive] using .nothing _
    | some call =>
      simp only [step, hactive]
      split
      all_goals first
        | exact .nothing _
        | exact .connect call hactive ‹_› _
        | exact .write call hactive _ _ ‹_› _
        | exact .flush call hactive _ ‹_›
        | exact .read call hactive _ _ ‹_› _
        | exact .fail _ call hactive _
        | exact .cancel call hactive _

/-! ## What the parts of a step touch -/

theorem setConn_same (w : TcpWorld ζ) (k : Nat) (f : Connection → Connection) :
    (w.setConn k f).conns k = f (w.conns k) := Function.update_self ..

theorem setConn_ne (w : TcpWorld ζ) {k j : Nat} (h : j ≠ k) (f : Connection → Connection) :
    (w.setConn k f).conns j = w.conns j := Function.update_of_ne h _ _

@[simp] theorem setConn_served (w : TcpWorld ζ) (k : Nat) (f : Connection → Connection) :
    (w.setConn k f).served = w.served := rfl

/-- The head of the loop: the frame is to be written from its first byte. -/
theorem beginAttempt_eq (c : Codec) (w : TcpWorld ζ) (call : Call) :
    ∃ phase, w.beginAttempt c call = w.setPhase call phase ∧
      ∀ k left, phase = .sending k left → ∃ out, out ++ left = frameOf c call := by
  unfold beginAttempt
  split
  · refine ⟨_, rfl, ?_⟩
    rintro k left ⟨⟩
    exact ⟨[], rfl⟩
  · exact ⟨_, rfl, fun _ _ => Phase.noConfusion⟩

/-- What a failed attempt comes to: the call returns, or makes another attempt after a broken
connection. -/
theorem fail_cases (c : Codec) (w : TcpWorld ζ) (call : Call) (e : ZhtError) :
    (∃ pool, (w.fail c call e).2 = { w with pool, active := none }) ∨
      (isConnectionBrokenError e = true ∧ call.attempts + 1 ≤ MAX_RECONNECT_ATTEMPTS ∧
        ∃ pool, (w.fail c call e).2 =
          beginAttempt c { w with pool, resent := w.resent ++ [(call.id, e)] }
            { call with attempts := call.attempts + 1 }) := by
  unfold fail
  simp only
  split
  · next hbroken =>
    split
    · exact .inl ⟨_, rfl⟩
    · next hle => exact .inr ⟨hbroken, Nat.le_of_not_lt hle, _, rfl⟩
  · exact .inl ⟨_, rfl⟩

/-- The server has done nothing. -/
def SameServer (w w' : TcpWorld ζ) : Prop := w'.server = w.server ∧ w'.served = w.served

section Calls

variable {c : Codec}

theorem sameServer_beginAttempt (w : TcpWorld ζ) (call : Call) : SameServer w (w.beginAttempt c call) := by
  obtain ⟨phase, hphase, -⟩ := beginAttempt_eq c w call
  rw [hphase]
  exact ⟨rfl, rfl⟩

theorem sameServer_start (w : TcpWorld ζ) (kind : CallKind) (host : String) (port : UInt16) (request : ZPack) :
    SameServer w (w.start c kind host port request) :=
  sameServer_beginAttempt { w with calls := w.calls + 1 } _

theorem sameServer_fail (w : TcpWorld ζ) (call : Call) (e : ZhtError) : SameServer w (w.fail c call e).2 := by
  rcases fail_cases c w call e with ⟨pool, hf⟩ | ⟨-, -, pool, hf⟩
  · rw [hf]
    exact ⟨rfl, rfl⟩
  · rw [hf]
    exact sameServer_beginAttempt { w with pool, resent := w.resent ++ [(call.id, e)] } _

theorem sameServer_connect (w : TcpWorld ζ) (call : Call) (result : Except String Unit) :
    SameServer w (w.connect c call result).2 := by
  cases result <;> exact ⟨rfl, rfl⟩

theorem sameServer_flush (w : TcpWorld ζ) (call : Call) (k : Nat) : SameServer w (w.flush c call k).2 := by
  unfold flush
  split <;> exact ⟨rfl, rfl⟩

theorem sameServer_read (w : TcpWorld ζ) (call : Call) (k : Nat) (got : Stream Nat) (n : Nat) :
    SameServer w (w.read c call k got n).2 := by
  unfold read
  simp only
  split
  · split
    · exact ⟨rfl, rfl⟩
    · exact sameServer_fail (w.setConn k _) call _
  · exact ⟨rfl, rfl⟩

end Calls

section Serve

variable {c : Codec} {process : ζ → ZPack → ZPack × ζ}

variable (c process) in
/-- The server's part of a step leaves the calls alone. -/
theorem serve_calls (w : TcpWorld ζ) (k : Nat) (written : Option Nat) :
    (w.serve c process k written).active = w.active ∧ (w.serve c process k written).calls = w.calls ∧
      (w.serve c process k written).resent = w.resent := by
  unfold serve
  split
  · exact ⟨rfl, rfl, rfl⟩
  split
  · exact ⟨rfl, rfl, rfl⟩
  split <;> exact ⟨rfl, rfl, rfl⟩

theorem serve_conns_ne (w : TcpWorld ζ) {k j : Nat} (h : j ≠ k) (written : Option Nat) :
    (w.serve c process k written).conns j = w.conns j := by
  unfold serve
  split
  · rfl
  split
  · rfl
  split
  · exact setConn_ne w h _
  · exact Function.update_of_ne h _ _

variable (c process) in
theorem serve_served (w : TcpWorld ζ) (k : Nat) (written : Option Nat) :
    ∃ more, (w.serve c process k written).served = w.served ++ more := by
  unfold serve
  split
  · exact ⟨[], (List.append_nil _).symm⟩
  split
  · exact ⟨[], (List.append_nil _).symm⟩
  split
  · exact ⟨[], (List.append_nil _).symm⟩
  · exact ⟨_, rfl⟩

end Serve

end TcpWorld

end Zht
