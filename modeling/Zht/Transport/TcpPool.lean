/-
The connection pool of `tcp.rs`. A call ensures its connection under one acquisition of the pool's lock
(`getOrCreate`) and uses it under the next; a call that fails removes the connection under a third. The
calls are given whole, and cut at the points where no lock is held as the sections a `Task` runs one at a
time; a task that runs alone is the call (`runAlone_eq_call`).

Left to the schedule: the clock, and what a connect, a write and a read come to.
-/
import Mathlib.Logic.Function.Iterate
import Zht.Lib.HashMap
import Zht.Transport.Framing

namespace Zht.Tcp

open Lib

/-! ## Metrics -/

/-- The counters of `TransportMetrics` that the proxy moves on. -/
structure TransportMetrics where
  messagesSent : UInt64 := 0
  messagesReceived : UInt64 := 0
  activeConnections : UInt64 := 0
  connectionsOpened : UInt64 := 0
  connectionsClosed : UInt64 := 0
  sendErrors : UInt64 := 0
  recvErrors : UInt64 := 0
  reconnections : UInt64 := 0
  /-- ghost: the active connections as a number -/
  live : Nat := 0
  /-- ghost: they have been counted below zero -/
  underflowed : Bool := false
  deriving DecidableEq, Repr

namespace TransportMetrics

variable (m : TransportMetrics)

def incMessagesSent : TransportMetrics := { m with messagesSent := m.messagesSent + 1 }

def incMessagesReceived : TransportMetrics := { m with messagesReceived := m.messagesReceived + 1 }

def incSendErrors : TransportMetrics := { m with sendErrors := m.sendErrors + 1 }

def incRecvErrors : TransportMetrics := { m with recvErrors := m.recvErrors + 1 }

def incReconnections : TransportMetrics := { m with reconnections := m.reconnections + 1 }

def incActiveConnections : TransportMetrics :=
  { m with
    activeConnections := m.activeConnections + 1
    connectionsOpened := m.connectionsOpened + 1
    live := m.live + 1 }

def decActiveConnections : TransportMetrics :=
  { m with
    activeConnections := m.activeConnections - 1
    connectionsClosed := m.connectionsClosed + 1
    live := m.live - 1
    underflowed := m.underflowed || m.live == 0 }

end TransportMetrics

/-! ## The pool -/

/-- 300 seconds, in nanoseconds. -/
def MAX_IDLE : Nat := 300 * 10 ^ 9

def MAX_OPS : Nat := 10000

/-- `PooledConn`, without its stream. -/
structure PooledConn where
  lastUsed : Nat
  ops : Nat
  deriving DecidableEq, Repr

def PooledConn.new (now : Nat) : PooledConn := { lastUsed := now, ops := 0 }

def PooledConn.touch (conn : PooledConn) (now : Nat) : PooledConn := { lastUsed := now, ops := conn.ops + 1 }

/-- To be recycled: too long idle, or used too often. -/
def PooledConn.stale (conn : PooledConn) (now : Nat) : Bool :=
  MAX_IDLE < now - conn.lastUsed || MAX_OPS ≤ conn.ops

structure TcpProxy where
  conns : HashMap String PooledConn
  metrics : TransportMetrics

/-! ## What the schedule decides -/

inductive ConnectOutcome
  | connected
  | invalidAddr (e : String)
  | refused (e : String)
  | nodelayFailed (e : String)
  deriving DecidableEq, Repr

/-- What a call meets: the time `getOrCreate` looks at, what connecting comes to and the time it is done,
the error of writing some bytes, if any, and its time, and the bytes that are read, if they can be, and
their time. -/
structure Outcomes where
  now : Nat := 0
  connect : ConnectOutcome := .connected
  created : Nat := 0
  send : Bytes → Option String := fun _ => none
  sentAt : Nat := 0
  recv : Except String Bytes := .ok []
  receivedAt : Nat := 0

def sendRaw (c : Codec) (zpack : ZPack) (o : Outcomes) : ZhtResult Unit :=
  match o.send (encodeMessage c zpack) with
  | none => .ok ()
  | some e => .error (.sendFailed e)

def recvRaw (c : Codec) (o : Outcomes) : ZhtResult ZPack :=
  match o.recv with
  | .ok buf => (c.decode buf).mapError .protobufDecodeError
  | .error e => .error (.recvFailed e)

namespace TcpProxy

def new : TcpProxy := { conns := ∅, metrics := {} }

def withMetrics (m : TransportMetrics) : TcpProxy := { conns := ∅, metrics := m }

/-- The pool with its metrics moved on. -/
def count (p : TcpProxy) (f : TransportMetrics → TransportMetrics) : TcpProxy := { p with metrics := f p.metrics }

def put (p : TcpProxy) (key : String) (conn : PooledConn) : TcpProxy := { p with conns := p.conns.insert key conn }

def connectionCount (p : TcpProxy) : Nat := p.conns.size

section Sections

variable (c : Codec) (p : TcpProxy) (host : String) (port : UInt16) (request : ZPack) (o : Outcomes)

def connect : ZhtResult Unit × TcpProxy :=
  match o.connect with
  | .connected => (.ok (), p.count (·.incActiveConnections))
  | .invalidAddr e => (.error (.connectionFailed host port ("Invalid addr: " ++ e)), p)
  | .refused e => (.error (.connectionFailed host port e), p)
  | .nodelayFailed e => (.error (.connectionFailed host port ("TCP_NODELAY: " ++ e)), p)

/-- Connect, and put the new connection into the pool. -/
def connectInto : ZhtResult Unit × TcpProxy :=
  match p.connect host port o with
  | (.ok (), p) => (.ok (), p.put (HostEntity.address ⟨host, port⟩) (.new o.created))
  | (.error e, p) => (.error e, p)

/-- A stale connection is counted as closed before the new one is there to replace it. -/
def getOrCreate : ZhtResult Unit × TcpProxy :=
  match p.conns.lookup (HostEntity.address ⟨host, port⟩) with
  | some conn =>
    if conn.stale o.now then
      (p.count fun m => m.decActiveConnections.incReconnections).connectInto host port o
    else (.ok (), p)
  | none => p.connectInto host port o

/-- `sendrecv` from its lookup on, as long as it holds the lock; `none` where the `unwrap` panics. -/
def exchange : Option (ZhtResult ZPack) × TcpProxy :=
  let key := HostEntity.address ⟨host, port⟩
  match p.conns.lookup key with
  | none => (none, p)
  | some conn =>
    match sendRaw c request o with
    | .error e => (some (.error e), p.count (·.incSendErrors))
    | .ok () =>
      let conn := conn.touch o.sentAt
      let p := (p.put key conn).count (·.incMessagesSent)
      match recvRaw c o with
      | .ok r => (some (.ok r), (p.put key (conn.touch o.receivedAt)).count (·.incMessagesReceived))
      | .error e => (some (.error e), p.count (·.incRecvErrors))

/-- `send_only` from its lookup on; a connection it could not write to stays in the pool. -/
def write : Option (ZhtResult Unit) × TcpProxy :=
  let key := HostEntity.address ⟨host, port⟩
  match p.conns.lookup key with
  | none => (none, p)
  | some conn =>
    match sendRaw c request o with
    | .error e => (some (.error e), p)
    | .ok () => (some (.ok ()), (p.put key (conn.touch o.sentAt)).count (·.incMessagesSent))

def removeConn : TcpProxy :=
  let key := HostEntity.address ⟨host, port⟩
  match p.conns.lookup key with
  | some _ => { p with conns := p.conns.erase key }.count (·.decActiveConnections)
  | none => p

/-- `close_all` behind its count: the pool is cleared, and that many connections are counted as closed. -/
def clear (n : Nat) : TcpProxy := { p with conns := ∅ }.count TransportMetrics.decActiveConnections^[n]

/-! ## Calls -/

/-- `none` for a panic. -/
def sendrecv : Option (ZhtResult ZPack) × TcpProxy :=
  match p.getOrCreate host port o with
  | (.error e, p) => (some (.error e), p)
  | (.ok (), p) =>
    match p.exchange c host port request o with
    | (none, p) => (none, p)
    | (some (.ok r), p) => (some (.ok r), p)
    | (some (.error e), p) => (some (.error e), p.removeConn host port)

def sendOnly : Option (ZhtResult Unit) × TcpProxy :=
  match p.getOrCreate host port o with
  | (.error e, p) => (some (.error e), p)
  | (.ok (), p) => p.write c host port request o

def closeConnection : TcpProxy := p.removeConn host port

def closeAll : TcpProxy := p.clear p.connectionCount

end Sections

/-! ## Connecting -/

theorem connect_cases (p : TcpProxy) (host : String) (port : UInt16) (o : Outcomes) :
    (o.connect = .connected ∧ p.connect host port o = (.ok (), p.count (·.incActiveConnections))) ∨
      (o.connect ≠ .connected ∧ ∃ e, p.connect host port o = (.error e, p)) := by
  unfold connect
  cases o.connect with
  | connected => exact .inl ⟨rfl, rfl⟩
  | invalidAddr e | refused e | nodelayFailed e => exact .inr ⟨by simp, _, rfl⟩

theorem connectInto_cases (p : TcpProxy) (host : String) (port : UInt16) (o : Outcomes) :
    (o.connect = .connected ∧ p.connectInto host port o =
        (.ok (), (p.count (·.incActiveConnections)).put (HostEntity.address ⟨host, port⟩) (.new o.created))) ∨
      (o.connect ≠ .connected ∧ ∃ e, p.connectInto host port o = (.error e, p)) := by
  unfold connectInto
  rcases p.connect_cases host port o with ⟨ho, h⟩ | ⟨ho, e, h⟩
  · exact .inl ⟨ho, by rw [h]⟩
  · exact .inr ⟨ho, e, by rw [h]⟩

end TcpProxy

/-! ## Using a connection -/

/-- The counters that connecting and closing move on. -/
def TransportMetrics.connections (m : TransportMetrics) : UInt64 × UInt64 × UInt64 × Nat × Bool :=
  (m.activeConnections, m.connectionsOpened, m.connectionsClosed, m.live, m.underflowed)

namespace TcpProxy

/-- The same addresses pooled, and the same counters of connections. -/
structure SameConnections (p q : TcpProxy) : Prop where
  keys : q.conns.keys = p.conns.keys
  counters : q.metrics.connections = p.metrics.connections

namespace SameConnections

variable {p q : TcpProxy}

theorem refl (p : TcpProxy) : SameConnections p p := ⟨rfl, rfl⟩

theorem mem_iff (h : SameConnections p q) (key : String) : key ∈ q.conns ↔ key ∈ p.conns := by
  rw [← Finmap.mem_keys, h.keys, Finmap.mem_keys]

theorem put (h : SameConnections p q) {key : String} (hk : key ∈ p.conns) (conn : PooledConn) :
    SameConnections p (q.put key conn) where
  keys := by
    rw [TcpProxy.put, HashMap.keys_insert, h.keys, Finset.insert_eq_of_mem (Finmap.mem_keys.2 hk)]
  counters := h.counters

theorem count (h : SameConnections p q) {f : TransportMetrics → TransportMetrics}
    (hf : ∀ m, (f m).connections = m.connections) : SameConnections p (q.count f) :=
  ⟨h.keys, (hf _).trans h.counters⟩

end SameConnections

section Sections

variable (c : Codec) (p : TcpProxy) (host : String) (port : UInt16) (request : ZPack) (o : Outcomes)

theorem exchange_same : SameConnections p (p.exchange c host port request o).2 := by
  unfold exchange
  cases hl : p.conns.lookup (HostEntity.address ⟨host, port⟩) with
  | none =>
    simp only [hl]
    exact .refl p
  | some conn =>
    have hmem : HostEntity.address ⟨host, port⟩ ∈ p.conns := Finmap.mem_of_lookup_eq_some hl
    simp only [hl]
    cases sendRaw c request o with
    | error e => exact (SameConnections.refl p).count fun _ => rfl
    | ok =>
      have hsent := ((SameConnections.refl p).put hmem (conn.touch o.sentAt)).count
        (f := TransportMetrics.incMessagesSent) fun _ => rfl
      simp only
      cases recvRaw c o with
      | ok r => exact (hsent.put hmem _).count fun _ => rfl
      | error e => exact hsent.count fun _ => rfl

theorem write_same : SameConnections p (p.write c host port request o).2 := by
  unfold write
  cases hl : p.conns.lookup (HostEntity.address ⟨host, port⟩) with
  | none =>
    simp only [hl]
    exact .refl p
  | some conn =>
    simp only [hl]
    cases sendRaw c request o with
    | error e => exact .refl p
    | ok => exact ((SameConnections.refl p).put (Finmap.mem_of_lookup_eq_some hl) _).count fun _ => rfl

end Sections

end TcpProxy

/-! ## Any call -/

inductive Call
  | sendrecv (host : String) (port : UInt16) (request : ZPack)
  | sendOnly (host : String) (port : UInt16) (request : ZPack)
  | closeConnection (host : String) (port : UInt16)
  | closeAll
  deriving DecidableEq, Repr

inductive Reply
  | response (z : ZPack)
  | done
  | error (e : ZhtError)
  | panicked
  deriving DecidableEq, Repr

/-- What a call returns, or that it panics. -/
def Reply.of {α : Type} (ok : α → Reply) : Option (ZhtResult α) → Reply
  | none => panicked
  | some (.ok a) => ok a
  | some (.error e) => error e

/-- One call. -/
def TcpProxy.call (c : Codec) (p : TcpProxy) (i : Call × Outcomes) : Reply × TcpProxy :=
  match i.1 with
  | .sendrecv host port request => Prod.map (.of .response) id (p.sendrecv c host port request i.2)
  | .sendOnly host port request => Prod.map (.of fun _ => .done) id (p.sendOnly c host port request i.2)
  | .closeConnection host port => (.done, p.closeConnection host port)
  | .closeAll => (.done, p.closeAll)

/-! ## Sections -/

/-- Where a call stands while it does not hold the lock: not yet begun, with its connection ensured, about
to remove the connection that failed it, having counted the pool it is to clear, or returned. -/
inductive Task
  | idle
  | started (call : Call)
  | exchanging (host : String) (port : UInt16) (request : ZPack)
  | writing (host : String) (port : UInt16) (request : ZPack)
  | removing (host : String) (port : UInt16) (e : ZhtError)
  | clearing (n : Nat)
  | returned (reply : Reply)
  deriving DecidableEq, Repr

/-- The next section of a call, up to where it lets go of the lock. -/
def Task.run (c : Codec) (p : TcpProxy) (o : Outcomes) : Task → Task × TcpProxy
  | idle => (idle, p)
  | started (.sendrecv host port request) =>
    match p.getOrCreate host port o with
    | (.ok (), p) => (exchanging host port request, p)
    | (.error e, p) => (returned (.error e), p)
  | started (.sendOnly host port request) =>
    match p.getOrCreate host port o with
    | (.ok (), p) => (writing host port request, p)
    | (.error e, p) => (returned (.error e), p)
  | started (.closeConnection host port) => (returned .done, p.removeConn host port)
  | started .closeAll => (clearing p.connectionCount, p)
  | exchanging host port request =>
    match p.exchange c host port request o with
    | (some (.error e), p) => (removing host port e, p)
    | (answer, p) => (returned (.of .response answer), p)
  | writing host port request =>
    let (answer, p) := p.write c host port request o
    (returned (.of (fun _ => .done) answer), p)
  | removing host port e => (returned (.error e), p.removeConn host port)
  | clearing n => (returned .done, p.clear n)
  | returned reply => (returned reply, p)

/-- A call without anything in between its sections, of which it has three at most. -/
theorem runAlone_eq_call (c : Codec) (p : TcpProxy) (call : Call) (o : Outcomes) :
    (fun s : Task × TcpProxy => s.1.run c s.2 o)^[3] (.started call, p) =
      (.returned (p.call c (call, o)).1, (p.call c (call, o)).2) := by
  simp only [Function.iterate_succ, Function.iterate_zero, Function.comp_apply, id_eq]
  cases call with
  | sendrecv host port request =>
    simp only [Task.run, TcpProxy.call, TcpProxy.sendrecv]
    rcases hget : p.getOrCreate host port o with ⟨e | _, q⟩
    · rfl
    · simp only
      rcases hex : q.exchange c host port request o with ⟨_ | e | r, q'⟩ <;> rfl
  | sendOnly host port request =>
    simp only [Task.run, TcpProxy.call, TcpProxy.sendOnly]
    rcases hget : p.getOrCreate host port o with ⟨e | _, q⟩ <;> rfl
  | closeConnection host port => rfl
  | closeAll => rfl

end Zht.Tcp
