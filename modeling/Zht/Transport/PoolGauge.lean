/-
The gauge of active connections. Each section of the pool moves the gauge along with the map, but for one
path: `getOrCreate` counts a stale connection as closed before it connects anew, and leaves the entry in
the pool when that fails. So the gauge is the size of the pool for as long as no call meets a stale
connection and a refused connect together (`gauge_iff`).
-/
import Zht.Lib.Machine
import Zht.Proto.Codec
import Zht.Transport.TcpPool

namespace Zht.Tcp

open Lib

/-! ## The metrics -/

/-- The metrics of a pool of `n` connections. -/
structure TransportMetrics.Counts (m : TransportMetrics) (n : Nat) : Prop where
  live : m.live = n
  active : m.activeConnections = UInt64.ofNat n
  opened : m.activeConnections = m.connectionsOpened - m.connectionsClosed
  underflowed : m.underflowed = false

namespace TransportMetrics.Counts

variable {m : TransportMetrics} {n : Nat}

theorem new : TransportMetrics.Counts {} 0 := ⟨rfl, rfl, rfl, rfl⟩

theorem inc (h : m.Counts n) : m.incActiveConnections.Counts (n + 1) where
  live := congrArg (· + 1) h.live
  active := by
    rw [incActiveConnections, h.active, UInt64.ofNat_add]
    rfl
  opened := by
    have hopened := h.opened
    simp only [incActiveConnections]
    grind
  underflowed := h.underflowed

theorem dec (h : m.Counts (n + 1)) : m.decActiveConnections.Counts n where
  live := congrArg (· - 1) h.live
  active := by
    have hactive := h.active
    rw [UInt64.ofNat_add] at hactive
    simp only [decActiveConnections, hactive]
    grind
  opened := by
    have hopened := h.opened
    simp only [decActiveConnections]
    grind
  underflowed := by
    simp [decActiveConnections, h.underflowed, h.live]

/-- As many decrements as there are connections. -/
theorem dec_iterate (h : m.Counts n) : (TransportMetrics.decActiveConnections^[n] m).Counts 0 := by
  induction n generalizing m with
  | zero => exact h
  | succ n ih =>
    rw [Function.iterate_succ_apply]
    exact ih h.dec

/-- Counters other than those of the connections do not matter. -/
theorem congr (h : m.Counts n) {m' : TransportMetrics} (hm : m'.connections = m.connections) : m'.Counts n := by
  simp only [connections, Prod.mk.injEq] at hm
  obtain ⟨hactive, hopened, hclosed, hlive, hunderflowed⟩ := hm
  refine ⟨hlive.trans h.live, hactive.trans h.active, ?_, hunderflowed.trans h.underflowed⟩
  rw [hactive, hopened, hclosed]
  exact h.opened

end TransportMetrics.Counts

/-! ## The sections -/

namespace TcpProxy

/-- The metrics count the pool. -/
def Balanced (p : TcpProxy) : Prop := p.metrics.Counts p.connectionCount

section Sections

variable {c : Codec} {p : TcpProxy} {host : String} {port : UInt16} {request : ZPack} {o : Outcomes}

theorem Balanced.of_same (h : p.Balanced) {q : TcpProxy} (hsame : SameConnections p q) : q.Balanced := by
  have hsize : q.connectionCount = p.connectionCount := congrArg Finset.card hsame.keys
  unfold Balanced
  rw [hsize]
  exact h.congr hsame.counters

/-- A connection that is stale meets a connect that fails. -/
def StaleRefused (p : TcpProxy) (host : String) (port : UInt16) (o : Outcomes) : Prop :=
  (∃ conn, p.conns.lookup (HostEntity.address ⟨host, port⟩) = some conn ∧ conn.stale o.now = true) ∧
    o.connect ≠ .connected

theorem Balanced.getOrCreate (h : p.Balanced) (hok : ¬p.StaleRefused host port o) :
    (p.getOrCreate host port o).2.Balanced := by
  unfold TcpProxy.getOrCreate
  cases hl : p.conns.lookup (HostEntity.address ⟨host, port⟩) with
  | none =>
    have hnot : HostEntity.address ⟨host, port⟩ ∉ p.conns := Finmap.lookup_eq_none.1 hl
    simp only
    rcases p.connectInto_cases host port o with ⟨-, hc⟩ | ⟨-, e, hc⟩
    · rw [hc]
      show TransportMetrics.Counts _ (HashMap.size (p.conns.insert _ _))
      rw [HashMap.size_insert_of_not_mem hnot]
      exact h.inc
    · rw [hc]
      exact h
  | some conn =>
    have hmem : HostEntity.address ⟨host, port⟩ ∈ p.conns := Finmap.mem_of_lookup_eq_some hl
    simp only
    by_cases hstale : conn.stale o.now = true
    · rw [if_pos hstale]
      rcases (p.count fun m => m.decActiveConnections.incReconnections).connectInto_cases host port o with
        ⟨-, hc⟩ | ⟨hrefused, -⟩
      · rw [hc]
        show TransportMetrics.Counts _ (HashMap.size (p.conns.insert _ _))
        -- one closed and one opened, and the entry replaced
        obtain ⟨n, hn⟩ : ∃ n, p.connectionCount = n + 1 := ⟨_, (HashMap.size_erase_of_mem hmem).symm⟩
        have hdec : p.metrics.decActiveConnections.Counts n := (hn ▸ h : p.metrics.Counts (n + 1)).dec
        have hreconnecting : p.metrics.decActiveConnections.incReconnections.Counts n := hdec.congr rfl
        rw [HashMap.size_insert_of_mem hmem, ← connectionCount, hn]
        exact hreconnecting.inc
      · exact absurd ⟨⟨conn, hl, hstale⟩, hrefused⟩ hok
    · rw [if_neg hstale]
      exact h

/-- The entry stays, and is counted as closed. -/
theorem getOrCreate_of_staleRefused (h : p.StaleRefused host port o) :
    HostEntity.address ⟨host, port⟩ ∈ p.conns ∧ ∃ e, p.getOrCreate host port o =
      (.error e, p.count fun m => m.decActiveConnections.incReconnections) := by
  obtain ⟨⟨conn, hl, hstale⟩, hrefused⟩ := h
  refine ⟨Finmap.mem_of_lookup_eq_some hl, ?_⟩
  unfold getOrCreate
  rw [hl]
  simp only [if_pos hstale]
  rcases (p.count fun m => m.decActiveConnections.incReconnections).connectInto_cases host port o with
    ⟨hconnected, -⟩ | ⟨-, hc⟩
  · exact absurd hconnected hrefused
  · exact hc

theorem Balanced.exchange (h : p.Balanced) : (p.exchange c host port request o).2.Balanced :=
  h.of_same (exchange_same c p host port request o)

theorem Balanced.write (h : p.Balanced) : (p.write c host port request o).2.Balanced :=
  h.of_same (write_same c p host port request o)

theorem Balanced.removeConn (h : p.Balanced) (host : String) (port : UInt16) : (p.removeConn host port).Balanced := by
  unfold TcpProxy.removeConn
  cases hl : p.conns.lookup (HostEntity.address ⟨host, port⟩) with
  | none =>
    simp only [hl]
    exact h
  | some conn =>
    have hsize := HashMap.size_erase_of_mem (Finmap.mem_of_lookup_eq_some hl)
    have hcounts : p.metrics.Counts (HashMap.size (p.conns.erase (HostEntity.address ⟨host, port⟩)) + 1) :=
      hsize ▸ h
    simp only [hl]
    exact hcounts.dec

theorem Balanced.closeAll (h : p.Balanced) : p.closeAll.Balanced := by
  show TransportMetrics.Counts _ (HashMap.size ∅)
  rw [HashMap.size_empty]
  exact h.dec_iterate

end Sections

/-! ## Runs -/

/-- A call that finds the connection of its address stale and cannot connect anew. -/
def MeetsStaleRefused (p : TcpProxy) (i : Call × Outcomes) : Prop :=
  match i.1 with
  | .sendrecv host port _ | .sendOnly host port _ => p.StaleRefused host port i.2
  | .closeConnection _ _ | .closeAll => False

/-- The gauge is the number of pooled connections and of those opened and not closed, and it has not been
counted below zero. -/
structure GaugeRight (p : TcpProxy) : Prop where
  pool : p.metrics.activeConnections = UInt64.ofNat p.connectionCount
  opened : p.metrics.activeConnections = p.metrics.connectionsOpened - p.metrics.connectionsClosed
  never : p.metrics.underflowed = false

theorem Balanced.gaugeRight {p : TcpProxy} (h : p.Balanced) : p.GaugeRight := ⟨h.active, h.opened, h.underflowed⟩

theorem Balanced.call {c : Codec} {p : TcpProxy} (h : p.Balanced) {i : Call × Outcomes}
    (hi : ¬p.MeetsStaleRefused i) : (p.call c i).2.Balanced := by
  obtain ⟨call, o⟩ := i
  cases call with
  | sendrecv host port request =>
    have hget := h.getOrCreate hi
    simp only [TcpProxy.call, sendrecv]
    rcases hg : p.getOrCreate host port o with ⟨_ | _, q⟩
    · rw [hg] at hget
      exact hget
    · rw [hg] at hget
      have hex : (q.exchange c host port request o).2.Balanced := hget.exchange
      simp only
      rcases he : q.exchange c host port request o with ⟨_ | _ | _, q'⟩
      · rw [he] at hex
        exact hex
      · rw [he] at hex
        exact hex.removeConn host port
      · rw [he] at hex
        exact hex
  | sendOnly host port request =>
    have hget := h.getOrCreate hi
    simp only [TcpProxy.call, sendOnly]
    rcases hg : p.getOrCreate host port o with ⟨_ | _, q⟩
    · rw [hg] at hget
      exact hget
    · rw [hg] at hget
      exact hget.write
  | closeConnection host port => exact h.removeConn host port
  | closeAll => exact h.closeAll

/-- The gauge has lost the connection that is still in the pool. -/
theorem Balanced.not_gaugeRight {c : Codec} {p : TcpProxy} (h : p.Balanced) {i : Call × Outcomes}
    (hi : p.MeetsStaleRefused i) : ¬(p.call c i).2.GaugeRight := by
  have hlost : ∀ {host port}, p.StaleRefused host port i.2 → ∀ {q : TcpProxy},
      q = p.count (fun m => m.decActiveConnections.incReconnections) → ¬q.GaugeRight := by
    rintro host port hstale q rfl ⟨hpool, -, -⟩
    have hactive : p.metrics.activeConnections - 1 = UInt64.ofNat p.connectionCount := hpool
    rw [h.active] at hactive
    grind
  obtain ⟨call, o⟩ := i
  cases call with
  | sendrecv host port request =>
    obtain ⟨-, e, hg⟩ := getOrCreate_of_staleRefused (show p.StaleRefused host port o from hi)
    simp only [TcpProxy.call, sendrecv, hg]
    exact hlost hi rfl
  | sendOnly host port request =>
    obtain ⟨-, e, hg⟩ := getOrCreate_of_staleRefused (show p.StaleRefused host port o from hi)
    simp only [TcpProxy.call, sendOnly, hg]
    exact hlost hi rfl
  | closeConnection | closeAll => exact absurd hi id

end TcpProxy

/-- Of any calls on a new pool, one after another: after each of them the gauge is right, exactly if none
of them meets a stale connection and cannot connect anew. -/
theorem gauge_iff (c : Codec) (calls : List (Call × Outcomes)) :
    Machine.Along (TcpProxy.call c) (fun p i => (p.call c i).2.GaugeRight) TcpProxy.new calls ↔
      Machine.Along (TcpProxy.call c) (fun p i => ¬p.MeetsStaleRefused i) TcpProxy.new calls := by
  have hnew : TcpProxy.new.Balanced := by
    show TransportMetrics.Counts _ (HashMap.size ∅)
    rw [HashMap.size_empty]
    exact .new
  refine Machine.along_iff_of_invariant (I := TcpProxy.Balanced) (fun p i hp hi => hp.call hi) ?_ hnew
  intro p i hp
  constructor
  · rintro hgauge hi
    exact hp.not_gaugeRight hi hgauge
  · exact fun hi => (hp.call hi).gaugeRight

/-- A send connects; more than 300 seconds later two sends find the connection stale and are refused. -/
def staleRefusedCalls : List (Call × Outcomes) :=
  [(.sendOnly "127.0.0.1" 50000 {}, {}),
    (.sendOnly "127.0.0.1" 50000 {}, { now := 301 * 10 ^ 9, connect := .refused "Connection refused (os error 111)" }),
    (.sendOnly "127.0.0.1" 50000 {}, { now := 302 * 10 ^ 9, connect := .refused "Connection refused (os error 111)" })]

/-- One connection pooled, and the gauge at zero, then at the largest number. -/
theorem staleRefusedCalls_gauge :
    let once := Machine.after (TcpProxy.call .protobuf) TcpProxy.new (staleRefusedCalls.take 2)
    let twice := Machine.after (TcpProxy.call .protobuf) TcpProxy.new staleRefusedCalls
    (once.connectionCount = 1 ∧ once.metrics.activeConnections = 0) ∧ twice.connectionCount = 1 ∧
      twice.metrics.activeConnections = 18446744073709551615 ∧ ¬twice.GaugeRight := by
  refine ⟨⟨rfl, rfl⟩, rfl, rfl, ?_⟩
  rintro ⟨-, -, hnever⟩
  exact absurd hnever (by decide)

end Zht.Tcp
