/-
The server's connection and byte counters over whole runs. A connection counts as active from its
accept to the end of its handler's loop; a handler that fails before the loop is never counted as
closed. The bytes of a frame are counted as received when the frame has been read, and as sent before
its sending is tried (`serving_metrics`).
-/
import Mathlib.Algebra.Order.BigOperators.Group.List
import Zht.Server.Serving

namespace Zht

open Lib

/-! ## Sums over the connections -/

/-- What `encoded_len` says of the frame of a message. -/
def frameLen (c : Codec) (z : ZPack) : Nat := 4 + c.encodedLen z

namespace Client

variable (c : Codec) (client : Client)

/-- It is counted as active. -/
def active : Bool := client.phase ≠ .closed

/-- The bytes of the requests that were read. -/
def received : Nat :=
  (client.done.map fun d => frameLen c d.input).sum +
    match client.phase with
    | .processing _ request => frameLen c request
    | _ => 0

/-- The bytes of the answers that were to be sent. -/
def sent : Nat := (client.done.map fun d => frameLen c d.output).sum

end Client

structure Counted (c : Codec) (s : Serving) : Prop where
  total : s.metrics.connectionsTotal = UInt64.ofNat s.clients.length
  accepted : s.metrics.connectionsAccepted = UInt64.ofNat s.clients.length
  rejected : s.metrics.connectionsRejected = 0
  active : s.metrics.connectionsActive = UInt64.ofNat (s.clients.map fun client => client.active.toNat).sum
  received : s.metrics.bytesReceived = UInt64.ofNat (s.clients.map (Client.received c)).sum
  sent : s.metrics.bytesSent = UInt64.ofNat (s.clients.map (Client.sent c)).sum

namespace Counted

variable {c : Codec} {s : Serving} {k : Nat} {client client' : Client}

theorem of_eq (h : Counted c s) (calls : WorkerCalls) (cancelled listening : Bool) :
    Counted c { s with calls, cancelled, listening } :=
  ⟨h.total, h.accepted, h.rejected, h.active, h.received, h.sent⟩

theorem accept (h : Counted c s) :
    Counted c { s with metrics := s.metrics.recordConnectionAccepted, clients := s.clients ++ [.new] } where
  total := by
    rw [List.length_append, UInt64.ofNat_add, ← h.total]
    rfl
  accepted := by
    rw [List.length_append, UInt64.ofNat_add, ← h.accepted]
    rfl
  rejected := h.rejected
  active := by
    rw [List.map_append, List.sum_append, UInt64.ofNat_add, ← h.active]
    rfl
  received := by
    rw [List.map_append, List.sum_append, UInt64.ofNat_add, ← h.received]
    exact (UInt64.add_zero _).symm
  sent := by
    rw [List.map_append, List.sum_append, UInt64.ofNat_add, ← h.sent]
    exact (UInt64.add_zero _).symm

/-- A connection changes, and the counters by as much. -/
theorem set (h : Counted c s) (hk : s.clients[k]? = some client) (calls : WorkerCalls) {m n : Nat}
    (hactive : client'.active = client.active) (hreceived : client'.received c = client.received c + m)
    (hsent : client'.sent c = client.sent c + n) :
    Counted c ({ s with
      calls
      metrics := { s.metrics with
        bytesReceived := s.metrics.bytesReceived + UInt64.ofNat m
        bytesSent := s.metrics.bytesSent + UInt64.ofNat n } }.setClient k client') where
  total := by simpa [Serving.setClient] using h.total
  accepted := by simpa [Serving.setClient] using h.accepted
  rejected := h.rejected
  active := by
    obtain ⟨rest, hbefore, hafter⟩ := exists_sum_map_set hk client' fun client => client.active.toNat
    rw [Serving.setClient, hafter, hactive, ← hbefore]
    exact h.active
  received := by
    obtain ⟨rest, hbefore, hafter⟩ := exists_sum_map_set hk client' (Client.received c)
    rw [Serving.setClient, hafter, hreceived, ← Nat.add_assoc, ← hbefore, UInt64.ofNat_add, ← h.received]
  sent := by
    obtain ⟨rest, hbefore, hafter⟩ := exists_sum_map_set hk client' (Client.sent c)
    rw [Serving.setClient, hafter, hsent, ← Nat.add_assoc, ← hbefore, UInt64.ofNat_add, ← h.sent]

theorem add_ofNat_zero (n : UInt64) : n + UInt64.ofNat 0 = n := UInt64.add_zero n

theorem receive (h : Counted c s) (hk : s.clients[k]? = some client) (calls : WorkerCalls) {m : Nat}
    (hactive : client'.active = client.active) (hreceived : client'.received c = client.received c + m)
    (hsent : client'.sent c = client.sent c) :
    Counted c ({ s with calls, metrics := s.metrics.recordBytesReceived m }.setClient k client') := by
  have hset := h.set (n := 0) hk calls hactive hreceived hsent
  simp only [add_ofNat_zero] at hset
  exact hset

theorem send (h : Counted c s) (hk : s.clients[k]? = some client) (calls : WorkerCalls) {n : Nat}
    (hactive : client'.active = client.active) (hreceived : client'.received c = client.received c)
    (hsent : client'.sent c = client.sent c + n) :
    Counted c ({ s with calls, metrics := s.metrics.recordBytesSent n }.setClient k client') := by
  have hset := h.set (m := 0) hk calls hactive hreceived hsent
  simp only [add_ofNat_zero] at hset
  exact hset

theorem quiet (h : Counted c s) (hk : s.clients[k]? = some client) (hactive : client'.active = client.active)
    (hreceived : client'.received c = client.received c) (hsent : client'.sent c = client.sent c) :
    Counted c (s.setClient k client') := by
  have hset := h.set (m := 0) (n := 0) hk s.calls hactive hreceived hsent
  simp only [add_ofNat_zero] at hset
  exact hset

theorem close (h : Counted c s) (hk : s.clients[k]? = some client) (hactive : client.active = true)
    (hreceived : client'.received c = client.received c) (hsent : client'.sent c = client.sent c)
    (hclosed : client'.active = false) :
    Counted c ({ s with metrics := s.metrics.recordConnectionClosed }.setClient k client') where
  total := by
    rw [Serving.setClient, List.length_set]
    exact h.total
  accepted := by
    rw [Serving.setClient, List.length_set]
    exact h.accepted
  rejected := h.rejected
  active := by
    obtain ⟨rest, hbefore, hafter⟩ := exists_sum_map_set hk client' fun client => client.active.toNat
    rw [hactive] at hbefore
    rw [hclosed] at hafter
    show s.metrics.connectionsActive - 1 = _
    rw [h.active, Serving.setClient, hafter, hbefore, UInt64.ofNat_add]
    exact UInt64.add_sub_cancel _ _
  received := by
    obtain ⟨rest, hbefore, hafter⟩ := exists_sum_map_set hk client' (Client.received c)
    rw [Serving.setClient, hafter, hreceived, ← hbefore]
    exact h.received
  sent := by
    obtain ⟨rest, hbefore, hafter⟩ := exists_sum_map_set hk client' (Client.sent c)
    rw [Serving.setClient, hafter, hsent, ← hbefore]
    exact h.sent

/-- Whatever a connection does next, the counters follow. -/
theorem clientTurn (h : Counted c s) (hk : s.clients[k]? = some client) (turn : ClientTurn) :
    Counted c (s.clientTurn c k client turn).2 := by
  obtain ⟨stream, arrived, hungUp, phase, done, written⟩ := client
  cases turn with
  | nodelay ok =>
    cases phase with
    | spawned => cases ok <;> exact h.quiet hk rfl rfl rfl
    | reading | processing | responding | closed | failed => exact h
  | arrive bytes => exact h.quiet hk rfl rfl rfl
  | hangUp => exact h.quiet hk rfl rfl rfl
  | read =>
    cases phase with
    | reading =>
      simp only [Serving.clientTurn, Serving.read]
      split
      · next request rest hread =>
        exact h.receive hk _ rfl rfl rfl
      · exact h.close hk rfl rfl rfl rfl
      · split
        · exact h.close hk rfl rfl rfl rfl
        · exact h
    | spawned | processing | responding | closed | failed => exact h
  | run now =>
    cases phase with
    | processing call request =>
      simp only [Serving.clientTurn, Serving.run]
      split
      · exact h.of_eq _ _ _
      · next response hreturned =>
        refine h.send hk _ rfl ?_ ?_
        · simp [Client.received]
        · simp [Client.sent, frameLen]
    | spawned | reading | responding | closed | failed => exact h
  | send sent =>
    cases phase with
    | responding response =>
      cases sent with
      | none => exact h.quiet hk rfl rfl rfl
      | some n => exact h.close hk rfl rfl rfl rfl
    | spawned | reading | processing | closed | failed => exact h

theorem step (h : Counted c s) (turn : ServerTurn) : Counted c (s.step c turn).2 := by
  cases turn with
  | accept =>
    simp only [Serving.step]
    split
    · exact h.accept
    · exact h
  | acceptFails | cancel => exact h.of_eq _ _ _
  | stop =>
    simp only [Serving.step]
    split
    · exact h.of_eq _ _ _
    · exact h
  | client k turn =>
    simp only [Serving.step]
    split
    · next client hk => exact h.clientTurn hk turn
    · exact h

end Counted

/-! ## The counters of a run -/

theorem length_answerFrames (c : Codec) (client : Client) : (answerFrames c client.done).length = client.sent c := by
  rw [answerFrames, List.length_flatMap, Client.sent]
  simp only [length_encodeMessage, frameLen]

/-- In every run of a new server: all accepted connections are counted, and as active those that are not
closed, whether or not they still have a handler; the bytes received are those of the frames read, and
the bytes sent those of all answers, which are no fewer than were written. -/
theorem serving_metrics (c : Codec) (now : Nat) (store : NoVoHT) (selfHost : HostEntity)
    (initialMembers : List HostEntity) (numReplicas replicationType : UInt32) (migrationEnabled : Bool)
    (turns : List ServerTurn) :
    let server := ZHTServer.newWithStore now store selfHost initialMembers numReplicas replicationType migrationEnabled
    let s := Machine.after (Serving.step c) (.new server) turns
    Counted c s ∧ (s.clients.map fun client => client.written.length).sum ≤ (s.clients.map (Client.sent c)).sum := by
  intro server s
  constructor
  · exact Machine.after_of_step (I := Counted c) (fun s turn h => h.step turn)
      ⟨rfl, rfl, rfl, rfl, rfl, rfl⟩ turns
  · refine List.sum_le_sum fun client hmem => ?_
    have hwrote := ((Serving.sound c server turns).served client hmem).wrote
    rw [← length_answerFrames]
    exact hwrote.prefixes.1.length_le

end Zht
