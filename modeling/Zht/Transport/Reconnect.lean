/-
`TcpProxy::sendrecv` and `send_only` as the loops they are, on a network that answers every connect,
send and receive as it likes. A broken connection leaves the pool before the loop decides whether it
goes on, so an error that counts as one, or a connect that failed, is returned with no connection to
that address in the pool; the attempt after it starts from a new connection, and there are
`MAX_RECONNECT_ATTEMPTS` of those: `calls_end`. Any other error leaves its connection in the pool.
-/
import Zht.Transport.TcpProxy

namespace Zht

open Lib

namespace TcpProxy

/-! ## The network -/

/-- What a call has met: a connect to an address, a frame to be sent on a connection, or the payload
of a frame received on one. -/
inductive Event
  | connected (addr : String) (result : Except String Nat)
  | sent (conn : Nat) (frame : Bytes) (result : Except String Unit)
  | received (conn : Nat) (result : Except String Bytes)

def Event.isSend : Event → Bool
  | sent .. => true
  | connected .. | received .. => false

/-- What the next connect, send or receive comes to, after all the call has met. -/
structure Network where
  connect : List Event → String → Except String Nat
  send : List Event → Nat → Bytes → Except String Unit
  receive : List Event → Nat → Except String Bytes

/-- What the network answers after `before`. -/
def Network.Answers (net : Network) (before : List Event) : Event → Prop
  | .connected addr result => net.connect before addr = result
  | .sent k frame result => net.send before k frame = result
  | .received k result => net.receive before k = result

/-- The network answers as the events say. -/
def Network.Gives (net : Network) (events : List Event) : Prop :=
  ∀ before e after, events = before ++ e :: after → net.Answers before e

theorem Network.gives_nil (net : Network) : net.Gives [] := by
  intro before e after h
  simp at h

theorem Network.Gives.concat {net : Network} {events : List Event} {e : Event} (h : net.Gives events)
    (he : net.Answers events e) : net.Gives (events ++ [e]) := by
  intro before e' after heq
  rcases List.eq_nil_or_concat after with rfl | ⟨after, last, rfl⟩
  · obtain ⟨rfl, hlast⟩ := List.append_inj' heq rfl
    cases hlast
    exact he
  · rw [List.concat_eq_append, ← List.cons_append, ← List.append_assoc] at heq
    exact h before e' after (List.append_inj' heq rfl).1

/-- A call on its way: the pool, whose lock it holds, and what it has met. -/
structure Progress where
  pool : HashMap String ConnectionEntry
  events : List Event

namespace Progress

def met (p : Progress) (e : Event) : Progress := { p with events := p.events ++ [e] }

/-- Update the statistics of a pooled connection. -/
def count (p : Progress) (addr : String) (f : ConnectionStats → ConnectionStats) : Progress :=
  { p with
    pool := match p.pool.lookup addr with
      | some entry => p.pool.insert addr { entry with stats := f entry.stats }
      | none => p.pool }

/-- How many sends the call has made. -/
def sends (p : Progress) : Nat := p.events.countP Event.isSend

end Progress

/-! ## The loops -/

section Loops

variable (c : Codec) (net : Network) (server : HostEntity) (request : ZPack)

/-- `send_message` on a connection. -/
def sendMessage (p : Progress) (k : Nat) : ZhtResult Unit × Progress :=
  let frame := encodeMessage c request
  let result := net.send p.events k frame
  (result.mapError .sendFailed, p.met (.sent k frame result))

/-- `recv_message` on a connection. -/
def recvMessage (p : Progress) (k : Nat) : ZhtResult ZPack × Progress :=
  let result := net.receive p.events k
  let response := match result with
    | .error e => .error (.recvFailed e)
    | .ok payload => (c.decode payload).mapError .protobufDecodeError
  (response, p.met (.received k result))

/-- Establish a connection if there is none in the pool. -/
def establish (p : Progress) : ZhtResult Unit × Progress :=
  match p.pool.lookup server.address with
  | some _ => (.ok (), p)
  | none =>
    let result := net.connect p.events server.address
    let p := p.met (.connected server.address result)
    match result with
    | .error reason => (.error (.connectionFailed server.host server.port reason), p)
    | .ok k => (.ok (), { p with pool := p.pool.insert server.address { conn := k } })

/-- `conns.get_mut(&addr)`: the connection of the address. -/
def getMut (p : Progress) : ZhtResult Nat :=
  match p.pool.lookup server.address with
  | some entry => .ok entry.conn
  | none => .error (.internal "connection vanished from pool")

section Attempt

variable (attempts : Nat) (again : attempts + 1 ≤ MAX_RECONNECT_ATTEMPTS → Progress → CallResult × Progress)

/-- A failed send or receive; `again` is the next round of the loop. -/
def failed (p : Progress) (e : ZhtError) : CallResult × Progress :=
  let p := p.count server.address fun s => { s with errors := s.errors + 1 }
  if isConnectionBrokenError e then
    let p := { p with pool := p.pool.erase server.address }
    if h : MAX_RECONNECT_ATTEMPTS < attempts + 1 then (.error e, p) else again (Nat.le_of_not_lt h) p
  else (.error e, p)

/-- The round from its receive on. -/
def receiving (p : Progress) (k : Nat) : CallResult × Progress :=
  match recvMessage c net p k with
  | (.ok response, p) =>
    (.response response, p.count server.address fun s =>
      { s with messagesReceived := s.messagesReceived + 1
               bytesReceived := s.bytesReceived + UInt64.ofNat (4 + c.encodedLen response) })
  | (.error e, p) => failed server attempts again p e

/-- The round from its send on. -/
def sending (receives : Bool) (p : Progress) (k : Nat) : CallResult × Progress :=
  match sendMessage c net request p k with
  | (.ok (), p) =>
    let p := p.count server.address fun s =>
      { s with messagesSent := s.messagesSent + 1
               bytesSent := s.bytesSent + UInt64.ofNat (4 + c.encodedLen request) }
    if receives then receiving c net server attempts again p k else (.sent, p)
  | (.error e, p) => failed server attempts again p e

end Attempt

/-- The loop of `sendrecv`, and of `send_only` where `receives` is not set. -/
def callLoop (receives : Bool) (attempts : Nat) (p : Progress) : CallResult × Progress :=
  match establish net server p with
  | (.error e, p) => (.error e, p)
  | (.ok (), p) =>
    match getMut server p with
    | .error e => (.error e, p)
    | .ok k =>
      sending c net server request attempts
        (fun _ p => callLoop receives (attempts + 1) p) receives p k
termination_by MAX_RECONNECT_ATTEMPTS - attempts

end Loops

section Calls

variable (c : Codec) (net : Network) (host : String) (port : UInt16) (request : ZPack)
  (pool : HashMap String ConnectionEntry)

def sendrecv : CallResult × Progress := callLoop c net ⟨host, port⟩ request true 0 { pool, events := [] }

def sendOnly : CallResult × Progress := callLoop c net ⟨host, port⟩ request false 0 { pool, events := [] }

end Calls

/-! ## What the rounds preserve -/

namespace Progress

variable {net : Network} {p q r : Progress} {addr : String} {k m n : Nat}

/-- The pooled connection of an address. -/
def Holds (p : Progress) (addr : String) (k : Nat) : Prop := ∃ stats, p.pool.lookup addr = some ⟨k, stats⟩

/-- A call to an address has gone on from `p` to `q`, with at most `n` sends, meeting what the network
answered, and with no other address touched. -/
structure Leads (net : Network) (addr : String) (n : Nat) (p q : Progress) : Prop where
  sends : q.sends ≤ p.sends + n
  gives : net.Gives p.events → net.Gives q.events
  others : ∀ a, a ≠ addr → q.pool.lookup a = p.pool.lookup a

theorem Leads.trans (h : Leads net addr m p q) (h' : Leads net addr n q r) : Leads net addr (m + n) p r := by
  obtain ⟨hs, hg, ho⟩ := h
  obtain ⟨hs', hg', ho'⟩ := h'
  refine ⟨by omega, fun hp => hg' (hg hp), fun a ha => ?_⟩
  rw [ho' a ha, ho a ha]

theorem leads_self (net : Network) (addr : String) (p : Progress) : Leads net addr 0 p p :=
  ⟨Nat.le_refl _, id, fun _ _ => rfl⟩

theorem Leads.weaken (h : Leads net addr m p q) (hle : m ≤ n) : Leads net addr n p q :=
  { h with sends := Nat.le_trans h.sends (Nat.add_le_add_left hle _) }

theorem sends_met (p : Progress) (e : Event) : (p.met e).sends = p.sends + if e.isSend then 1 else 0 := by
  simp only [sends, met, List.countP_append, List.countP_singleton]

theorem leads_sent {frame : Bytes} {result : Except String Unit} (h : net.send p.events k frame = result) :
    Leads net addr 1 p (p.met (.sent k frame result)) :=
  ⟨Nat.le_of_eq (sends_met p _), fun hp => hp.concat h, fun _ _ => rfl⟩

theorem leads_received {result : Except String Bytes} (h : net.receive p.events k = result) :
    Leads net addr 0 p (p.met (.received k result)) :=
  ⟨Nat.le_of_eq (sends_met p _), fun hp => hp.concat h, fun _ _ => rfl⟩

theorem leads_connected {result : Except String Nat} (h : net.connect p.events addr = result) :
    Leads net addr 0 p (p.met (.connected addr result)) :=
  ⟨Nat.le_of_eq (sends_met p _), fun hp => hp.concat h, fun _ _ => rfl⟩

theorem Leads.insert (h : Leads net addr n p q) (entry : ConnectionEntry) :
    Leads net addr n p { q with pool := q.pool.insert addr entry } :=
  ⟨h.sends, h.gives, fun a ha => (Finmap.lookup_insert_of_ne _ ha).trans (h.others a ha)⟩

theorem Leads.erase (h : Leads net addr n p q) : Leads net addr n p { q with pool := q.pool.erase addr } :=
  ⟨h.sends, h.gives, fun a ha => (Finmap.lookup_erase_ne ha).trans (h.others a ha)⟩

theorem Leads.count (h : Leads net addr n p q) (f : ConnectionStats → ConnectionStats) :
    Leads net addr n p (q.count addr f) := by
  unfold Progress.count
  split
  · exact h.insert _
  · exact h

@[simp] theorem events_count (p : Progress) (addr : String) (f : ConnectionStats → ConnectionStats) :
    (p.count addr f).events = p.events := rfl

/-- Counting keeps the connection. -/
theorem Holds.count (h : p.Holds addr k) (f : ConnectionStats → ConnectionStats) : (p.count addr f).Holds addr k := by
  obtain ⟨stats, hlookup⟩ := h
  refine ⟨f stats, ?_⟩
  simp only [Progress.count, hlookup]
  exact Finmap.lookup_insert _

end Progress

open Progress

/-- The last a call has met is a complete exchange on the pooled connection. -/
def Exchanged (c : Codec) (addr : String) (request response : ZPack) (p : Progress) : Prop :=
  ∃ before k payload,
    p.events = before ++ [.sent k (encodeMessage c request) (.ok ()), .received k (.ok payload)] ∧
      c.decode payload = .ok response ∧ p.Holds addr k

/-- The last a call has met is a complete send on the pooled connection. -/
def Delivered (c : Codec) (addr : String) (request : ZPack) (k : Nat) (p : Progress) : Prop :=
  (∃ before, p.events = before ++ [.sent k (encodeMessage c request) (.ok ())]) ∧ p.Holds addr k

def IsConnectionFailed : ZhtError → Prop
  | .connectionFailed .. => True
  | _ => False

/-- How a call to an address ends that has come to `p` and makes at most `n` more sends. -/
structure Ends (c : Codec) (net : Network) (addr : String) (request : ZPack) (receives : Bool) (n : Nat)
    (p : Progress) (out : CallResult × Progress) : Prop where
  leads : p.Leads net addr n out.2
  response : ∀ z, out.1 = .response z → receives = true ∧ Exchanged c addr request z out.2
  sent : out.1 = .sent → receives = false ∧ ∃ k, Delivered c addr request k out.2
  clean : ∀ e, out.1 = .error e → isConnectionBrokenError e = true ∨ IsConnectionFailed e →
    out.2.pool.lookup addr = none

section Ends

variable {c : Codec} {net : Network} {addr : String} {request : ZPack} {receives : Bool} {m n : Nat} {p q : Progress}
  {out : CallResult × Progress}

theorem Ends.after (h : Ends c net addr request receives n q out) (hleads : p.Leads net addr m q) :
    Ends c net addr request receives (m + n) p out :=
  { h with leads := hleads.trans h.leads }

theorem Ends.weaken (h : Ends c net addr request receives m p out) (hle : m ≤ n) :
    Ends c net addr request receives n p out :=
  { h with leads := h.leads.weaken hle }

theorem ends_response {z : ZPack} (hleads : p.Leads net addr n q) (h : Exchanged c addr request z q) :
    Ends c net addr request true n p (.response z, q) where
  leads := hleads
  response := by
    rintro z ⟨⟩
    exact ⟨rfl, h⟩
  sent h := nomatch h
  clean _ h := nomatch h

theorem ends_sent {k : Nat} (hleads : p.Leads net addr n q) (h : Delivered c addr request k q) :
    Ends c net addr request false n p (.sent, q) where
  leads := hleads
  response _ h := nomatch h
  sent _ := ⟨rfl, k, h⟩
  clean _ h := nomatch h

theorem ends_error {e : ZhtError} (hleads : p.Leads net addr n q)
    (hclean : isConnectionBrokenError e = true ∨ IsConnectionFailed e → q.pool.lookup addr = none) :
    Ends c net addr request receives n p (.error e, q) where
  leads := hleads
  response _ h := nomatch h
  sent h := nomatch h
  clean := by
    rintro e ⟨⟩
    exact hclean

end Ends

section Rounds

variable {c : Codec} {net : Network} {server : HostEntity} {request : ZPack} {receives : Bool}
  {attempts n k : Nat} {again : attempts + 1 ≤ MAX_RECONNECT_ATTEMPTS → Progress → CallResult × Progress}

/-- A broken connection is out of the pool when the loop returns, and when it goes on. -/
theorem failed_ends (hagain : ∀ h q, Ends c net server.address request receives n q (again h q))
    (p : Progress) {e : ZhtError} (he : ¬IsConnectionFailed e) :
    Ends c net server.address request receives n p (failed server attempts again p e) := by
  unfold failed
  simp only
  split
  · have hself : p.Leads net server.address 0 p := leads_self net _ p
    have hleads := (hself.count fun s => { s with errors := s.errors + 1 }).erase
    split
    · exact ends_error (hleads.weaken (Nat.zero_le n)) fun _ => Finmap.lookup_erase _ _
    · exact ((hagain _ _).after hleads).weaken (Nat.le_of_eq (Nat.zero_add n))
  · next hbroken =>
    refine ends_error (((leads_self net _ p).count _).weaken (Nat.zero_le n)) ?_
    rintro (h | h)
    · exact absurd h hbroken
    · exact absurd h he

/-- What a receive comes to: a payload that decodes, or an error. -/
theorem recvMessage_cases (c : Codec) (net : Network) (p : Progress) (k : Nat) :
    (∃ payload response, net.receive p.events k = .ok payload ∧ c.decode payload = .ok response ∧
        recvMessage c net p k = (.ok response, p.met (.received k (.ok payload)))) ∨
      ∃ e result, net.receive p.events k = result ∧ ¬IsConnectionFailed e ∧
        recvMessage c net p k = (.error e, p.met (.received k result)) := by
  unfold recvMessage
  simp only
  cases net.receive p.events k with
  | error reason => exact .inr ⟨.recvFailed reason, _, rfl, not_false, rfl⟩
  | ok payload =>
    simp only
    cases hd : c.decode payload with
    | error reason => exact .inr ⟨.protobufDecodeError reason, _, rfl, not_false, rfl⟩
    | ok response => exact .inl ⟨payload, response, rfl, hd, rfl⟩

/-- What a send comes to. -/
theorem sendMessage_cases (c : Codec) (net : Network) (request : ZPack) (p : Progress) (k : Nat) :
    (net.send p.events k (encodeMessage c request) = .ok () ∧
        sendMessage c net request p k = (.ok (), p.met (.sent k (encodeMessage c request) (.ok ())))) ∨
      ∃ e, net.send p.events k (encodeMessage c request) = .error e ∧
        sendMessage c net request p k =
          (.error (.sendFailed e), p.met (.sent k (encodeMessage c request) (.error e))) := by
  unfold sendMessage
  simp only
  cases net.send p.events k (encodeMessage c request) with
  | error e => exact .inr ⟨e, rfl, rfl⟩
  | ok u => exact .inl ⟨rfl, rfl⟩

/-- A connect fails only where the pool has no connection to the address; otherwise there is one now. -/
theorem establish_cases (net : Network) (server : HostEntity) (p : Progress) :
    (∃ reason q, establish net server p = (.error (.connectionFailed server.host server.port reason), q) ∧
        p.Leads net server.address 0 q ∧ q.pool.lookup server.address = none) ∨
      ∃ k q, establish net server p = (.ok (), q) ∧ p.Leads net server.address 0 q ∧
        q.Holds server.address k := by
  unfold establish
  simp only
  cases hlookup : p.pool.lookup server.address with
  | some entry => exact .inr ⟨entry.conn, p, rfl, leads_self net _ p, entry.stats, hlookup⟩
  | none =>
    simp only
    cases hconnect : net.connect p.events server.address with
    | error reason => exact .inl ⟨reason, _, rfl, leads_connected hconnect, hlookup⟩
    | ok k => exact .inr ⟨k, _, rfl, (leads_connected hconnect).insert _, {}, Finmap.lookup_insert _⟩

theorem getMut_of_holds {p : Progress} (h : p.Holds server.address k) : getMut server p = .ok k := by
  obtain ⟨stats, hlookup⟩ := h
  simp only [getMut, hlookup]

theorem receiving_ends (hagain : ∀ h q, Ends c net server.address request true n q (again h q))
    {p : Progress} (hp : Delivered c server.address request k p) :
    Ends c net server.address request true n p (receiving c net server attempts again p k) := by
  unfold receiving
  obtain ⟨⟨before, hbefore⟩, hk⟩ := hp
  rcases recvMessage_cases c net p k with ⟨payload, response, hanswer, hdecode, hr⟩ | ⟨e, result, hanswer, he, hr⟩
  · rw [hr]
    simp only
    refine ends_response (((leads_received hanswer).count _).weaken (Nat.zero_le n)) ?_
    refine ⟨before, k, payload, ?_, hdecode, Holds.count (p := p.met _) hk _⟩
    simp only [events_count, met, hbefore, List.append_assoc, List.cons_append, List.nil_append]
  · rw [hr]
    exact ((failed_ends hagain _ he).after (leads_received hanswer)).weaken (Nat.le_of_eq (Nat.zero_add n))

/-- A round makes one send. -/
theorem sending_ends (hagain : ∀ h q, Ends c net server.address request receives n q (again h q))
    {p : Progress} (hk : p.Holds server.address k) :
    Ends c net server.address request receives (n + 1) p
      (sending c net server request attempts again receives p k) := by
  unfold sending
  rcases sendMessage_cases c net request p k with ⟨hanswer, hs⟩ | ⟨e, hanswer, hs⟩
  · rw [hs]
    simp only
    have hsent : p.Leads net server.address 1 (p.met (.sent k (encodeMessage c request) (.ok ()))) :=
      leads_sent hanswer
    have hleads := hsent.count
    have hdelivered : ∀ f, Delivered c server.address request k
        ((p.met (.sent k (encodeMessage c request) (.ok ()))).count server.address f) :=
      fun f => ⟨⟨p.events, rfl⟩, Holds.count (p := p.met _) hk f⟩
    cases receives with
    | true => exact ((receiving_ends hagain (hdelivered _)).after (hleads _)).weaken (Nat.le_of_eq (Nat.add_comm 1 n))
    | false =>
      rw [if_neg Bool.false_ne_true]
      exact ends_sent ((hleads _).weaken (Nat.le_add_left 1 n)) (hdelivered _)
  · rw [hs]
    have hfailed := failed_ends hagain (p.met (.sent k (encodeMessage c request) (.error e)))
      (e := .sendFailed e) not_false
    exact (hfailed.after (leads_sent hanswer)).weaken (Nat.le_of_eq (Nat.add_comm 1 n))

end Rounds

/-- From an attempt on: it and each that may follow make one send. -/
theorem callLoop_ends (c : Codec) (net : Network) (server : HostEntity) (request : ZPack) (receives : Bool)
    (attempts : Nat) (p : Progress) (h : attempts ≤ MAX_RECONNECT_ATTEMPTS) :
    Ends c net server.address request receives (MAX_RECONNECT_ATTEMPTS + 1 - attempts) p
      (callLoop c net server request receives attempts p) := by
  rw [callLoop]
  rcases establish_cases net server p with ⟨reason, q, he, hleads, hnone⟩ | ⟨k, q, he, hleads, hk⟩
  · rw [he]
    exact ends_error (hleads.weaken (Nat.zero_le _)) fun _ => hnone
  · rw [he]
    simp only [getMut_of_holds hk]
    have hagain := fun h q => callLoop_ends c net server request receives (attempts + 1) q h
    have hround := @sending_ends c net server request receives attempts _ _ _ hagain q hk
    exact (hround.after hleads).weaken (by omega)
termination_by MAX_RECONNECT_ATTEMPTS - attempts

/-- `sendrecv` and `send_only` always return, whatever the network answers, and make at most
`MAX_RECONNECT_ATTEMPTS + 1` sends; what they have met is what the network answered. They return a
response, or that the frame is sent, only after a complete exchange, or send, on the connection now
pooled. After an error that counts as a broken connection, and after a failed connect, no connection to
the address is pooled. All other connections stay. -/
theorem calls_end (c : Codec) (net : Network) (host : String) (port : UInt16) (request : ZPack)
    (pool : HashMap String ConnectionEntry) :
    let addr := HostEntity.address ⟨host, port⟩
    let exchange := sendrecv c net host port request pool
    let delivery := sendOnly c net host port request pool
    exchange.2.sends ≤ MAX_RECONNECT_ATTEMPTS + 1 ∧ delivery.2.sends ≤ MAX_RECONNECT_ATTEMPTS + 1 ∧
      (net.Gives exchange.2.events ∧ net.Gives delivery.2.events) ∧
      (exchange.1 ≠ .sent ∧ ∀ z, exchange.1 = .response z → Exchanged c addr request z exchange.2) ∧
      ((∀ z, delivery.1 ≠ .response z) ∧ (delivery.1 = .sent → ∃ k, Delivered c addr request k delivery.2)) ∧
      ∀ out, out = exchange ∨ out = delivery →
        (∀ e, out.1 = .error e → isConnectionBrokenError e = true ∨ IsConnectionFailed e →
          out.2.pool.lookup addr = none) ∧
        ∀ a, a ≠ addr → out.2.pool.lookup a = pool.lookup a := by
  have hends := fun receives =>
    callLoop_ends c net ⟨host, port⟩ request receives 0 { pool, events := [] } (Nat.zero_le _)
  obtain ⟨hexchange, hresponse, hsent, hclean⟩ := hends true
  obtain ⟨hdelivery, hresponse', hsent', hclean'⟩ := hends false
  refine ⟨?_, ?_, ⟨?_, ?_⟩, ⟨?_, ?_⟩, ⟨?_, ?_⟩, ?_⟩
  · exact Nat.le_trans hexchange.sends (Nat.le_of_eq (Nat.zero_add _))
  · exact Nat.le_trans hdelivery.sends (Nat.le_of_eq (Nat.zero_add _))
  · exact hexchange.gives net.gives_nil
  · exact hdelivery.gives net.gives_nil
  · intro h
    exact absurd (hsent h).1 Bool.noConfusion
  · intro z h
    exact (hresponse z h).2
  · intro z h
    exact absurd (hresponse' z h).1 Bool.noConfusion
  · intro h
    exact (hsent' h).2
  · rintro out (rfl | rfl)
    · exact ⟨hclean, hexchange.others⟩
    · exact ⟨hclean', hdelivery.others⟩

end TcpProxy

end Zht
