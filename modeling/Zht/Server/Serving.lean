/-
`ZHTServer::start` and the connections it serves. The accept loop spawns a handler for each connection;
the handlers take frames off what has arrived, run `process` on the shared worker, section by section
and side by side, and write the answers back. A run of the server is a run of the worker's calls, so it
is linearizable, and what the bytes of each client decode to is answered to that client, in order
(`serving_linearizable`).
-/
import Zht.Server.Server
import Zht.Transport.ConcurrentMetrics
import Zht.Transport.FrameStream

namespace Zht

open Lib Lib.Linearizable Lib.Delimited

/-! ## The server and its connections -/

/-- Where `handle_connection_with_metrics` stands. -/
inductive HandlerPhase
  | spawned
  | reading
  | processing (call : Nat) (request : ZPack)
  | responding (response : ZPack)
  | closed
  /-- It failed before its loop, and its connection is not counted as closed. -/
  | failed
  deriving DecidableEq, Repr

/-- A connection: all that its client has sent, the part of it that the handler has not read, the calls
of the handler that have returned, and what was written back. -/
structure Client where
  stream : Bytes := []
  arrived : Bytes := []
  hungUp : Bool := false
  phase : HandlerPhase := .spawned
  done : List (Done ZPack ZPack) := []
  written : Bytes := []
  deriving DecidableEq, Repr

def Client.new : Client := {}

structure Serving where
  calls : WorkerCalls
  metrics : ServerMetrics
  cancelled : Bool
  listening : Bool
  clients : List Client

inductive ClientTurn
  /-- `set_nodelay` succeeds or fails. -/
  | nodelay (ok : Bool)
  | arrive (bytes : Bytes)
  | hangUp
  | read
  | run (now : Nat)
  /-- The answer goes out, or only its first bytes do. -/
  | send (written : Option Nat)
  deriving DecidableEq, Repr

inductive ServerTurn
  | accept
  | acceptFails
  | cancel
  /-- The accept loop sees that it is cancelled. -/
  | stop
  | client (k : Nat) (turn : ClientTurn)
  deriving DecidableEq, Repr

namespace Serving

def new (server : ZHTServer) : Serving :=
  { calls := .new server.worker, metrics := server.metrics, cancelled := false, listening := true, clients := [] }

def setClient (s : Serving) (k : Nat) (client : Client) : Serving := { s with clients := s.clients.set k client }

/-- A handler leaves its loop. -/
def close (s : Serving) (k : Nat) (client : Client) : Serving :=
  { s with metrics := s.metrics.recordConnectionClosed }.setClient k { client with phase := .closed }

section Handler

variable (c : Codec) (s : Serving) (k : Nat) (client : Client)

/-- `recv_message`, and the start of `process` on what it gives. -/
def read : List (CallEvent ZPack ZPack) × Serving :=
  match decodeMessage c client.arrived with
  | .ok (request, rest) =>
    let called := s.calls.step (.call request)
    (called.1,
      { s with
        calls := called.2
        metrics := s.metrics.recordBytesReceived (4 + c.encodedLen request) }.setClient k
        { client with arrived := rest, phase := .processing s.calls.calls.length request })
  | .error (.protobufDecodeError _) => ([], s.close k client)
  -- the frame is not all there: the read waits, or meets the end of the stream
  | .error _ => ([], if client.hungUp then s.close k client else s)

/-- The next section of the handler's call of `process`. -/
def run (now call : Nat) (request : ZPack) : List (CallEvent ZPack ZPack) × Serving :=
  let turned := s.calls.step (.run call now)
  match turned.2.calls[call]?.bind (·.phase.response) with
  | none => (turned.1, { s with calls := turned.2 })
  | some response =>
    (turned.1,
      { s with
        calls := turned.2
        metrics := s.metrics.recordBytesSent (4 + c.encodedLen response) }.setClient k
        { client with phase := .responding response, done := client.done ++ [Done.mk call request response] })

def send (response : ZPack) (written : Option Nat) : Serving :=
  let frame := encodeMessage c response
  match written with
  | none => s.setClient k { client with phase := .reading, written := client.written ++ frame }
  | some n => s.close k { client with written := client.written ++ frame.take n }

/-- A turn of a connection; one that is not possible where it comes changes nothing. -/
def clientTurn (turn : ClientTurn) : List (CallEvent ZPack ZPack) × Serving :=
  match turn, client.phase with
  | .nodelay ok, .spawned => ([], s.setClient k { client with phase := if ok then .reading else .failed })
  | .arrive bytes, _ =>
    ([], s.setClient k { client with stream := client.stream ++ bytes, arrived := client.arrived ++ bytes })
  | .hangUp, _ => ([], s.setClient k { client with hungUp := true })
  | .read, .reading => s.read c k client
  | .run now, .processing call request => s.run c k client now call request
  | .send written, .responding response => ([], s.send c k client response written)
  | _, _ => ([], s)

end Handler

variable (c : Codec)

def step (s : Serving) : ServerTurn → List (CallEvent ZPack ZPack) × Serving
  | .accept =>
    if s.listening then
      ([], { s with metrics := s.metrics.recordConnectionAccepted, clients := s.clients ++ [.new] })
    else ([], s)
  | .acceptFails => ([], { s with listening := false })
  | .cancel => ([], { s with cancelled := true })
  | .stop => ([], if s.cancelled then { s with listening := false } else s)
  | .client k turn =>
    match s.clients[k]? with
    | some client => s.clientTurn c k client turn
    | none => ([], s)

/-- The invocations and answers of the worker in a run of the server. -/
def history (server : ZHTServer) (turns : List ServerTurn) : List (CallEvent ZPack ZPack) :=
  (Machine.outputs (step c) (new server) turns).flatten

end Serving

/-! ## What is known of a connection -/

/-- The frames of the answers to some calls. -/
def answerFrames (c : Codec) (done : List (Done ZPack ZPack)) : Bytes := done.flatMap fun d => encodeMessage c d.output

/-- What was written on a connection. -/
def Client.Wrote (c : Codec) (client : Client) : Prop :=
  match client.phase with
  | .responding response =>
    ∃ before d, client.done = before ++ [d] ∧ d.output = response ∧ client.written = answerFrames c before
  | .closed => client.written <+: answerFrames c client.done ∧ answerFrames c client.done.dropLast <+: client.written
  | _ => client.written = answerFrames c client.done

/-- What the bytes of a connection decode to, up to what its handler has read. -/
def Client.Decodes (c : Codec) (client : Client) : Prop :=
  ∃ left, decodeMessages c client.done.length client.stream = .ok (client.done.map Done.input, left) ∧
    match client.phase with
    | .processing _ request => decodeMessage c left = .ok (request, client.arrived)
    | _ => left = client.arrived

/-- The calls a handler has made. -/
def Client.made (client : Client) : List Nat :=
  match client.phase with
  | .processing call _ => client.done.map Done.call ++ [call]
  | _ => client.done.map Done.call

structure ClientSound (c : Codec) (p : WorkerCalls) (history : List (CallEvent ZPack ZPack)) (client : Client) : Prop where
  returned : ∀ d ∈ client.done, p.calls[d.call]? = some ⟨d.input, .returned d.output⟩
  current : ∀ call request, client.phase = .processing call request → ∃ phase, p.calls[call]? = some ⟨request, phase⟩
  ascending : client.made.Pairwise (· < ·)
  chained : client.made.Pairwise (Precedes history)
  decodes : client.Decodes c
  wrote : client.Wrote c

/-- The server's calls are a run of the worker, each connection has what its handler's calls gave it, and
no call was made for two of them. -/
structure ServingSound (c : Codec) (w : HTWorker) (calls : WorkerCalls) (history : List (CallEvent ZPack ZPack))
    (clients : List Client) : Prop where
  runs : ∃ turns, calls = Machine.after WorkerCalls.step (.new w) turns ∧ history = WorkerCalls.history w turns
  served : ∀ client ∈ clients, ClientSound c calls history client
  apart : ∀ (j k : Nat) (a b : Client) (i : Nat), clients[j]? = some a → clients[k]? = some b →
    i ∈ a.made → i ∈ b.made → j = k

section Step

variable {c : Codec} {w : HTWorker} {calls : WorkerCalls} {history : List (CallEvent ZPack ZPack)}
  {clients : List Client} {client client' : Client} {k : Nat}

theorem ClientSound.made_lt (h : ClientSound c calls history client) {i : Nat} (hi : i ∈ client.made) : i < calls.calls.length := by
  have hdone : ∀ i ∈ client.done.map Done.call, i < calls.calls.length := by
    intro i hi
    obtain ⟨d, hd, rfl⟩ := List.mem_map.1 hi
    exact (List.getElem?_eq_some_iff.1 (h.returned d hd)).1
  unfold Client.made at hi
  split at hi
  · next call request hphase =>
    rcases List.mem_append.1 hi with hi | hi
    · exact hdone i hi
    · obtain ⟨phase, hget⟩ := h.current call request hphase
      rw [List.mem_singleton.1 hi]
      exact (List.getElem?_eq_some_iff.1 hget).1
  · exact hdone i hi

/-- A connection stands as it does whatever section of a call is run. -/
theorem ClientSound.turn (h : ClientSound c calls history client) (turn : Turn) :
    ClientSound c (calls.step turn).2 (history ++ (calls.step turn).1) client where
  returned d hd := by
    obtain ⟨next, hget, hkept⟩ := WorkerCalls.step_kept (h.returned d hd) turn
    rw [hget, hkept _ rfl]
  current call request hphase := by
    obtain ⟨phase, hget⟩ := h.current call request hphase
    obtain ⟨next, hnext, -⟩ := WorkerCalls.step_kept hget turn
    exact ⟨next, hnext⟩
  ascending := h.ascending
  chained := h.chained.imp fun hp => hp.append _
  decodes := h.decodes
  wrote := h.wrote

namespace ServingSound

theorem turn (h : ServingSound c w calls history clients) (turn : Turn) :
    ServingSound c w (calls.step turn).2 (history ++ (calls.step turn).1) clients where
  runs := by
    obtain ⟨turns, rfl, rfl⟩ := h.runs
    refine ⟨turns ++ [turn], by rw [Machine.after_append]; rfl, ?_⟩
    rw [WorkerCalls.history, WorkerCalls.history, Machine.outputs_append, List.flatten_append]
    simp
  served client hmem := (h.served client hmem).turn turn
  apart := h.apart

/-- One connection changes; it makes no call of another one. -/
theorem set (h : ServingSound c w calls history clients) (hk : clients[k]? = some client)
    (hserved : ClientSound c calls history client')
    (hmade : ∀ i ∈ client'.made, i ∈ client.made ∨ ∀ b ∈ clients, i ∉ b.made) :
    ServingSound c w calls history (clients.set k client') where
  runs := h.runs
  served other hmem := by
    rcases List.mem_or_eq_of_mem_set hmem with hmem | rfl
    · exact h.served other hmem
    · exact hserved
  apart i j a b n ha hb hna hnb := by
    -- at the changed place stands what was there before, or a call nobody else has
    have hold : ∀ {i : Nat} {a : Client}, (clients.set k client')[i]? = some a → n ∈ a.made →
        (∃ b, clients[i]? = some b ∧ n ∈ b.made) ∨ (i = k ∧ ∀ b ∈ clients, n ∉ b.made) := by
      intro i a ha hna
      rw [List.getElem?_set] at ha
      split at ha
      · next heq =>
        subst heq
        obtain ⟨-, rfl⟩ : k < clients.length ∧ client' = a := by simpa using ha
        rcases hmade n hna with hmem | hfresh
        · exact .inl ⟨client, hk, hmem⟩
        · exact .inr ⟨rfl, hfresh⟩
      · exact .inl ⟨a, ha, hna⟩
    rcases hold ha hna with ⟨a', ha', hna'⟩ | ⟨rfl, hfresh⟩
    · rcases hold hb hnb with ⟨b', hb', hnb'⟩ | ⟨-, hfresh⟩
      · exact h.apart i j a' b' n ha' hb' hna' hnb'
      · exact absurd hna' (hfresh a' (List.mem_of_getElem? ha'))
    · rcases hold hb hnb with ⟨b', hb', hnb'⟩ | ⟨rfl, -⟩
      · exact absurd hnb' (hfresh b' (List.mem_of_getElem? hb'))
      · rfl

theorem accept (h : ServingSound c w calls history clients) : ServingSound c w calls history (clients ++ [.new]) where
  runs := h.runs
  served other hmem := by
    rcases List.mem_append.1 hmem with hmem | hmem
    · exact h.served other hmem
    · rw [List.mem_singleton.1 hmem]
      exact ⟨by simp [Client.new], by simp [Client.new], List.Pairwise.nil, List.Pairwise.nil, ⟨[], rfl, rfl⟩, rfl⟩
  apart i j a b n ha hb hna hnb := by
    have hold : ∀ {i : Nat} {a : Client}, (clients ++ [.new])[i]? = some a → n ∈ a.made → clients[i]? = some a := by
      intro i a ha hna
      rw [List.getElem?_append] at ha
      split at ha
      · exact ha
      · obtain ⟨-, rfl⟩ : i - clients.length = 0 ∧ Client.new = a := by simpa [List.getElem?_singleton] using ha
        simp [Client.made, Client.new] at hna
    exact h.apart i j a b n (hold ha hna) (hold hb hnb) hna hnb

end ServingSound

/-! ## A turn of a connection -/

theorem answerFrames_append (c : Codec) (done more : List (Done ZPack ZPack)) :
    answerFrames c (done ++ more) = answerFrames c done ++ answerFrames c more :=
  List.flatMap_append

theorem answerFrames_dropLast (c : Codec) (done : List (Done ZPack ZPack)) :
    answerFrames c done.dropLast <+: answerFrames c done := by
  obtain ⟨last, hlast⟩ := List.dropLast_prefix done
  refine ⟨answerFrames c last, ?_⟩
  rw [← answerFrames_append, hlast]

namespace ClientSound

variable {stream arrived written : Bytes} {hungUp : Bool} {phase : HandlerPhase} {done : List (Done ZPack ZPack)}

theorem nodelay (h : ClientSound c calls history ⟨stream, arrived, hungUp, .spawned, done, written⟩) (ok : Bool) :
    ClientSound c calls history ⟨stream, arrived, hungUp, if ok then .reading else .failed, done, written⟩ := by
  cases ok <;> exact ⟨h.returned, by simp, h.ascending, h.chained, h.decodes, h.wrote⟩

theorem arrive (h : ClientSound c calls history ⟨stream, arrived, hungUp, phase, done, written⟩) (bytes : Bytes) :
    ClientSound c calls history ⟨stream ++ bytes, arrived ++ bytes, hungUp, phase, done, written⟩ where
  returned := h.returned
  current := h.current
  ascending := h.ascending
  chained := h.chained
  decodes := by
    obtain ⟨left, hdone, hleft⟩ := h.decodes
    refine ⟨left ++ bytes, decodeMany_append (fun _ _ _ more h => decodeMessage_append c h more) hdone bytes, ?_⟩
    cases phase with
    | processing call request => exact decodeMessage_append c hleft bytes
    | spawned | reading | responding | closed | failed => exact congrArg (· ++ bytes) hleft
  wrote := h.wrote

theorem close (h : ClientSound c calls history ⟨stream, arrived, hungUp, .reading, done, written⟩) :
    ClientSound c calls history ⟨stream, arrived, hungUp, .closed, done, written⟩ where
  returned := h.returned
  current := by simp
  ascending := h.ascending
  chained := h.chained
  decodes := h.decodes
  wrote := by
    have hwritten : written = answerFrames c done := h.wrote
    subst hwritten
    exact ⟨List.prefix_refl _, answerFrames_dropLast c done⟩

/-- A frame is read, and the worker called. -/
theorem call (h : ClientSound c calls history ⟨stream, arrived, hungUp, .reading, done, written⟩)
    (hruns : ∃ turns, calls = Machine.after WorkerCalls.step (.new w) turns ∧ history = WorkerCalls.history w turns)
    {request : ZPack} {rest : Bytes} (hread : decodeMessage c arrived = .ok (request, rest)) :
    ClientSound c (calls.step (.call request)).2 (history ++ (calls.step (.call request)).1)
      ⟨stream, rest, hungUp, .processing calls.calls.length request, done, written⟩ := by
  have hturn := h.turn (.call request)
  have hmade : ∀ i ∈ done.map Done.call, i < calls.calls.length := fun i hi => h.made_lt hi
  refine ⟨hturn.returned, ?_, ?_, ?_, ?_, hturn.wrote⟩
  · rintro call r hphase
    cases hphase
    exact ⟨.entered, by simp [WorkerCalls.step]⟩
  · refine List.pairwise_append.2 ⟨h.ascending, List.pairwise_singleton _ _, ?_⟩
    rintro i hi j hj
    rw [List.mem_singleton.1 hj]
    exact hmade i hi
  · refine List.pairwise_append.2 ⟨hturn.chained, List.pairwise_singleton _ _, ?_⟩
    rintro i hi j hj
    obtain ⟨d, hd, rfl⟩ := List.mem_map.1 hi
    rw [List.mem_singleton.1 hj]
    -- the call has returned, so its answer was seen before
    obtain ⟨turns, rfl, rfl⟩ := hruns
    exact precedes_of_answered (WorkerCalls.answer_mem_history w turns (h.returned d hd)) _ _
  · obtain ⟨left, hdone, hleft⟩ := h.decodes
    obtain rfl : left = arrived := hleft
    exact ⟨left, hdone, hread⟩

/-- The call returns. -/
theorem respond {call : Nat} {request response : ZPack}
    (h : ClientSound c calls history ⟨stream, arrived, hungUp, .processing call request, done, written⟩)
    (hreturned : calls.calls[call]?.bind (·.phase.response) = some response) :
    ClientSound c calls history
      ⟨stream, arrived, hungUp, .responding response, done ++ [⟨call, request, response⟩], written⟩ where
  returned d hd := by
    rcases List.mem_append.1 hd with hd | hd
    · exact h.returned d hd
    · rw [List.mem_singleton.1 hd]
      obtain ⟨phase, hget⟩ := h.current call request rfl
      rw [hget, Option.bind_some] at hreturned
      cases CallPhase.response_eq_some_iff.1 hreturned
      exact hget
  current := by simp
  ascending := by
    have hasc := h.ascending
    simpa [Client.made] using hasc
  chained := by
    have hchain := h.chained
    simpa [Client.made] using hchain
  decodes := by
    obtain ⟨left, hdone, hleft⟩ := h.decodes
    refine ⟨arrived, ?_, rfl⟩
    rw [List.length_append, List.map_append]
    exact decodeMany_succ hdone hleft
  wrote := ⟨done, _, rfl, rfl, h.wrote⟩

theorem send {response : ZPack}
    (h : ClientSound c calls history ⟨stream, arrived, hungUp, .responding response, done, written⟩) :
    ClientSound c calls history ⟨stream, arrived, hungUp, .reading, done, written ++ encodeMessage c response⟩ where
  returned := h.returned
  current := by simp
  ascending := h.ascending
  chained := h.chained
  decodes := h.decodes
  wrote := by
    obtain ⟨before, d, rfl, rfl, rfl⟩ := h.wrote
    show _ = answerFrames c (before ++ [d])
    simp [answerFrames]

theorem sendFails {response : ZPack}
    (h : ClientSound c calls history ⟨stream, arrived, hungUp, .responding response, done, written⟩) (n : Nat) :
    ClientSound c calls history
      ⟨stream, arrived, hungUp, .closed, done, written ++ (encodeMessage c response).take n⟩ where
  returned := h.returned
  current := by simp
  ascending := h.ascending
  chained := h.chained
  decodes := h.decodes
  wrote := by
    obtain ⟨before, d, hdone, rfl, rfl⟩ := h.wrote
    subst hdone
    refine ⟨?_, ?_⟩
    · rw [answerFrames_append]
      refine (List.prefix_append_right_inj _).2 ?_
      simpa [answerFrames] using List.take_prefix n (encodeMessage c d.output)
    · rw [List.dropLast_concat]
      exact List.prefix_append _ _

end ClientSound

/-- Whatever a connection does next, the server stands as it should. -/
theorem ServingSound.clientTurn {s : Serving} (h : ServingSound c w s.calls history s.clients)
    (hk : s.clients[k]? = some client) (turn : ClientTurn) :
    ServingSound c w (s.clientTurn c k client turn).2.calls (history ++ (s.clientTurn c k client turn).1)
      (s.clientTurn c k client turn).2.clients := by
  have hclient := h.served client (List.mem_of_getElem? hk)
  have hnil : ServingSound c w s.calls (history ++ []) s.clients := by rwa [List.append_nil]
  obtain ⟨stream, arrived, hungUp, phase, done, written⟩ := client
  -- a change that makes no call
  have hset : ∀ {client' : Client}, ClientSound c s.calls history client' →
      client'.made = Client.made ⟨stream, arrived, hungUp, phase, done, written⟩ →
      ServingSound c w s.calls (history ++ []) (s.clients.set k client') := by
    intro client' hsound hmade
    rw [List.append_nil]
    exact h.set hk hsound fun i hi => .inl (hmade ▸ hi)
  cases turn with
  | nodelay ok =>
    cases phase with
    | spawned => exact hset (hclient.nodelay ok) (by cases ok <;> rfl)
    | reading | processing | responding | closed | failed => exact hnil
  | arrive bytes => exact hset (hclient.arrive bytes) rfl
  | hangUp => exact hset ⟨hclient.returned, hclient.current, hclient.ascending, hclient.chained, hclient.decodes, hclient.wrote⟩ rfl
  | read =>
    cases phase with
    | reading =>
      simp only [Serving.clientTurn, Serving.read]
      split
      · next request rest hread =>
        refine (h.turn (.call request)).set hk (hclient.call h.runs hread) fun i hi => ?_
        rcases List.mem_append.1 hi with hi | hi
        · exact .inl hi
        · -- the new call is none of those made before
          rw [List.mem_singleton.1 hi]
          exact .inr fun b hb hmem => absurd ((h.served b hb).made_lt hmem) (Nat.lt_irrefl _)
      · exact hset hclient.close rfl
      · split
        · exact hset hclient.close rfl
        · exact hnil
    | spawned | processing | responding | closed | failed => exact hnil
  | run now =>
    cases phase with
    | processing call request =>
      simp only [Serving.clientTurn, Serving.run]
      have hturn := h.turn (.run call now)
      split
      · exact hturn
      · next response hreturned =>
        refine hturn.set hk ((hclient.turn (.run call now)).respond hreturned) fun i hi => .inl ?_
        simpa [Client.made] using hi
    | spawned | reading | responding | closed | failed => exact hnil
  | send sent =>
    cases phase with
    | responding response =>
      cases sent with
      | none => exact hset hclient.send rfl
      | some n => exact hset (hclient.sendFails n) rfl
    | spawned | reading | processing | closed | failed => exact hnil

theorem ServingSound.step {s : Serving} (h : ServingSound c w s.calls history s.clients) (turn : ServerTurn) :
    ServingSound c w (s.step c turn).2.calls (history ++ (s.step c turn).1) (s.step c turn).2.clients := by
  have hnil : ServingSound c w s.calls (history ++ []) s.clients := by rwa [List.append_nil]
  cases turn with
  | accept =>
    simp only [Serving.step]
    split
    · exact hnil.accept
    · exact hnil
  | acceptFails | cancel => exact hnil
  | stop =>
    simp only [Serving.step]
    split <;> exact hnil
  | client k turn =>
    simp only [Serving.step]
    split
    · next client hk => exact h.clientTurn hk turn
    · exact hnil

end Step

theorem Serving.sound (c : Codec) (server : ZHTServer) (turns : List ServerTurn) :
    ServingSound c server.worker (Machine.after (step c) (new server) turns).calls (history c server turns)
      (Machine.after (step c) (new server) turns).clients := by
  induction turns using List.reverseRecOn with
  | nil => exact ⟨⟨[], rfl, rfl⟩, by simp [new], by simp [new]⟩
  | append_singleton turns turn ih =>
    rw [history, Machine.outputs_append, Machine.after_append, List.flatten_append]
    simpa [history] using ih.step turn

/-! ## The server is linearizable -/

theorem Client.Wrote.prefixes {c : Codec} {client : Client} (h : client.Wrote c) :
    client.written <+: answerFrames c client.done ∧ answerFrames c client.done.dropLast <+: client.written := by
  unfold Client.Wrote at h
  split at h
  · obtain ⟨before, d, hdone, -, hwritten⟩ := h
    rw [hdone, hwritten, List.dropLast_concat, answerFrames_append]
    exact ⟨List.prefix_append _ _, List.prefix_refl _⟩
  · exact h
  · rw [h]
    exact ⟨List.prefix_refl _, answerFrames_dropLast c client.done⟩

theorem Client.done_sublist_made (client : Client) : (client.done.map Done.call).Sublist client.made := by
  unfold made
  split
  · exact List.sublist_append_left _ _
  · exact List.Sublist.refl _

/-- The calls of a connection take effect in the order in which it made them. -/
theorem ClientSound.sublist {c : Codec} {initial : NoVoHT} {p : WorkerCalls} {history : List (CallEvent ZPack ZPack)}
    {client : Client} {order : List (Done ZPack ZPack)} (h : ClientSound c p history client)
    (hexplains : Explains initial history order p) : client.done.Sublist order := by
  refine sublist_of_precedes hexplains.linearizes.realTime ?_ ?_ ?_
  · intro d hd
    exact (hexplains.known _ _ (h.returned d hd)).stands
  · have hlt := h.ascending.sublist client.done_sublist_made
    exact List.Nodup.of_map Done.call (hlt.imp Nat.ne_of_lt)
  · exact List.pairwise_map.1 (h.chained.sublist client.done_sublist_made)

/-- What each client of a running server has been written back are the answers to the requests that its
bytes decode to, in their order, but for the end of an answer whose sending failed; and all calls of all
clients together are those of a sequential run of the worker, in an order that keeps the order of each
connection and of calls that did not overlap. No call is answered to two clients. -/
theorem serving_linearizable (c : Codec) (server : ZHTServer) (turns : List ServerTurn) :
    let s := Machine.after (Serving.step c) (.new server) turns
    ∃ order, Linearizes HTWorker.process server.worker (Serving.history c server turns) order ∧
      s.calls.worker.store = (Machine.after HTWorker.process server.worker (order.map Done.input)).store ∧
      (∀ client ∈ s.clients, client.done.Sublist order ∧
        (∃ left, decodeMessages c client.done.length client.stream = .ok (client.done.map Done.input, left)) ∧
        client.written <+: answerFrames c client.done ∧
        answerFrames c client.done.dropLast <+: client.written) ∧
      s.clients.Pairwise fun a b => (a.done.map Done.call).Disjoint (b.done.map Done.call) := by
  intro s
  have h := Serving.sound c server turns
  obtain ⟨calls, hcalls, hhistory⟩ := h.runs
  obtain ⟨order, hexplains⟩ := WorkerCalls.explained server.worker calls
  rw [← hcalls, ← hhistory] at hexplains
  refine ⟨order, hexplains.linearizes_process, hexplains.store.trans (server.worker.simulates_answer _).2.symm, ?_, ?_⟩
  · intro client hmem
    have hclient := h.served client hmem
    obtain ⟨left, hdecodes, -⟩ := hclient.decodes
    exact ⟨hclient.sublist hexplains, ⟨left, hdecodes⟩, hclient.wrote.prefixes⟩
  · refine List.pairwise_iff_getElem.2 fun j k hj hk hlt i hij hik => ?_
    have hsame := h.apart j k _ _ i (List.getElem?_eq_getElem hj) (List.getElem?_eq_getElem hk)
      ((Client.done_sublist_made _).subset hij) ((Client.done_sublist_made _).subset hik)
    omega

end Zht
