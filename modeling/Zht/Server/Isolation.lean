/-
Clients that do not share keys. The worker answers a request by the value under its key alone, so
requests about other keys do not interfere with it; over the whole server, with all its calls running
side by side, each client is answered as if no other client were there (`clients_isolated`).
-/
import Zht.Server.ServingMetrics

namespace Zht

open Lib Lib.Utf8 Lib.Linearizable

/-! ## Requests that do not interfere -/

/-- The key of a request as the worker reads it. -/
def ZPack.keyText (request : ZPack) : String := fromUtf8Lossy request.key

/-- The tables hold the same under the keys. -/
def AgreeOn (keys : String → Bool) (v w : HTWorker) : Prop :=
  ∀ k, keys k = true → v.store.map.lookup k = w.store.map.lookup k

section Worker

variable {keys : String → Bool} {v w : HTWorker} {request : ZPack}

theorem AgreeOn.process (h : AgreeOn keys v w) (hkey : keys request.keyText = true) :
    (v.process request).1 = (w.process request).1 ∧ AgreeOn keys (v.process request).2 (w.process request).2 := by
  have hcommand : ∀ k ∈ (Command.ofRequest request).key, v.store.map.lookup k = w.store.map.lookup k := by
    intro k hk
    rw [Command.key_ofRequest hk]
    exact h _ hkey
  obtain ⟨hreply, hvalue⟩ := (Command.ofRequest request).run_local hcommand
  refine ⟨by rw [v.process_answer, w.process_answer, hreply], fun k hk => ?_⟩
  rw [v.process_map, w.process_map]
  by_cases hmem : (Command.ofRequest request).key = some k
  · exact hvalue k hmem
  · rw [Command.run_frame _ _ hmem, Command.run_frame _ _ hmem]
    exact h k hk

theorem AgreeOn.process_left (h : AgreeOn keys v w) (hkey : keys request.keyText = false) :
    AgreeOn keys (v.process request).2 w := by
  intro k hk
  rw [v.process_map, Command.run_frame, h k hk]
  intro hmem
  rw [Command.key_ofRequest hmem] at hk
  exact Bool.false_ne_true (hkey.symm.trans hk)

end Worker

/-- Of any requests, those about some of the keys are answered as they would be alone. -/
theorem HTWorker.log_filter_keys (keys : String → Bool) (w : HTWorker) (requests : List ZPack) :
    (Machine.log process w requests).filter (fun e => keys e.1.keyText) =
      Machine.log process w (requests.filter fun request => keys request.keyText) := by
  apply Machine.log_filter (R := AgreeOn keys) (p := fun request : ZPack => keys request.keyText)
  · intro v w request h hkey
    exact h.process hkey
  · intro v w request h hkey
    exact h.process_left hkey
  · intro k hk
    rfl

/-! ## Every call is a client's -/

/-- The calls of the worker are those its connections have made. -/
def CallsOwned (s : Serving) : Prop := ∀ i < s.calls.calls.length, ∃ client ∈ s.clients, i ∈ client.made

namespace CallsOwned

variable {c : Codec} {s : Serving} {k : Nat} {client client' : Client}

/-- A connection changes and has still made its calls, and those that are new. -/
theorem set (h : CallsOwned s) (hk : s.clients[k]? = some client) (hmade : ∀ i ∈ client.made, i ∈ client'.made)
    {calls : WorkerCalls} (hnew : ∀ i < calls.calls.length, i < s.calls.calls.length ∨ i ∈ client'.made)
    (metrics : ServerMetrics) : CallsOwned ({ s with calls, metrics }.setClient k client') := by
  have hlt := (List.getElem?_eq_some_iff.1 hk).1
  intro i hi
  rcases hnew i hi with hold | hmem
  · obtain ⟨other, hother, hmem⟩ := h i hold
    obtain ⟨j, hj⟩ := List.mem_iff_getElem?.1 hother
    by_cases hjk : k = j
    · subst hjk
      obtain rfl := Option.some.inj (hk.symm.trans hj)
      exact ⟨client', List.mem_set hlt client', hmade i hmem⟩
    · exact ⟨other, List.mem_of_getElem? ((List.getElem?_set_ne hjk).trans hj), hmem⟩
  · exact ⟨client', List.mem_set hlt client', hmem⟩

theorem clientTurn (h : CallsOwned s) (hk : s.clients[k]? = some client) (turn : ClientTurn) :
    CallsOwned (s.clientTurn c k client turn).2 := by
  obtain ⟨stream, arrived, hungUp, phase, done, written⟩ := client
  -- a change that makes no call
  have hquiet : ∀ {client' : Client} (metrics : ServerMetrics),
      client'.made = Client.made ⟨stream, arrived, hungUp, phase, done, written⟩ →
      CallsOwned ({ s with metrics }.setClient k client') := by
    intro client' metrics hmade
    exact h.set hk (fun i hi => hmade ▸ hi) (fun i hi => .inl hi) metrics
  cases turn with
  | nodelay ok =>
    cases phase with
    | spawned => exact hquiet s.metrics (by cases ok <;> rfl)
    | reading | processing | responding | closed | failed => exact h
  | arrive bytes => exact hquiet s.metrics rfl
  | hangUp => exact hquiet s.metrics rfl
  | read =>
    cases phase with
    | reading =>
      simp only [Serving.clientTurn, Serving.read]
      split
      · next request rest hread =>
        refine h.set hk (fun i hi => List.mem_append_left _ hi) (fun i hi => ?_) _
        simp only [WorkerCalls.step, List.length_append, List.length_singleton] at hi
        rcases Nat.lt_succ_iff_lt_or_eq.1 hi with hi | rfl
        · exact .inl hi
        · exact .inr (List.mem_append_right _ List.mem_cons_self)
      · exact hquiet _ rfl
      · split
        · exact hquiet _ rfl
        · exact h
    | spawned | processing | responding | closed | failed => exact h
  | run now =>
    cases phase with
    | processing call request =>
      simp only [Serving.clientTurn, Serving.run]
      have hlen := s.calls.length_step_run call now
      split
      · intro i hi
        exact h i (hlen ▸ hi)
      · next response hreturned =>
        refine h.set hk (fun i hi => ?_) (fun i hi => .inl (hlen ▸ hi)) _
        simpa [Client.made] using hi
    | spawned | reading | responding | closed | failed => exact h
  | send sent =>
    cases phase with
    | responding response =>
      cases sent with
      | none => exact hquiet s.metrics rfl
      | some n => exact hquiet _ rfl
    | spawned | reading | processing | closed | failed => exact h

theorem step (h : CallsOwned s) (turn : ServerTurn) : CallsOwned (s.step c turn).2 := by
  cases turn with
  | accept =>
    simp only [Serving.step]
    split
    · intro i hi
      obtain ⟨client, hmem, hmade⟩ := h i hi
      exact ⟨client, List.mem_append_left _ hmem, hmade⟩
    · exact h
  | acceptFails | cancel => exact h
  | stop =>
    simp only [Serving.step]
    split <;> exact h
  | client k turn =>
    simp only [Serving.step]
    split
    · next client hk => exact h.clientTurn hk turn
    · exact h

theorem run (c : Codec) (server : ZHTServer) (turns : List ServerTurn) :
    CallsOwned (Machine.after (Serving.step c) (.new server) turns) := by
  refine Machine.after_of_step (I := CallsOwned) (fun _ turn h => h.step turn) ?_ turns
  intro i hi
  exact absurd hi (Nat.not_lt_zero i)

end CallsOwned

/-! ## The calls of one client -/

/-- The requests a handler has called the worker with. -/
def Client.requests (client : Client) : List ZPack :=
  match client.phase with
  | .processing _ request => client.done.map Done.input ++ [request]
  | _ => client.done.map Done.input

theorem Stands.exists_mem {initial : NoVoHT} {history : List (CallEvent ZPack ZPack)} {order : List (Done ZPack ZPack)}
    {i : Nat} {request : ZPack} {phase : CallPhase} (h : Stands initial history order i request phase)
    (hi : i ∈ order.map Done.call) : ∃ response, ⟨i, request, response⟩ ∈ order := by
  cases phase with
  | failing response | returned response => exact ⟨response, h⟩
  | missed deadline => exact absurd hi h.1
  | entered | dispatched | counted | polling | asleep => exact absurd hi h

section OneClient

variable {c : Codec} {initial : NoVoHT} {p : WorkerCalls} {history : List (CallEvent ZPack ZPack)} {client : Client}
  {order : List (Done ZPack ZPack)}

theorem Explains.eq_of_call_eq (hexplains : Explains initial history order p) {d e : Done ZPack ZPack} (hd : d ∈ order)
    (he : e ∈ order) (heq : d.call = e.call) : d = e :=
  List.inj_on_of_nodup_map hexplains.linearizes.distinct hd he heq

theorem Explains.input_of_mem (hexplains : Explains initial history order p) {d : Done ZPack ZPack} (hd : d ∈ order) :
    ∃ phase, p.calls[d.call]? = some ⟨d.input, phase⟩ := by
  obtain ⟨⟨request, phase⟩, hget⟩ : ∃ call, p.calls[d.call]? = some call :=
    ⟨_, List.getElem?_eq_getElem (hexplains.numbered d hd)⟩
  obtain ⟨response, hmem⟩ := (hexplains.known _ _ hget).stands.exists_mem (List.mem_map_of_mem hd)
  rw [hexplains.eq_of_call_eq hd hmem rfl]
  exact ⟨phase, hget⟩

section Client

variable (h : ClientSound c p history client) (hexplains : Explains initial history order p)

include h hexplains

/-- A call of the client in the order is one of its requests. -/
theorem ClientSound.input_mem_requests {d : Done ZPack ZPack} (hd : d ∈ order) (hmade : d.call ∈ client.made) :
    d.input ∈ client.requests := by
  obtain ⟨phase, hget⟩ := hexplains.input_of_mem hd
  have hdone : d.call ∈ client.done.map Done.call → d.input ∈ client.done.map Done.input := by
    intro hmem
    obtain ⟨e, he, heq⟩ := List.mem_map.1 hmem
    have hreturned := h.returned e he
    rw [heq, hget] at hreturned
    exact List.mem_map.2 ⟨e, he, (WorkerCall.mk.inj (Option.some.inj hreturned)).1.symm⟩
  unfold Client.made at hmade
  unfold Client.requests
  cases hphase : client.phase with
  | processing call request =>
    simp only [hphase] at hmade ⊢
    rcases List.mem_append.1 hmade with hmem | hmem
    · exact List.mem_append_left _ (hdone hmem)
    · obtain ⟨next, hcurrent⟩ := h.current call request hphase
      rw [← List.mem_singleton.1 hmem, hget] at hcurrent
      rw [(WorkerCall.mk.inj (Option.some.inj hcurrent)).1]
      exact List.mem_append_right _ List.mem_cons_self
  | spawned | reading | responding | closed | failed =>
    simp only [hphase] at hmade ⊢
    exact hdone hmade

/-- Some calls of the client, in the order in which it made them, with all of them that are in a part of
the order, are that part. -/
theorem ClientSound.eq_filter {keys : Done ZPack ZPack → Bool} {calls : List (Done ZPack ZPack)}
    (hmade : (calls.map Done.call).Sublist client.made) (hmem : ∀ d ∈ calls, d ∈ order)
    (hkeys : ∀ d ∈ calls, keys d = true) (hall : ∀ d ∈ order, keys d = true → d ∈ calls) :
    calls = order.filter keys := by
  have hnodup : calls.Nodup := List.Nodup.of_map Done.call ((h.ascending.sublist hmade).imp Nat.ne_of_lt)
  have hsub : calls.Sublist order := sublist_of_precedes hexplains.linearizes.realTime hmem hnodup
    (List.pairwise_map.1 (h.chained.sublist hmade))
  have hfilter := hsub.filter keys
  rw [List.filter_eq_self.2 hkeys] at hfilter
  have horder : (order.filter keys).Nodup := (List.Nodup.of_map Done.call hexplains.linearizes.distinct).filter _
  refine hfilter.eq_of_length_le (List.subperm_of_subset horder ?_).length_le
  intro d hd
  exact hall d (List.mem_filter.1 hd).1 (List.mem_filter.1 hd).2

/-- The calls that returned to the client come first in any part of the order that holds its calls and
no other. -/
theorem ClientSound.done_prefix_filter {keys : Done ZPack ZPack → Bool} (hkeys : ∀ d ∈ client.done, keys d = true)
    (hall : ∀ d ∈ order, keys d = true → d.call ∈ client.made) : client.done <+: order.filter keys := by
  have hdone : ∀ d ∈ client.done, d ∈ order := fun d hd => (hexplains.known _ _ (h.returned d hd)).stands
  have hsame : ∀ d ∈ order, d.call ∈ client.done.map Done.call → d ∈ client.done := by
    intro d hd hmem
    obtain ⟨e, he, heq⟩ := List.mem_map.1 hmem
    rwa [← hexplains.eq_of_call_eq (hdone e he) hd heq]
  by_cases hcurrent : ∃ d ∈ order, keys d = true ∧ d.call ∉ client.done.map Done.call
  · -- the call that is still running has taken effect
    obtain ⟨d, hd, hkey, hnot⟩ := hcurrent
    have hmade : client.made = client.done.map Done.call ++ [d.call] := by
      have hmem := hall d hd hkey
      unfold Client.made at hmem ⊢
      split at hmem
      · rcases List.mem_append.1 hmem with hmem | hmem
        · exact absurd hmem hnot
        · rw [List.mem_singleton.1 hmem]
      · exact absurd hmem hnot
    have heq : client.done ++ [d] = order.filter keys := by
      refine h.eq_filter hexplains ?_ ?_ ?_ ?_
      · rw [hmade, List.map_append]
        exact List.Sublist.refl _
      · exact List.forall_mem_append.2 ⟨hdone, by simpa using hd⟩
      · exact List.forall_mem_append.2 ⟨hkeys, by simpa using hkey⟩
      · intro e he hekey
        have hmem := hall e he hekey
        rw [hmade] at hmem
        rcases List.mem_append.1 hmem with hmem | hmem
        · exact List.mem_append_left _ (hsame e he hmem)
        · rw [hexplains.eq_of_call_eq he hd (List.mem_singleton.1 hmem)]
          exact List.mem_append_right _ List.mem_cons_self
    exact ⟨[d], heq⟩
  · have heq : client.done = order.filter keys := by
      refine h.eq_filter hexplains client.done_sublist_made hdone hkeys ?_
      intro e he hekey
      by_contra hnot
      exact hcurrent ⟨e, he, hekey, fun hmem => hnot (hsame e he hmem)⟩
    rw [← heq]

end Client

end OneClient

/-! ## Isolation -/

/-- In every run of a server whose clients use different keys, each client is answered as by a worker
that processes its requests alone. -/
theorem clients_isolated (c : Codec) (server : ZHTServer) (turns : List ServerTurn)
    (h : (Machine.after (Serving.step c) (.new server) turns).clients.Pairwise fun a b =>
      ∀ k ∈ a.requests.map ZPack.keyText, k ∉ b.requests.map ZPack.keyText) :
    ∀ client ∈ (Machine.after (Serving.step c) (.new server) turns).clients,
      client.done.map Done.output = Machine.outputs HTWorker.process server.worker (client.done.map Done.input) := by
  intro client hclient
  have hsound := Serving.sound c server turns
  have howned := CallsOwned.run c server turns
  set s := Machine.after (Serving.step c) (.new server) turns
  obtain ⟨calls, hcalls, hhistory⟩ := hsound.runs
  obtain ⟨order, hexplains⟩ := WorkerCalls.explained server.worker calls
  rw [← hcalls, ← hhistory] at hexplains
  have hlog := HTWorker.log_filter_keys (fun k => decide (k ∈ client.requests.map ZPack.keyText)) server.worker
    (order.map Done.input)
  rw [hexplains.linearizes_process.log_eq, List.filter_map, List.filter_map] at hlog
  have hmine := hsound.served client hclient
  obtain ⟨rest, hfront⟩ : client.done <+:
      order.filter fun d => decide (d.input.keyText ∈ client.requests.map ZPack.keyText) := by
    refine hmine.done_prefix_filter hexplains ?_ ?_
    · intro d hd
      have hmem := hmine.input_mem_requests hexplains (hexplains.known _ _ (hmine.returned d hd)).stands
        (client.done_sublist_made.subset (List.mem_map_of_mem hd))
      exact decide_eq_true (List.mem_map_of_mem hmem)
    · intro d hd hkey
      obtain ⟨other, hother, hmade⟩ := howned d.call (hexplains.numbered d hd)
      by_cases heq : other = client
      · exact heq ▸ hmade
      · have hsymm : Std.Symm fun a b : Client =>
            ∀ k ∈ a.requests.map ZPack.keyText, k ∉ b.requests.map ZPack.keyText := ⟨fun _ _ hab k hb ha => hab k ha hb⟩
        have hdisjoint := h.forall hother hclient heq
        have hmem := (hsound.served other hother).input_mem_requests hexplains hd hmade
        exact absurd (of_decide_eq_true hkey) (hdisjoint _ (List.mem_map_of_mem hmem))
  have houtputs := congrArg (List.map Prod.snd) hlog
  rw [Machine.map_snd_log, List.map_map] at houtputs
  have hall : (client.done ++ rest).map Done.output =
      Machine.outputs HTWorker.process server.worker ((client.done ++ rest).map Done.input) := by
    rw [hfront]
    exact houtputs
  rw [List.map_append, List.map_append, Machine.outputs_append] at hall
  exact (List.append_inj hall (by rw [List.length_map, Machine.length_outputs, List.length_map])).1

/-- Two clients at once: one inserts under one key, its frame arriving in two pieces, while the other looks
up another key. -/
theorem clients_isolated_two :
    let insert : ZPack := { opcode := utf8Bytes OPC_INSERT, key := utf8Bytes "a", val := utf8Bytes "v" }
    let lookup : ZPack := { opcode := utf8Bytes OPC_LOOKUP, key := utf8Bytes "b" }
    let frame := encodeMessage .protobuf insert
    let server := ZHTServer.newWithStore 0 .new ⟨"n", 1⟩ [] 0 0 true
    let turns : List ServerTurn :=
      [.accept, .accept, .client 0 (.nodelay true), .client 1 (.nodelay true), .client 0 (.arrive (frame.take 3)),
        .client 0 .read, .client 1 (.arrive (encodeMessage .protobuf lookup)), .client 1 .read,
        .client 0 (.arrive (frame.drop 3)), .client 0 .read, .client 0 (.run 0), .client 1 (.run 0), .client 1 (.run 0),
        .client 0 (.run 0), .client 0 (.run 0), .client 1 (.run 0), .client 1 (.run 0), .client 0 (.send none)]
    let s := Machine.after (Serving.step .protobuf) (.new server) turns
    s.clients.map (fun client => client.done.map Done.input) = [[insert], [lookup]] ∧
      ∀ client ∈ s.clients,
        client.done.map Done.output = Machine.outputs HTWorker.process server.worker (client.done.map Done.input) := by
  intro insert lookup frame server turns s
  have hkeys : s.clients.Pairwise fun a b => ∀ k ∈ a.requests.map ZPack.keyText, k ∉ b.requests.map ZPack.keyText := by
    decide +kernel
  exact ⟨by decide +kernel, clients_isolated .protobuf server turns hkeys⟩

end Zht
