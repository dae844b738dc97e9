/-
Which answer a call returns. A connection that carries nothing when a call starts on it carries only
that call's frame and then only the answer to it, through partial writes and reads, breaks and
reconnects; so the response is the server's answer to the call's own request
(`response_belongs`). `send_only`, and a call that times out, leave an answer behind on a pooled
connection, and the next call returns it.
-/
import Zht.Transport.TcpProxy

namespace Zht

open Lib Lib.Stream

/-! ## Frames in part -/

section Frames

variable {c : Codec} {z : ZPack} {φ : Type} {f : φ} {s rest : Stream φ}

theorem bytes_of_append_eq_mark (h : s ++ rest = mark f (encodeMessage c z)) :
    s.bytes ++ rest.bytes = encodeMessage c z := by
  rw [← bytes_append, h, bytes_mark]

/-- A part of a frame that has the length the frame announces is the frame. -/
theorem eq_frame_of_length (hz : c.Fits z) (h : s ++ rest = mark f (encodeMessage c z)) {n : Nat}
    (hn : frameLength s.bytes = some n) (hle : n ≤ s.length) :
    s = mark f (encodeMessage c z) ∧ rest = [] ∧ n = s.length := by
  have hlen := frameLength_encodeMessage c hz (bytes_of_append_eq_mark h) hn
  have htotal : s.length + rest.length = (encodeMessage c z).length := by
    rw [← List.length_append, h, length_mark]
  have hrest : rest = [] := List.length_eq_zero_iff.1 (by omega)
  refine ⟨by rw [← h, hrest, List.append_nil], hrest, ?_⟩
  rw [hrest, List.length_nil] at htotal
  omega

/-- Of a part of one frame the server reads the whole frame or nothing. -/
theorem splitFrame_part (hz : c.Fits z) (h : s ++ rest = mark f (encodeMessage c z)) {frame tail : Stream φ}
    (hs : splitFrame s = some (frame, tail)) :
    frame = mark f (encodeMessage c z) ∧ tail = [] ∧ rest = [] := by
  unfold splitFrame at hs
  split at hs
  · next n hn =>
    split at hs
    · next hle =>
      obtain ⟨hall, hrest, rfl⟩ := eq_frame_of_length hz h hn hle
      simp only [List.take_length, List.drop_length, Option.some.injEq, Prod.mk.injEq] at hs
      exact ⟨hs.1.symm.trans hall, hs.2.symm, hrest⟩
    · cases hs
  · cases hs

end Frames

theorem sentPart_append (written : Option Nat) (answer : Stream Nat) :
    ∃ lost, sentPart written answer ++ lost = answer := by
  cases written with
  | none => exact ⟨[], List.append_nil answer⟩
  | some n => exact ⟨answer.drop n, List.take_append_drop n answer⟩

theorem origin_mark_encodeMessage {φ : Type} [DecidableEq φ] (f : φ) (c : Codec) (z : ZPack) :
    origin (mark f (encodeMessage c z)) = some f := by
  refine origin_of_append_eq_mark (fun h => ?_) (List.append_nil _)
  have hlen := length_mark f (encodeMessage c z)
  rw [h, length_encodeMessage, List.length_nil] at hlen
  omega

namespace TcpWorld

variable {ζ : Type} (c : Codec) (process : ζ → ZPack → ZPack × ζ)

/-! ## What is claimed, and when -/

/-- A response an action returns is the server's answer to the frame of the call that returns it. -/
def Belongs (w : TcpWorld ζ) (a : Action) : Prop :=
  ∀ ret response, (w.step c process a).1 = some ret → ret.result = .response response →
    ∃ i s number, ret.origin = some i ∧ (w.step c process a).2.served[i]? = some s ∧
      s.origin = some ⟨ret.call.id, number⟩ ∧ s.request = ret.call.request ∧ s.response = response

/-- Nothing more will be written on the connection for the client to read. -/
def Mute (conn : Connection) : Prop := conn.serving = false ∨ conn.broken = true

/-- No answer is left unread on the connection, and none is still to come. -/
structure Quiet (conn : Connection) : Prop where
  toClient : conn.toClient = []
  toServer : conn.toServer = [] ∨ Mute conn

/-- The active call is going to read its answer from the connection. -/
def Awaits (w : TcpWorld ζ) (k : Nat) : Prop :=
  ∃ call, w.active = some call ∧ call.kind.receives = true ∧ call.phase.conn = some k

/-- A call that waits for an answer starts on a quiet connection, or on a new one, and its request
and the answer are short enough for a frame. -/
def Settled (w : TcpWorld ζ) : Action → Prop
  | .start kind host port request =>
    w.active = none → kind.receives = true → c.Fits request ∧
      ∀ entry, w.pool.lookup (HostEntity.address ⟨host, port⟩) = some entry → Quiet (w.conns entry.conn)
  | .serve k _ =>
    w.Awaits k → ∀ frame rest request, splitFrame (w.conns k).toServer = some (frame, rest) →
      c.decode (frame.bytes.drop 4) = .ok request → c.Fits (process w.server request).1
  | _ => True

/-! ## The invariant -/

/-- Nothing is there to read, and what is on the connection and what is still to be written make up
the call's frame, or nothing will be there to read any more. -/
structure Unread (frame : Stream Attempt) (conn : Connection) (left : Stream Attempt) : Prop where
  silent : conn.toClient = []
  parts : conn.toServer ++ left = frame ∨ Mute conn

/-- The server has answered the call's frame, and what the call has read, what is on the connection
and what got lost make up the answer. -/
structure Answered (attempt : Attempt) (request : ZPack) (served : List Served) (conn : Connection)
    (got : Stream Nat) : Prop where
  read : conn.toServer = []
  answer : ∃ i s lost, served[i]? = some s ∧ s.origin = some attempt ∧ s.request = request ∧ c.Fits s.response ∧
    got ++ conn.toClient ++ lost = mark i (encodeMessage c s.response)

/-- The connection of a call carries only what is the call's own. -/
def Own (w : TcpWorld ζ) (call : Call) : Prop :=
  match call.phase with
  | .connecting => True
  | .sending k left =>
    Unread (frameOf c call) (w.conns k) left ∨
      (left = [] ∧ Answered c call.attempt call.request w.served (w.conns k) [])
  | .receiving k got =>
    (got = [] ∧ Unread (frameOf c call) (w.conns k) []) ∨
      Answered c call.attempt call.request w.served (w.conns k) got

/-- The invariant: a call that waits for an answer has its connection to itself, and only such a call
comes to reading. -/
structure Clean (w : TcpWorld ζ) : Prop where
  own : ∀ call, w.active = some call → call.kind.receives = true → c.Fits call.request ∧ Own c w call
  reads : ∀ call k got, w.active = some call → call.phase = .receiving k got → call.kind.receives = true

variable {c process} {w : TcpWorld ζ} {call : Call}

theorem clean_of_idle (h : w.active = none) : Clean c w := by
  constructor
  · intro call hcall
    rw [h] at hcall; cases hcall
  · intro call k got hcall
    rw [h] at hcall; cases hcall

/-- A call in a phase of its own. -/
theorem clean_setPhase {phase : Phase} (hfits : call.kind.receives = true → c.Fits call.request)
    (hown : call.kind.receives = true → Own c (w.setPhase call phase) { call with phase })
    (hreads : ∀ k got, phase = .receiving k got → call.kind.receives = true) : Clean c (w.setPhase call phase) := by
  constructor
  · intro call' hcall' hreceives
    cases hcall'
    exact ⟨hfits hreceives, hown hreceives⟩
  · intro call' k got hcall' hphase
    cases hcall'
    exact hreads k got hphase

/-! ## One lemma for each thing a connection can do -/

section Connections

variable {frame : Stream Attempt} {attempt : Attempt} {request : ZPack} {conn : Connection} {served : List Served}
  {left : Stream Attempt} {got : Stream Nat}

theorem unread_of_quiet (h : Quiet conn) : Unread frame conn frame :=
  ⟨h.toClient, h.toServer.imp (fun e => by rw [e, List.nil_append]) id⟩

theorem Unread.write (h : Unread frame conn left) (n : Nat) :
    Unread frame
      { conn with toServer := if conn.broken then conn.toServer else conn.toServer ++ left.take n } (left.drop n) := by
  obtain ⟨hsilent, hparts⟩ := h
  refine ⟨hsilent, ?_⟩
  by_cases hb : conn.broken = true
  · exact .inr (.inr hb)
  · refine hparts.imp (fun h => ?_) id
    simp only [hb, Bool.false_eq_true, ↓reduceIte]
    rw [← h, List.append_assoc, List.take_append_drop]

theorem Unread.lose (h : Unread frame conn left) (m n : Nat) :
    Unread frame
      { conn with toServer := conn.toServer.take m, toClient := conn.toClient.take n, broken := true } left :=
  ⟨by simp [h.silent], .inr (.inr rfl)⟩

theorem Answered.lose (h : Answered c attempt request served conn got) (m n : Nat) :
    Answered c attempt request served
      { conn with toServer := conn.toServer.take m, toClient := conn.toClient.take n, broken := true } got := by
  obtain ⟨hread, i, s, lost, hs, ho, hr, hf, ha⟩ := h
  refine ⟨by simp [hread], i, s, conn.toClient.drop n ++ lost, hs, ho, hr, hf, ?_⟩
  rw [← ha, List.append_assoc, ← List.append_assoc (conn.toClient.take n), List.take_append_drop, List.append_assoc]

theorem Answered.read_more (h : Answered c attempt request served conn got) (n : Nat) :
    Answered c attempt request served { conn with toClient := conn.toClient.drop n }
      (got ++ conn.toClient.take n) := by
  obtain ⟨hread, i, s, lost, hs, ho, hr, hf, ha⟩ := h
  refine ⟨hread, i, s, lost, hs, ho, hr, hf, ?_⟩
  rw [← ha, List.append_assoc got, List.take_append_drop]

/-- What other frames are answered does not matter. -/
theorem Answered.append (h : Answered c attempt request served conn got) (more : List Served) :
    Answered c attempt request (served ++ more) conn got := by
  obtain ⟨hread, i, s, lost, hs, h⟩ := h
  exact ⟨hread, i, s, lost, by rw [List.getElem?_append_left (List.getElem?_eq_some_iff.1 hs).1, hs], h⟩

end Connections

/-- A change of a connection that keeps what the call may find on it. -/
theorem Own.setConn (h : Own c w call) {k : Nat} {f : Connection → Connection}
    (hunread : ∀ left, Unread (frameOf c call) (w.conns k) left → Unread (frameOf c call) (f (w.conns k)) left)
    (hanswered : ∀ got, Answered c call.attempt call.request w.served (w.conns k) got →
      Answered c call.attempt call.request w.served (f (w.conns k)) got) :
    Own c (w.setConn k f) call := by
  unfold Own at h ⊢
  split at h
  · trivial
  · next j left _ =>
    by_cases hj : j = k
    · subst hj
      rw [setConn_same]
      exact h.imp (hunread left) fun ha => ⟨ha.1, hanswered [] ha.2⟩
    · rwa [setConn_ne w hj]
  · next j got _ =>
    by_cases hj : j = k
    · subst hj
      rw [setConn_same]
      exact h.imp (fun hu => ⟨hu.1, hunread [] hu.2⟩) (hanswered got)
    · rwa [setConn_ne w hj]

/-- What happens on other connections. -/
theorem Own.mono {w' : TcpWorld ζ} (h : Own c w call) (hconn : ∀ j, call.phase.conn = some j → w'.conns j = w.conns j)
    {more : List Served} (hserved : w'.served = w.served ++ more) : Own c w' call := by
  unfold Own at h ⊢
  split at h
  · trivial
  · next j left hphase =>
    rw [hconn j (by rw [hphase]; rfl), hserved]
    exact h.imp id fun ha => ⟨ha.1, ha.2.append more⟩
  · next j got hphase =>
    rw [hconn j (by rw [hphase]; rfl), hserved]
    exact h.imp id fun ha => ha.append more

/-! ## The server on the call's connection -/

/-- The server finds nothing more once it has answered. -/
theorem serve_answered {k : Nat} {got : Stream Nat} (h : Answered c call.attempt call.request w.served (w.conns k) got)
    (written : Option Nat) : w.serve c process k written = w := by
  unfold serve
  rw [h.read, splitFrame_nil]
  split <;> rfl

/-- Before that it finds the call's frame, or it answers into a broken connection. -/
theorem serve_unread (hfits : c.Fits call.request) {k : Nat} {left : Stream Attempt}
    (h : Unread (frameOf c call) (w.conns k) left) {written : Option Nat}
    (hanswer : ∀ frame rest request, splitFrame (w.conns k).toServer = some (frame, rest) →
      c.decode (frame.bytes.drop 4) = .ok request → c.Fits (process w.server request).1) :
    Unread (frameOf c call) ((w.serve c process k written).conns k) left ∨
      (left = [] ∧ Answered c call.attempt call.request (w.serve c process k written).served
        ((w.serve c process k written).conns k) []) := by
  unfold serve
  split
  · exact .inl h
  · next hserving =>
    split
    · exact .inl h
    · next frame rest hsplit =>
      by_cases hb : (w.conns k).broken = true
      · split
        · exact .inl ⟨by rw [setConn_same]; exact h.silent, .inr (.inr (by rw [setConn_same]; exact hb))⟩
        · refine .inl ⟨?_, .inr (.inr ?_)⟩
          · simp only [setConn_same, hb, ↓reduceIte]
            exact h.silent
          · simp only [setConn_same]
            exact hb
      · have hparts : (w.conns k).toServer ++ left = frameOf c call :=
          h.parts.resolve_right fun hm => hm.elim hserving hb
        obtain ⟨rfl, rfl, rfl⟩ := splitFrame_part hfits hparts hsplit
        have hdecode : c.decode ((mark call.attempt (encodeMessage c call.request)).bytes.drop 4) =
            .ok call.request := by
          rw [bytes_mark, drop_encodeMessage, c.decode_encode]
        rw [hdecode]
        -- the frame is answered, and nothing of the answer is read yet
        obtain ⟨lost, hlost⟩ :=
          sentPart_append written (mark w.served.length (encodeMessage c (process w.server call.request).1))
        refine .inr ⟨rfl, ?_⟩
        simp only [setConn_same, hb, Bool.false_eq_true, ↓reduceIte, h.silent, List.nil_append]
        exact ⟨rfl, w.served.length, _, lost, List.getElem?_concat_length, origin_mark_encodeMessage _ _ _, rfl,
          hanswer _ _ _ hsplit hdecode, hlost⟩

theorem own_serve (hactive : w.active = some call) (hreceives : call.kind.receives = true)
    (hfits : c.Fits call.request) (hown : Own c w call) {k : Nat} {written : Option Nat}
    (hsettled : Settled c process w (.serve k written)) : Own c (w.serve c process k written) call := by
  -- on the call's connection the server finds its frame; what it does elsewhere does not matter
  by_cases hconn : call.phase.conn = some k
  · have hanswer := hsettled ⟨call, hactive, hreceives, hconn⟩
    unfold Own at hown ⊢
    split at hown
    · trivial
    · next j left hphase =>
      obtain rfl : j = k := by rw [hphase] at hconn; exact Option.some.inj hconn
      rcases hown with hu | ⟨rfl, ha⟩
      · exact serve_unread hfits hu hanswer
      · rw [serve_answered ha]
        exact .inr ⟨rfl, ha⟩
    · next j got hphase =>
      obtain rfl : j = k := by rw [hphase] at hconn; exact Option.some.inj hconn
      rcases hown with ⟨rfl, hu⟩ | ha
      · exact (serve_unread hfits hu hanswer).imp (fun hu => ⟨rfl, hu⟩) And.right
      · rw [serve_answered ha]
        exact .inr ha
  · obtain ⟨more, hmore⟩ := serve_served c process w k written
    refine hown.mono (fun j hj => serve_conns_ne w ?_ written) hmore
    rintro rfl
    exact hconn hj

/-! ## One lemma for each step of a call -/

theorem clean_beginAttempt (hfits : call.kind.receives = true → c.Fits call.request)
    (hquiet : call.kind.receives = true → ∀ entry, w.pool.lookup call.addr = some entry → Quiet (w.conns entry.conn)) :
    Clean c (w.beginAttempt c call) := by
  unfold beginAttempt
  split
  · next entry he =>
    exact clean_setPhase hfits (fun hr => .inl (unread_of_quiet (hquiet hr entry he))) fun _ _ => Phase.noConfusion
  · exact clean_setPhase hfits (fun _ => trivial) fun _ _ => Phase.noConfusion

theorem clean_fail (hfits : call.kind.receives = true → c.Fits call.request) (e : ZhtError) :
    Clean c (w.fail c call e).2 := by
  unfold fail
  simp only
  split
  · split
    · exact clean_of_idle rfl
    · refine clean_beginAttempt hfits fun _ entry he => ?_
      -- the broken connection has left the pool
      have hnone : (Finmap.erase call.addr (w.count call.addr fun s => { s with errors := s.errors + 1 }).pool).lookup
          call.addr = none := Finmap.lookup_erase _ _
      rw [show Call.addr { call with attempts := call.attempts + 1 } = call.addr from rfl] at he
      simp only at he
      rw [hnone] at he
      cases he
  · exact clean_of_idle rfl

theorem clean_connect (hfits : call.kind.receives = true → c.Fits call.request) (result : Except String Unit) :
    Clean c (w.connect c call result).2 := by
  cases result with
  | error reason => exact clean_of_idle rfl
  | ok u =>
    refine clean_setPhase hfits (fun _ => .inl ?_) fun _ _ => Phase.noConfusion
    have hquiet : Quiet ((w.setConn w.opened fun _ => {}).conns w.opened) := by
      rw [setConn_same]
      exact ⟨rfl, .inl rfl⟩
    exact unread_of_quiet hquiet

theorem clean_write {k : Nat} {left : Stream Attempt} (hphase : call.phase = .sending k left)
    (hfits : call.kind.receives = true → c.Fits call.request) (hown : call.kind.receives = true → Own c w call)
    (n : Nat) : Clean c (w.write call k left n) := by
  refine clean_setPhase hfits (fun hr => ?_) fun _ _ => Phase.noConfusion
  have h := hown hr
  simp only [Own, hphase] at h
  simp only [Own, setPhase, setConn_same]
  rcases h with h | ⟨rfl, h⟩
  · exact .inl (h.write n)
  · refine .inr ⟨List.drop_nil, ?_⟩
    obtain ⟨hread, hanswer⟩ := h
    exact ⟨by simp [hread], hanswer⟩

theorem clean_flush {k : Nat} (hphase : call.phase = .sending k [])
    (hfits : call.kind.receives = true → c.Fits call.request) (hown : call.kind.receives = true → Own c w call) :
    Clean c (w.flush c call k).2 := by
  unfold flush
  split
  · next hreceives =>
    refine clean_setPhase hfits (fun hr => ?_) fun _ _ _ => hreceives
    have h := hown hr
    simp only [Own, hphase, true_and] at h
    exact h.imp (fun hu => ⟨rfl, hu⟩) id
  · exact clean_of_idle rfl

/-- What the call has read once it has read some more. -/
theorem own_read {k : Nat} {got : Stream Nat} (hphase : call.phase = .receiving k got) (hown : Own c w call)
    (n : Nat) :
    (got ++ (w.conns k).toClient.take n = [] ∧
        Unread (frameOf c call) { w.conns k with toClient := (w.conns k).toClient.drop n } []) ∨
      Answered c call.attempt call.request w.served { w.conns k with toClient := (w.conns k).toClient.drop n }
        (got ++ (w.conns k).toClient.take n) := by
  simp only [Own, hphase] at hown
  rcases hown with ⟨rfl, hsilent, hparts⟩ | h
  · exact .inl ⟨by simp [hsilent], by simp [hsilent], hparts⟩
  · exact .inr (h.read_more n)

theorem clean_read {k : Nat} {got : Stream Nat} (hphase : call.phase = .receiving k got)
    (hreceives : call.kind.receives = true) (hfits : c.Fits call.request) (hown : Own c w call) (n : Nat) :
    Clean c (w.read c call k got n).2 := by
  unfold read
  simp only
  split
  · split
    · exact clean_of_idle rfl
    · exact clean_fail (fun _ => hfits) _
  · refine clean_setPhase (fun _ => hfits) (fun _ => ?_) fun _ _ _ => hreceives
    simp only [Own, setPhase, setConn_same]
    exact own_read hphase hown _

/-- A complete answer is read to its end and decodes to what the server answered. -/
theorem read_response {k : Nat} {got : Stream Nat} (hphase : call.phase = .receiving k got) (hown : Own c w call)
    {n : Nat} {ret : Return} {response : ZPack} (hret : (w.read c call k got n).1 = some ret)
    (hresponse : ret.result = .response response) :
    ∃ i s, ret = ⟨call, .response response, some i⟩ ∧ w.served[i]? = some s ∧ s.origin = some call.attempt ∧
      s.request = call.request ∧ s.response = response := by
  unfold read at hret
  simp only at hret
  split at hret
  · next hcomplete =>
    rcases own_read hphase hown (min n (want got.bytes)) with ⟨hnil, -⟩ | ⟨-, i, s, lost, hs, ho, hr, hf, ha⟩
    · rw [hnil] at hcomplete
      cases hcomplete
    · rw [List.append_assoc] at ha
      obtain ⟨hall, -, -⟩ := eq_frame_of_length hf ha hcomplete (Nat.le_refl _)
      have hdecode : c.decode (List.drop 4 (Stream.bytes (mark i (encodeMessage c s.response)))) = .ok s.response := by
        rw [bytes_mark, drop_encodeMessage, c.decode_encode]
      rw [hall, hdecode] at hret
      simp only [finish, Option.some.injEq, origin_mark_encodeMessage] at hret
      subst hret
      obtain rfl : s.response = response := by simpa using hresponse
      exact ⟨i, s, rfl, hs, ho, hr, rfl⟩
  · cases hret

/-! ## Steps -/

/-- What a step does to the connections and the served frames alone. -/
theorem clean_of_own {w' : TcpWorld ζ} (hclean : Clean c w) (hactive : w'.active = w.active)
    (hown : ∀ call, w.active = some call → call.kind.receives = true → c.Fits call.request → Own c w call →
      Own c w' call) : Clean c w' := by
  constructor
  · intro call hcall hreceives
    rw [hactive] at hcall
    obtain ⟨hfits, h⟩ := hclean.own call hcall hreceives
    exact ⟨hfits, hown call hcall hreceives hfits h⟩
  · intro call k got hcall
    rw [hactive] at hcall
    exact hclean.reads call k got hcall

theorem step_clean (hclean : Clean c w) {a : Action} (hsettled : Settled c process w a) :
    Clean c (w.step c process a).2 := by
  have hfits : ∀ {call : Call}, w.active = some call → call.kind.receives = true → c.Fits call.request :=
    fun hactive hr => (hclean.own _ hactive hr).1
  have hown : ∀ {call : Call}, w.active = some call → call.kind.receives = true → Own c w call :=
    fun hactive hr => (hclean.own _ hactive hr).2
  have hstep := does_step c process w a
  generalize w.step c process a = r at hstep ⊢
  cases hstep with
  | nothing => exact hclean
  | start kind host port request idle =>
    exact clean_beginAttempt (fun hr => (hsettled idle hr).1) fun hr => (hsettled idle hr).2
  | connect call active phase result => exact clean_connect (hfits active) result
  | write call active k left phase n => exact clean_write phase (hfits active) (hown active) n
  | flush call active k phase => exact clean_flush phase (hfits active) (hown active)
  | read call active k got phase n =>
    have hreceives := hclean.reads call k got active phase
    exact clean_read phase hreceives (hfits active hreceives) (hown active hreceives) n
  | fail a call active e => exact clean_fail (hfits active) e
  | cancel call active e => exact clean_of_idle rfl
  | serve k written =>
    exact clean_of_own hclean (serve_calls c process w k written).1
      fun call hcall hr hf ho => own_serve hcall hr hf ho hsettled
  | hangUp k =>
    refine clean_of_own hclean rfl fun call _ _ _ ho => ?_
    show Own c (w.setConn k fun conn => { conn with serving := false }) call
    exact ho.setConn (fun _ h => ⟨h.silent, .inr (.inl rfl)⟩) fun _ h => ⟨h.read, h.answer⟩
  | lose k m n =>
    refine clean_of_own hclean rfl fun call _ _ _ ho => ?_
    show Own c (w.setConn k fun conn =>
      { conn with toServer := conn.toServer.take m, toClient := conn.toClient.take n, broken := true }) call
    exact ho.setConn (fun _ h => h.lose m n) fun _ h => h.lose m n

/-! ### Only a read returns a response -/

section Results

variable {ret : Return} {response : ZPack}

theorem fail_no_response {e : ZhtError} (h : (w.fail c call e).1 = some ret) : ret.result ≠ .response response := by
  unfold fail at h
  simp only at h
  split at h
  · split at h
    · cases h; exact CallResult.noConfusion
    · cases h
  · cases h; exact CallResult.noConfusion

theorem connect_no_response {result : Except String Unit} (h : (w.connect c call result).1 = some ret) :
    ret.result ≠ .response response := by
  cases result with
  | error reason => cases h; exact CallResult.noConfusion
  | ok u => cases h

theorem flush_no_response {k : Nat} (h : (w.flush c call k).1 = some ret) : ret.result ≠ .response response := by
  unfold flush at h
  split at h
  · cases h
  · cases h; exact CallResult.noConfusion

theorem finish_no_response {e : ZhtError} {origin : Option Nat} (h : (w.finish call (.error e) origin).1 = some ret) :
    ret.result ≠ .response response := by
  cases h; exact CallResult.noConfusion

theorem step_response {a : Action} (hret : (w.step c process a).1 = some ret)
    (hresponse : ret.result = .response response) :
    ∃ call k got n, w.active = some call ∧ call.phase = .receiving k got ∧
      w.step c process a = w.read c call k got n := by
  have hstep := does_step c process w a
  generalize w.step c process a = r at hstep hret ⊢
  cases hstep with
  | nothing | start | write | serve | hangUp | lose => cases hret
  | connect => exact absurd hresponse (connect_no_response hret)
  | flush => exact absurd hresponse (flush_no_response hret)
  | read call active k got phase n => exact ⟨call, k, got, n, active, phase, rfl⟩
  | fail => exact absurd hresponse (fail_no_response hret)
  | cancel => exact absurd hresponse (finish_no_response hret)

theorem step_belongs (hclean : Clean c w) (a : Action) : Belongs c process w a := by
  intro ret response hret hresponse
  obtain ⟨call, k, got, n, hactive, hphase, hstep⟩ := step_response hret hresponse
  rw [hstep] at hret ⊢
  obtain ⟨-, hown⟩ := hclean.own call hactive (hclean.reads call k got hactive hphase)
  obtain ⟨i, s, rfl, hs, ho, hr, hsr⟩ := read_response hphase hown hret hresponse
  rw [(sameServer_read w call k got n).2]
  exact ⟨i, s, call.attempts, rfl, hs, ho, hr, hsr⟩

end Results

/-! ## Runs -/

/-- Along a run of a new proxy whose steps are all settled, every response a call returns is the
server's answer to the request of that call. -/
theorem response_belongs (c : Codec) (process : ζ → ZPack → ZPack × ζ) (server : ζ) {actions : List Action}
    (h : Machine.Along (step c process) (Settled c process) (new server) actions) :
    Machine.Along (step c process) (Belongs c process) (new server) actions :=
  Machine.along_of_invariant (fun _ _ hclean hsettled => step_clean hclean hsettled)
    (fun _ a hclean _ => step_belongs hclean a) (clean_of_idle rfl) h

/-! ### Two runs -/

/-- A server that answers each request with its number. -/
def numbering (n : Nat) (_ : ZPack) : ZPack × Nat := ({ val := [UInt8.ofNat n] }, n + 1)

/-- A call on a new connection, up to the end of its frame. -/
def sending (kind : CallKind) (request : ZPack) : List Action :=
  [.start kind "s" 50000 request, .connect (.ok ()), .write 100, .flush]

/-- The next call, on the pooled connection, up to a first read. -/
def nextCall (request : ZPack) : List Action :=
  [.start .sendrecv "s" 50000 request, .write 100, .flush, .read 4]

/-- A frame written in two parts and an answer read in two, then a call on the same connection. -/
theorem response_belongs_two :
    Machine.Along (step .protobuf numbering) (Belongs .protobuf numbering) (new 0)
      (.start .sendrecv "s" 50000 { key := [1] } :: .connect (.ok ()) :: .write 2 :: .write 100 :: .flush ::
        .serve 0 none :: .read 4 :: .read 100 :: nextCall { key := [2] } ++ [.serve 0 none, .read 100]) := by
  have hfits : ∀ n < 2, ∀ request, Codec.protobuf.Fits (numbering n request).1 := by
    intro n hn _
    have hsmall : ∀ m < 2, Codec.protobuf.encodedLen (numbering m {}).1 < 2 ^ 32 := by decide
    exact hsmall n hn
  apply response_belongs
  refine ⟨fun _ _ => ⟨by decide, fun _ h => by cases h⟩, trivial, trivial, trivial, trivial,
    fun _ _ _ request _ _ => hfits 0 (by decide) request, trivial, trivial,
    fun _ _ => ⟨by decide, fun entry h => ?_⟩, trivial, trivial, trivial,
      fun _ _ _ request _ _ => hfits 1 (by decide) request, trivial, trivial⟩
  -- the second call starts where the first one left its connection
  obtain rfl : entry = ⟨0, ⟨1, 1, 7, 7, 0⟩⟩ := Option.some.inj (h.symm.trans (by decide +kernel))
  exact ⟨by decide +kernel, .inl (by decide +kernel)⟩

/-- After a `send_only`, and after a call that timed out, the next call returns the answer to the
earlier request. -/
theorem stale_answer :
    ¬Machine.Along (step .protobuf numbering) (Belongs .protobuf numbering) (new 0)
        (sending .sendOnly { key := [1] } ++ [.serve 0 none] ++ nextCall { key := [2] } ++ [.read 100]) ∧
      ¬Machine.Along (step .protobuf numbering) (Belongs .protobuf numbering) (new 0)
        (sending (.sendrecvWithTimeout 5) { key := [1] } ++ [.cancel, .serve 0 none] ++ nextCall { key := [2] } ++
          [.read 100]) := by
  have hstale : ∀ actions : List Action,
      ((step .protobuf numbering (Machine.after (step .protobuf numbering) (new 0) actions)
          (.read 100)).1.map fun ret => (ret.call.id, ret.result, ret.origin)) = some (1, .response { val := [0] }, some 0) →
      ((Machine.after (step .protobuf numbering) (new 0) (actions ++ [.read 100])).served[0]?.bind Served.origin) =
        some ⟨0, 0⟩ →
      ¬Machine.Along (step .protobuf numbering) (Belongs .protobuf numbering) (new 0) (actions ++ [.read 100]) := by
    intro actions hret hserved h
    have hbelongs := ((Machine.along_append ..).1 h).2.1
    obtain ⟨ret, hr, heq⟩ := Option.map_eq_some_iff.1 hret
    simp only [Prod.mk.injEq] at heq
    obtain ⟨hid, hresult, horigin⟩ := heq
    obtain ⟨i, s, number, hi, hs, hso, -⟩ := hbelongs ret _ hr hresult
    obtain rfl : i = 0 := Option.some.inj (hi.symm.trans horigin)
    rw [Machine.after_append, Machine.after_cons, Machine.after_nil, hs, Option.bind_some, hso, hid] at hserved
    cases hserved
  exact ⟨hstale _ (by decide +kernel) (by decide +kernel), hstale _ (by decide +kernel) (by decide +kernel)⟩

end TcpWorld

end Zht
