/-
UDP. The proxy sends a request as one frame, or past the threshold as chunks of its bare encoding; the
server's loop reads each datagram as a frame, failing that as a chunk, and what it puts together from
chunks as a frame again. A frame gets through when it fits a datagram. A chunked request does not,
unless its bare encoding happens to be read as a frame of it (`udp_delivers_iff`).
-/
import Zht.Transport.FrameStream
import Zht.Transport.Reassembly
import Zht.Transport.Worker

namespace Zht

open Lib Lib.Protobuf Lib.Utf8 Lib.Text

def UDP_MAX_DATAGRAM : Nat := 65507

def DEFAULT_CHUNK_THRESHOLD : Nat := 1048576

/-! ## The socket -/

/-- `send_to` on an IPv4 socket: a datagram that is too long for one is refused. -/
def sendTo (datagram : Bytes) : ZhtResult Bytes :=
  if datagram.length ≤ UDP_MAX_DATAGRAM then .ok datagram else .error (.sendFailed "Message too long (os error 90)")

/-- The datagrams that go out until one is refused. -/
def sendAll : List Bytes → List Bytes × ZhtResult Unit
  | [] => ([], .ok ())
  | d :: ds =>
    match sendTo d with
    | .ok d => (d :: (sendAll ds).1, (sendAll ds).2)
    | .error e => ([], .error e)

/-- `recv_from` into a buffer of `UDP_MAX_DATAGRAM` bytes; what does not fit is lost. -/
def recvFrom (datagram : Bytes) : Bytes := datagram.take UDP_MAX_DATAGRAM

/-- What the wait for an answer comes to. -/
inductive Received
  | datagram (bytes : Bytes)
  | failed (reason : String)
  | timedOut
  deriving DecidableEq, Repr

/-! ## The client -/

namespace UdpProxy

variable (c : Codec)

/-- The datagrams sent, and the answer. -/
def exchange (datagrams : List Bytes) (timeoutText : String) (received : Received) :
    List Bytes × ZhtResult ZPack :=
  let (sent, result) := sendAll datagrams
  (sent, do
    result
    match received with
    | .datagram bytes => return (← decodeMessage c (recvFrom bytes)).1
    | .failed reason => throw (.recvFailed reason)
    | .timedOut => throw (.recvFailed timeoutText))

def sendrecvFramed (request : ZPack) : Received → List Bytes × ZhtResult ZPack :=
  exchange c [encodeMessage c request] "UDP timeout"

def sendrecvChunked (msgId : UInt64) (request : ZPack) : Received → List Bytes × ZhtResult ZPack :=
  exchange c ((chunkMessage msgId (c.encode request) CHUNK_PAYLOAD_SIZE).map Chunk.data) "UDP timeout (chunked)"

/-- `msgId` is the message id that is drawn when the request is chunked. -/
def sendrecv {α : Type} (parseAddr : String → Except String α) (msgId : UInt64) (host : String) (port : UInt16)
    (request : ZPack) (received : Received) : List Bytes × ZhtResult ZPack :=
  match parseAddr (host ++ ":" ++ port.toNat.repr) with
  | .error e => ([], .error (.connectionFailed host port ("Invalid address: " ++ e)))
  | .ok _ =>
    if DEFAULT_CHUNK_THRESHOLD < c.encodedLen request then sendrecvChunked c msgId request received
    else sendrecvFramed c request received

end UdpProxy

/-! ## The server -/

/-- One call of the handler, and what sending its answer came to. -/
structure Handled where
  request : ZPack
  answer : ZhtResult Bytes

/-- The state of `run`: what is behind the handler, and the chunk receiver. -/
structure UdpServer (ζ : Type) where
  handler : ζ
  chunkReceiver : ChunkReceiver

namespace UdpServer

variable {ζ : Type} (c : Codec) (handle : ζ → ZPack → ZPack × ζ)

def new (handler : ζ) : UdpServer ζ := { handler, chunkReceiver := ChunkReceiver.new }

def process (s : UdpServer ζ) (request : ZPack) : Option Handled × UdpServer ζ :=
  let (response, handler) := handle s.handler request
  (some { request, answer := sendTo (encodeMessage c response) }, { s with handler })

/-- One datagram: the call of the handler it leads to, if any. `none` for a panic. -/
def onDatagram (s : UdpServer ζ) (datagram : Bytes) : Option (Option Handled × UdpServer ζ) :=
  match decodeMessage c (recvFrom datagram) with
  | .ok (request, _) => some (s.process c handle request)
  | .error _ =>
    match s.chunkReceiver.receive (recvFrom datagram) with
    | none => none
    | some (.ok (some assembled), chunkReceiver) =>
      -- the assembled bytes are read as a frame too
      match decodeMessage c assembled with
      | .ok (request, _) => some ({ s with chunkReceiver }.process c handle request)
      | .error _ => some (none, { s with chunkReceiver })
    | some (.ok none, chunkReceiver) => some (none, { s with chunkReceiver })
    -- a chunk that cannot be parsed is only logged
    | some (.error _, chunkReceiver) => some (none, { s with chunkReceiver })

/-- The calls of the handler while datagrams come in, up to a panic. -/
def run : UdpServer ζ → List Bytes → List Handled
  | _, [] => []
  | s, datagram :: datagrams =>
    match s.onDatagram c handle datagram with
    | none => []
    | some (handled, s) => handled.toList ++ s.run datagrams

end UdpServer

/-- The requests that the handler of a fresh loop is called with. -/
def requestsHandled {ζ : Type} (c : Codec) (handle : ζ → ZPack → ZPack × ζ) (handler : ζ) (datagrams : List Bytes) :
    List ZPack :=
  ((UdpServer.new handler).run c handle datagrams).map Handled.request

/-! ## What is sent -/

theorem sendAll_of_le {datagrams : List Bytes} (h : ∀ d ∈ datagrams, d.length ≤ UDP_MAX_DATAGRAM) :
    sendAll datagrams = (datagrams, .ok ()) := by
  induction datagrams with
  | nil => rfl
  | cons d ds ih =>
    have hd : sendTo d = .ok d := if_pos (h d List.mem_cons_self)
    have hds := ih fun d' hd' => h d' (List.mem_cons_of_mem _ hd')
    simp only [sendAll, hd, hds]

namespace UdpProxy

variable (c : Codec) {α : Type} {parseAddr : String → Except String α} {host : String} {port : UInt16} {addr : α}
  (msgId : UInt64) {request : ZPack} (received : Received)

theorem sent_framed (haddr : parseAddr (host ++ ":" ++ port.toNat.repr) = .ok addr)
    (h : c.encodedLen request ≤ DEFAULT_CHUNK_THRESHOLD) :
    (sendrecv c parseAddr msgId host port request received).1 = (sendAll [encodeMessage c request]).1 := by
  unfold sendrecv
  rw [haddr]
  simp only
  rw [if_neg (Nat.not_lt.2 h)]
  rfl

theorem sent_chunked (haddr : parseAddr (host ++ ":" ++ port.toNat.repr) = .ok addr)
    (h : DEFAULT_CHUNK_THRESHOLD < c.encodedLen request) :
    (sendrecv c parseAddr msgId host port request received).1 =
      (sendAll ((chunkMessage msgId (c.encode request) CHUNK_PAYLOAD_SIZE).map Chunk.data)).1 := by
  unfold sendrecv
  rw [haddr]
  simp only
  rw [if_pos h]
  rfl

end UdpProxy

/-! ## What the loop makes of it -/

/-- The request in bytes put together from chunks. -/
def assembledRequest (c : Codec) : ZhtResult (Option Bytes) → Option ZPack
  | .ok (some assembled) => (decodeMessage c assembled).toOption.map Prod.fst
  | _ => none

/-- The bare encoding is read as a frame of its own message. -/
def Codec.FramesItself (c : Codec) (z : ZPack) : Prop := ∃ rest, decodeMessage c (c.encode z) = .ok (z, rest)

theorem assembledRequest_eq_self (c : Codec) (z : ZPack) :
    (assembledRequest c (.ok (some (c.encode z)))).toList = [z] ↔ c.FramesItself z := by
  cases hd : decodeMessage c (c.encode z) with
  | error e => simp [assembledRequest, Codec.FramesItself, hd, Except.toOption]
  | ok p =>
    obtain ⟨request, rest⟩ := p
    simp [assembledRequest, Codec.FramesItself, hd, Except.toOption]

namespace UdpServer

variable {ζ : Type} {c : Codec} (handle : ζ → ZPack → ZPack × ζ) {s : UdpServer ζ}

/-- Whatever comes in, a request that is handled was read as a frame. -/
theorem onDatagram_handled {datagram : Bytes} {handled : Handled} {s' : UdpServer ζ}
    (h : s.onDatagram c handle datagram = some (some handled, s')) :
    ∃ buf rest, decodeMessage c buf = .ok (handled.request, rest) := by
  unfold onDatagram at h
  split at h
  · next request rest hd =>
    cases h
    exact ⟨_, rest, hd⟩
  · split at h
    · cases h
    · split at h
      · next request rest hd =>
        cases h
        exact ⟨_, rest, hd⟩
      · cases h
    · cases h
    · cases h

theorem run_handled {datagrams : List Bytes} {handled : Handled} (h : handled ∈ s.run c handle datagrams) :
    ∃ buf rest, decodeMessage c buf = .ok (handled.request, rest) := by
  induction datagrams generalizing s with
  | nil => cases h
  | cons datagram datagrams ih =>
    rw [run] at h
    split at h
    · cases h
    · next handled' s' hs =>
      rcases List.mem_append.1 h with h | h
      · rw [Option.mem_toList] at h
        cases h
        exact onDatagram_handled handle hs
      · exact ih h

/-- A datagram that is no frame goes to the chunk receiver. -/
theorem onDatagram_chunk {datagram : Bytes} {e : ZhtError} {output : ZhtResult (Option Bytes)}
    {chunkReceiver : ChunkReceiver} (hlen : datagram.length ≤ UDP_MAX_DATAGRAM)
    (hframe : decodeMessage c datagram = .error e)
    (hreceive : s.chunkReceiver.receive datagram = some (output, chunkReceiver)) :
    ∃ handled s', s.onDatagram c handle datagram = some (handled, s') ∧ s'.chunkReceiver = chunkReceiver ∧
      handled.map Handled.request = assembledRequest c output := by
  have hrecv : recvFrom datagram = datagram := List.take_of_length_le hlen
  unfold onDatagram
  simp only [hrecv, hframe, hreceive]
  cases output with
  | error e => exact ⟨_, _, rfl, rfl, rfl⟩
  | ok assembled =>
    cases assembled with
    | none => exact ⟨_, _, rfl, rfl, rfl⟩
    | some assembled =>
      cases hd : decodeMessage c assembled with
      | error e =>
        simp only [assembledRequest, hd]
        exact ⟨_, _, rfl, rfl, rfl⟩
      | ok p =>
        simp only [assembledRequest, hd]
        exact ⟨_, _, rfl, rfl, rfl⟩

/-- Chunks lead to the calls that the outputs of the chunk receiver lead to. -/
theorem run_chunks {arrivals : List Arrival} {outputs : List (ZhtResult (Option Bytes))}
    {chunkReceiver : ChunkReceiver}
    (hlen : ∀ a ∈ arrivals, (datagram a).length ≤ UDP_MAX_DATAGRAM)
    (hframe : ∀ a ∈ arrivals, ∃ e, decodeMessage c (datagram a) = .error e)
    (hrun : Machine.tryRun (fun (r : ChunkReceiver) a => r.receive (datagram a)) s.chunkReceiver arrivals =
      some (outputs, chunkReceiver)) :
    (s.run c handle (arrivals.map datagram)).map Handled.request = outputs.filterMap (assembledRequest c) := by
  induction arrivals generalizing s outputs with
  | nil =>
    cases hrun
    rfl
  | cons a arrivals ih =>
    rw [Machine.tryRun] at hrun
    split at hrun
    · cases hrun
    · next output r hreceive =>
      obtain ⟨⟨outputs', r'⟩, hrest, he⟩ := Option.map_eq_some_iff.1 hrun
      cases he
      obtain ⟨e, herror⟩ := hframe a List.mem_cons_self
      obtain ⟨handled, s', hs, rfl, hhandled⟩ :=
        onDatagram_chunk handle (hlen a List.mem_cons_self) herror hreceive
      have hcalls := ih (fun b hb => hlen b (List.mem_cons_of_mem _ hb))
        (fun b hb => hframe b (List.mem_cons_of_mem _ hb)) hrest
      rw [List.map_cons, run, hs, List.filterMap_cons, ← hhandled]
      simp only [List.map_append, hcalls]
      cases handled <;> rfl

end UdpServer

/-! ## The datagrams of a chunked request -/

/-- A header starts with a space or a digit, which as the highest byte of a length is far too much. -/
theorem decodeMessage_chunkHeader (c : Codec) (msgId : UInt64) {seq total payloadSize : Nat} {payload : Bytes}
    (hlen : (chunkHeader msgId seq total payloadSize ++ payload).length ≤ UDP_MAX_DATAGRAM) :
    ∃ e, decodeMessage c (chunkHeader msgId seq total payloadSize ++ payload) = .error e := by
  have hid : msgId.toNat < 10 ^ 20 := Nat.lt_of_lt_of_le (UInt64.toNat_lt msgId) (by decide)
  have hfield := Decimal.length_padStart_repr msgId.toNat (by decide) hid
  obtain ⟨b, bs, hb⟩ := List.exists_cons_of_length_pos (Nat.lt_of_lt_of_eq (by decide) hfield.symm)
  have hspace : 32 ≤ b.toNat := Decimal.space_le_of_mem_padStart_repr msgId.toNat (hb ▸ List.mem_cons_self)
  have hcons : ∃ tail, chunkHeader msgId seq total payloadSize ++ payload = b :: tail := by
    rw [chunkHeader, hb]
    exact ⟨_, rfl⟩
  obtain ⟨tail, htail⟩ := hcons
  have hmuch : UDP_MAX_DATAGRAM < b.toNat * 2 ^ 24 := by
    rw [UDP_MAX_DATAGRAM]
    omega
  rw [htail] at hlen ⊢
  obtain ⟨msg, hmsg⟩ := decodeMessage_of_first c (Nat.lt_of_le_of_lt hlen hmuch)
  exact ⟨_, hmsg⟩

section Chunks

variable {m : Message} {seq : Nat} (h : seq < m.total)
include h

theorem length_datagram_le : (datagram (m, seq)).length ≤ UDP_MAX_DATAGRAM := by
  have hheader := length_chunkHeader m.id (Nat.lt_trans h m.total_lt) m.total_lt (m.length_payload_lt seq)
  have hpayload := m.length_payload_lt seq
  rw [datagram_eq h, List.length_append, hheader, CHUNK_HEADER_SIZE, UDP_MAX_DATAGRAM]
  show 38 + (m.payload seq).length ≤ 65507
  omega

theorem decodeMessage_datagram (c : Codec) : ∃ e, decodeMessage c (datagram (m, seq)) = .error e := by
  have hlen := length_datagram_le h
  rw [datagram_eq h] at hlen ⊢
  exact decodeMessage_chunkHeader c m.id hlen

end Chunks

/-- The datagrams of a chunked request are the chunks of its encoding in order. -/
theorem chunkMessage_inOrder (m : Message) :
    (chunkMessage m.id m.data CHUNK_PAYLOAD_SIZE).map Chunk.data = (inOrder m m.total).map datagram := by
  apply List.ext_getElem
  · simp only [List.length_map, length_chunkMessage, inOrder, List.length_range]
    rfl
  · intro seq hseq hseq'
    have htotal : seq < m.total := by
      simpa [inOrder] using hseq'
    simp only [List.getElem_map, inOrder, List.getElem_range]
    rw [getElem_chunkMessage, datagram_eq htotal]
    rfl

/-- The header counts the chunks of anything a frame could hold, and of a little more. -/
theorem chunkTotal_fits {len : Nat} (h : len < 2 ^ 32 + 11) : chunkTotal len CHUNK_PAYLOAD_SIZE ≤ 9999999 := by
  unfold chunkTotal CHUNK_PAYLOAD_SIZE
  split <;> omega

/-! ## What arrives -/

section Delivery

variable (c : Codec) {α : Type} (parseAddr : String → Except String α) {host : String} {port : UInt16} {addr : α}
  {ζ : Type} (handle : ζ → ZPack → ZPack × ζ) (handler : ζ) (msgId : UInt64) {request : ZPack} (received : Received)
  (haddr : parseAddr (host ++ ":" ++ port.toNat.repr) = .ok addr)
include haddr

/-- A frame that fits a datagram is handled. -/
theorem requestsHandled_framed (h : c.encodedLen request + 4 ≤ UDP_MAX_DATAGRAM) :
    requestsHandled c handle handler (UdpProxy.sendrecv c parseAddr msgId host port request received).1 =
      [request] := by
  rw [UDP_MAX_DATAGRAM] at h
  have hlen : (encodeMessage c request).length ≤ UDP_MAX_DATAGRAM := by
    rw [length_encodeMessage, UDP_MAX_DATAGRAM]
    omega
  have hfits : c.Fits request := by
    show c.encodedLen request < 2 ^ 32
    omega
  have hdecode := decodeMessage_encodeMessage c hfits []
  rw [List.append_nil] at hdecode
  have hrecv : recvFrom (encodeMessage c request) = encodeMessage c request := List.take_of_length_le hlen
  rw [UdpProxy.sent_framed c msgId received haddr (by rw [DEFAULT_CHUNK_THRESHOLD]; omega),
    sendAll_of_le (by simpa using hlen)]
  simp only [requestsHandled, UdpServer.run, UdpServer.onDatagram, hrecv, hdecode]
  rfl

/-- A frame that does not is never sent. -/
theorem requestsHandled_refused (h : UDP_MAX_DATAGRAM < c.encodedLen request + 4)
    (hframed : c.encodedLen request ≤ DEFAULT_CHUNK_THRESHOLD) :
    requestsHandled c handle handler (UdpProxy.sendrecv c parseAddr msgId host port request received).1 = [] := by
  have hlen : ¬ (encodeMessage c request).length ≤ UDP_MAX_DATAGRAM := by
    rw [length_encodeMessage]
    omega
  rw [UdpProxy.sent_framed c msgId received haddr hframed]
  simp only [sendAll, sendTo, hlen, ↓reduceIte]
  rfl

/-- A chunked request that its numbers of chunks can count is put together again and read as a frame. -/
theorem requestsHandled_chunked (h : DEFAULT_CHUNK_THRESHOLD < c.encodedLen request)
    (hfits : chunkTotal (c.encodedLen request) CHUNK_PAYLOAD_SIZE ≤ 9999999) :
    requestsHandled c handle handler (UdpProxy.sendrecv c parseAddr msgId host port request received).1 =
      (assembledRequest c (.ok (some (c.encode request)))).toList := by
  let m : Message := { id := msgId, data := c.encode request, fits := hfits }
  have hchunk : ∀ a ∈ inOrder m m.total, a.1 = m ∧ a.2 < m.total := by
    intro a ha
    obtain ⟨seq, hseq, rfl⟩ := List.mem_map.1 ha
    exact ⟨rfl, List.mem_range.1 hseq⟩
  have hlen : ∀ a ∈ inOrder m m.total, (datagram a).length ≤ UDP_MAX_DATAGRAM := by
    rintro ⟨m', seq⟩ ha
    obtain ⟨rfl, hseq⟩ := hchunk _ ha
    exact length_datagram_le hseq
  have hframe : ∀ a ∈ inOrder m m.total, ∃ e, decodeMessage c (datagram a) = .error e := by
    rintro ⟨m', seq⟩ ha
    obtain ⟨rfl, hseq⟩ := hchunk _ ha
    exact decodeMessage_datagram hseq c
  have hsent : ((chunkMessage msgId (c.encode request) CHUNK_PAYLOAD_SIZE).map Chunk.data) =
      (inOrder m m.total).map datagram := chunkMessage_inOrder m
  obtain ⟨r, hrun⟩ := receive_inOrder m
  have hall : ∀ d ∈ (inOrder m m.total).map datagram, d.length ≤ UDP_MAX_DATAGRAM := by
    intro d hd
    obtain ⟨a, ha, rfl⟩ := List.mem_map.1 hd
    exact hlen a ha
  rw [UdpProxy.sent_chunked c msgId received haddr h, hsent, sendAll_of_le hall, requestsHandled,
    UdpServer.run_chunks handle hlen hframe hrun, List.filterMap_append, List.filterMap_replicate_of_none rfl,
    List.nil_append]
  show [Except.ok (some (c.encode request))].filterMap (assembledRequest c) = _
  rw [List.filterMap_cons, List.filterMap_nil]
  cases assembledRequest c (.ok (some (c.encode request))) <;> rfl

/-- All that is sent for a request, delivered whole and in order to a fresh loop, makes the handler
be called exactly once with exactly this request, if and only if its frame fits a datagram, or it is
chunked and its bare encoding is read as a frame of it. The reassembled bytes lack the length that the
loop expects in front of them. -/
theorem udp_delivers_iff (hc : c.Compact) :
    requestsHandled c handle handler (UdpProxy.sendrecv c parseAddr msgId host port request received).1 =
        [request] ↔
      c.encodedLen request + 4 ≤ UDP_MAX_DATAGRAM ∨
        DEFAULT_CHUNK_THRESHOLD < c.encodedLen request ∧ c.FramesItself request := by
  by_cases hframe : c.encodedLen request + 4 ≤ UDP_MAX_DATAGRAM
  · rw [requestsHandled_framed c parseAddr handle handler msgId received haddr hframe]
    exact iff_of_true rfl (.inl hframe)
  by_cases hchunked : DEFAULT_CHUNK_THRESHOLD < c.encodedLen request
  · by_cases hsmall : c.encodedLen request < 2 ^ 32 + 11
    · rw [requestsHandled_chunked c parseAddr handle handler msgId received haddr hchunked (chunkTotal_fits hsmall),
        assembledRequest_eq_self]
      simp [hframe, hchunked]
    · -- no frame holds as much, so this request is not handled whatever the chunks come to
      have hnone : ∀ buf rest, decodeMessage c buf ≠ .ok (request, rest) := by
        intro buf rest hd
        obtain ⟨bs, hbs, -, hdecode⟩ := decodeMessage_ok c hd
        have := hc bs request hdecode
        omega
      constructor
      · intro h
        obtain ⟨handled, hmem, he⟩ := List.mem_map.1 (h ▸ List.mem_singleton_self request)
        obtain ⟨buf, rest, hd⟩ := UdpServer.run_handled handle hmem
        exact absurd (he ▸ hd) (hnone buf rest)
      · rintro (h | ⟨-, rest, hd⟩)
        · exact absurd h hframe
        · exact absurd hd (hnone _ rest)
  · rw [requestsHandled_refused c parseAddr handle handler msgId received haddr (Nat.lt_of_not_le hframe)
      (Nat.le_of_not_lt hchunked)]
    simp [hframe, hchunked]

end Delivery

/-- A lookup goes as one frame. -/
theorem udp_delivers_lookup :
    let lookup : ZPack := { opcode := utf8Bytes OPC_LOOKUP, key := [0x6b] }
    requestsHandled .protobuf HTWorker.process (HTWorker.new NoVoHT.new)
      (UdpProxy.sendrecv .protobuf (fun _ => .ok ()) 1 "127.0.0.1" 50000 lookup .timedOut).1 = [lookup] := by
  intro lookup
  have hlen : Codec.protobuf.encodedLen lookup + 4 ≤ UDP_MAX_DATAGRAM := by decide
  exact (udp_delivers_iff .protobuf (fun _ => .ok ()) HTWorker.process (HTWorker.new NoVoHT.new) 1 .timedOut rfl
    Codec.protobuf_compact).2 (.inl hlen)

/-! ## A large insert -/

/-- A protobuf encoding with no replica number in it has no room for a frame of itself. -/
theorem protobuf_not_framesItself {z : ZPack} (h : z.replicanum = 0) : ¬ Codec.protobuf.FramesItself z := by
  rintro ⟨rest, hd⟩
  obtain ⟨bs, -, hlen, hdecode⟩ := decodeMessage_ok _ hd
  have hread : z.plainLen ≤ bs.length := ZPack.plainLen_decodeProtobuf hdecode
  have hplain : z.plainLen = (Codec.protobuf.encode z).length := by
    obtain ⟨opcode, key, val, newval, lease, valnull, newvalnull, replicanum⟩ := z
    cases h
    rfl
  omega

/-- So it is not handled when it is chunked. -/
theorem protobuf_chunked_lost {ζ α : Type} (handle : ζ → ZPack → ZPack × ζ) (handler : ζ)
    (parseAddr : String → Except String α) {host : String} {port : UInt16} {addr : α}
    (haddr : parseAddr (host ++ ":" ++ port.toNat.repr) = .ok addr) (msgId : UInt64) {request : ZPack}
    (received : Received) (h : DEFAULT_CHUNK_THRESHOLD < Codec.protobuf.encodedLen request)
    (hsmall : Codec.protobuf.encodedLen request < 2 ^ 32) (hreplica : request.replicanum = 0) :
    requestsHandled .protobuf handle handler
      (UdpProxy.sendrecv .protobuf parseAddr msgId host port request received).1 ≠ [request] := by
  have hfits := chunkTotal_fits (Nat.lt_add_right 11 hsmall)
  rw [requestsHandled_chunked .protobuf parseAddr handle handler msgId received haddr h hfits, ne_eq,
    assembledRequest_eq_self]
  exact protobuf_not_framesItself hreplica

/-- A value of 1 MiB. -/
def largeInsert : ZPack :=
  { opcode := utf8Bytes OPC_INSERT, key := [0x6b], val := List.replicate 1048576 0x76 }

theorem length_bytesField {number : Nat} {bs : Bytes} (hnumber : number < 15) (h : bs ≠ []) :
    (encodeFields (ZPack.bytesField number bs)).length = 1 + (encodeVarint bs.length).length + bs.length := by
  have hkey : (encodeVarint (number * 8 + 2)).length = 1 := by
    rw [encodeVarint, varintFrom, if_pos (by omega)]
    rfl
  rw [ZPack.bytesField, if_neg h]
  simp only [encodeFields, List.flatMap_cons, List.flatMap_nil, List.append_nil, encodeField, List.length_append, hkey]

/-- The encoding of an INSERT of a value that is not empty. -/
theorem encodedLen_insert {val : Bytes} (hne : val ≠ []) :
    Codec.protobuf.encodedLen { opcode := utf8Bytes OPC_INSERT, key := [0x6b], val } =
      9 + (encodeVarint val.length).length + val.length := by
  have hval := length_bytesField (show 3 < 15 by decide) hne
  have hopcode : (encodeFields (ZPack.bytesField 1 (utf8Bytes OPC_INSERT))).length = 5 := by decide
  have hkey : (encodeFields (ZPack.bytesField 2 [0x6b])).length = 3 := by decide
  have hplain : Codec.protobuf.encodedLen { opcode := utf8Bytes OPC_INSERT, key := [0x6b], val } =
      ZPack.plainLen { opcode := utf8Bytes OPC_INSERT, key := [0x6b], val } := rfl
  rw [hplain, ZPack.plainLen_eq, hopcode, hkey, hval]
  show 5 + 3 + _ + 0 + 0 + 0 + 0 = _
  omega

/-- Its encoding is past the threshold, and a frame could hold it. -/
theorem encodedLen_largeInsert :
    DEFAULT_CHUNK_THRESHOLD < Codec.protobuf.encodedLen largeInsert ∧
      Codec.protobuf.encodedLen largeInsert < 2 ^ 32 := by
  have hlen : (List.replicate 1048576 (0x76 : UInt8)).length = 1048576 := List.length_replicate
  have hne : List.replicate 1048576 (0x76 : UInt8) ≠ [] := List.ne_nil_of_length_eq_add_one hlen
  have hvarint : (encodeVarint 1048576).length ≤ 3 := length_varintFrom_of_lt (k := 2) (by decide)
  have henc := encodedLen_insert hne
  rw [hlen] at henc
  rw [largeInsert, henc, DEFAULT_CHUNK_THRESHOLD]
  omega

/-- A large insert never reaches the worker. -/
theorem large_insert_lost :
    requestsHandled .protobuf HTWorker.process (HTWorker.new NoVoHT.new)
      (UdpProxy.sendrecv .protobuf (fun _ => .ok ()) 1 "127.0.0.1" 50000 largeInsert .timedOut).1 ≠ [largeInsert] := by
  obtain ⟨hlo, hhi⟩ := encodedLen_largeInsert
  exact protobuf_chunked_lost HTWorker.process (HTWorker.new NoVoHT.new) (fun _ => .ok ()) rfl 1 .timedOut hlo hhi rfl

end Zht
