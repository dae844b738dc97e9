/-
The datagrams of a request, and the two formats they come in. A frame is handed to the socket whole,
however long it is, unless the request is past the chunk threshold, which is far past what a datagram
holds; chunks always fit (`datagrams_fit_iff`). The server tells them apart by trying to read a frame
first: no chunk is read as one, so every chunk gets to the chunk receiver (`chunk_not_framed`).
-/
import Zht.Transport.ChunkHeaders
import Zht.Transport.Udp

namespace Zht

open Lib Lib.Protobuf Lib.Utf8

/-! ## What is handed to the socket -/

/-- The datagrams handed to a socket until it refuses one, that one included; `accepts n` is what the
`n`th call of `send_to` comes to. -/
def handed : (Nat → Bytes → Bool) → List Bytes → List Bytes
  | _, [] => []
  | accepts, d :: ds => d :: if accepts 0 d then handed (fun n => accepts (n + 1)) ds else []

/-- The socket of `sendTo`. -/
def ipv4Accepts (_ : Nat) (d : Bytes) : Bool := d.length ≤ UDP_MAX_DATAGRAM

namespace UdpProxy

variable (c : Codec) {α : Type} (parseAddr : String → Except String α)

def sendOnly (host : String) (port : UInt16) (request : ZPack) : List Bytes × ZhtResult Unit :=
  match parseAddr (host ++ ":" ++ port.toNat.repr) with
  | .error e => ([], .error (.connectionFailed host port ("Invalid address: " ++ e)))
  | .ok _ => sendAll [encodeMessage c request]

variable (accepts : Nat → Bytes → Bool)

/-- What `sendrecv` hands to the socket; nothing when `chunk_message` panics. -/
def sendrecvHanded (msgId : UInt64) (host : String) (port : UInt16) (request : ZPack) : List Bytes :=
  match parseAddr (host ++ ":" ++ port.toNat.repr) with
  | .error _ => []
  | .ok _ =>
    if DEFAULT_CHUNK_THRESHOLD < c.encodedLen request then
      match checkedChunkMessage msgId (c.encode request) CHUNK_PAYLOAD_SIZE with
      | none => []
      | some chunks => handed accepts (chunks.map Chunk.data)
    else handed accepts [encodeMessage c request]

/-- What `send_only` does. -/
def sendOnlyHanded (host : String) (port : UInt16) (request : ZPack) : List Bytes :=
  match parseAddr (host ++ ":" ++ port.toNat.repr) with
  | .error _ => []
  | .ok _ => handed accepts [encodeMessage c request]

end UdpProxy

theorem mem_of_mem_handed {d : Bytes} :
    ∀ {accepts : Nat → Bytes → Bool} {datagrams : List Bytes}, d ∈ handed accepts datagrams → d ∈ datagrams
  | _, [], h => h
  | accepts, d' :: ds, h => by
    rw [handed] at h
    rcases List.mem_cons.1 h with rfl | h
    · exact List.mem_cons_self
    split at h
    · exact List.mem_cons_of_mem _ (mem_of_mem_handed h)
    · cases h

/-- The first datagram is always tried. -/
theorem handed_singleton (accepts : Nat → Bytes → Bool) (d : Bytes) : handed accepts [d] = [d] := by
  unfold handed
  split <;> rfl

/-- What goes out of what is handed to the socket. -/
theorem sendAll_eq_handed :
    ∀ datagrams : List Bytes, (sendAll datagrams).1 = (handed ipv4Accepts datagrams).filter (ipv4Accepts 0)
  | [] => rfl
  | d :: ds => by
    have ih := sendAll_eq_handed ds
    unfold sendAll sendTo
    by_cases hd : d.length ≤ UDP_MAX_DATAGRAM
    · have haccepts : ipv4Accepts 0 d = true := decide_eq_true hd
      rw [if_pos hd, handed, if_pos haccepts, List.filter_cons_of_pos haccepts]
      exact congrArg (d :: ·) ih
    · have hrefuses : ¬ ipv4Accepts 0 d = true := fun h => hd (of_decide_eq_true h)
      rw [if_neg hd, handed, if_neg hrefuses, List.filter_cons_of_neg hrefuses]
      rfl

namespace UdpProxy

variable (c : Codec) {α : Type} (parseAddr : String → Except String α) (host : String) (port : UInt16)
  (request : ZPack)

/-- What `sendrecv` sends is what gets out of what it hands to the socket, a message that is too long to
be counted apart. -/
theorem sendrecv_eq_handed (msgId : UInt64) (received : Received)
    (h : c.encodedLen request + CHUNK_PAYLOAD_SIZE < 2 ^ 64) :
    (sendrecv c parseAddr msgId host port request received).1 =
      (sendrecvHanded c parseAddr ipv4Accepts msgId host port request).filter (ipv4Accepts 0) := by
  unfold sendrecvHanded
  cases hparse : parseAddr (host ++ ":" ++ port.toNat.repr) with
  | error e =>
    unfold sendrecv
    rw [hparse]
    rfl
  | ok addr =>
    simp only
    by_cases hchunked : DEFAULT_CHUNK_THRESHOLD < c.encodedLen request
    · rw [sent_chunked c msgId received hparse hchunked, if_pos hchunked, checkedChunkMessage_eq, if_pos (.inr h),
        sendAll_eq_handed]
    · rw [sent_framed c msgId received hparse (Nat.le_of_not_lt hchunked), if_neg hchunked, sendAll_eq_handed]

theorem sendOnly_eq_handed :
    (sendOnly c parseAddr host port request).1 =
      (sendOnlyHanded c parseAddr ipv4Accepts host port request).filter (ipv4Accepts 0) := by
  unfold sendOnly sendOnlyHanded
  cases parseAddr (host ++ ":" ++ port.toNat.repr) with
  | error e => rfl
  | ok addr => exact sendAll_eq_handed _

end UdpProxy

/-! ## What fits -/

theorem length_repr_le {n : Nat} (h : n < 2 ^ 64) : n.repr.length ≤ 20 :=
  (Nat.length_repr_le_iff (by decide)).2 (Nat.lt_of_lt_of_le h (by decide))

/-- Whatever its numbers, a chunk of the default size is far shorter than a datagram. -/
theorem length_chunk_le {msgId : UInt64} {data : Bytes} {chunks : List Chunk}
    (h : checkedChunkMessage msgId data CHUNK_PAYLOAD_SIZE = some chunks) {chunk : Chunk} (hmem : chunk ∈ chunks) :
    chunk.data.length ≤ UDP_MAX_DATAGRAM := by
  rw [checkedChunkMessage_eq] at h
  split at h
  · next hfits =>
    cases h
    obtain ⟨seq, hseq, rfl⟩ := mem_chunkMessage.1 hmem
    have htotal : chunkTotal data.length CHUNK_PAYLOAD_SIZE < 2 ^ 64 := by
      unfold chunkTotal
      split
      · decide
      · next hpos =>
        rcases hfits with rfl | hlen
        · exact absurd rfl hpos
        · exact Nat.lt_of_le_of_lt (Nat.div_le_self _ _) (by omega)
    have hpayload := length_chunkPayload_le data CHUNK_PAYLOAD_SIZE seq
    have hid := length_repr_le (UInt64.toNat_lt msgId)
    have hseqlen := length_repr_le (Nat.lt_trans hseq htotal)
    have htotallen := length_repr_le htotal
    rw [CHUNK_PAYLOAD_SIZE] at hpayload
    have hsize := length_repr_le (Nat.lt_of_le_of_lt hpayload (by decide))
    simp only [List.length_append, chunkHeader, Decimal.length_padStart_repr_eq_max,
      Decimal.length_padEnd_repr_eq_max, UDP_MAX_DATAGRAM, CHUNK_PAYLOAD_SIZE] at *
    omega
  · cases h

section Fits

variable (c : Codec) {α : Type} (parseAddr : String → Except String α) (accepts : Nat → Bytes → Bool)
  (msgId : UInt64) (host : String) (port : UInt16) (request : ZPack)

/-- A frame fits a datagram if its encoding and the length prefix do. -/
theorem frame_fits_iff :
    (∀ d ∈ handed accepts [encodeMessage c request], d.length ≤ UDP_MAX_DATAGRAM) ↔
      c.encodedLen request + 4 ≤ UDP_MAX_DATAGRAM := by
  rw [handed_singleton, List.forall_mem_singleton, length_encodeMessage, Nat.add_comm]

/-- For every request, socket and message id: all that `sendrecv` hands to the socket fits a datagram
exactly if the address is refused, the frame fits, or the request is long enough to be chunked; all that
`send_only` hands over, exactly if the address is refused or the frame fits. -/
theorem datagrams_fit_iff :
    ((∀ d ∈ UdpProxy.sendrecvHanded c parseAddr accepts msgId host port request, d.length ≤ UDP_MAX_DATAGRAM) ↔
      (∃ e, parseAddr (host ++ ":" ++ port.toNat.repr) = .error e) ∨
        c.encodedLen request + 4 ≤ UDP_MAX_DATAGRAM ∨ DEFAULT_CHUNK_THRESHOLD < c.encodedLen request) ∧
      ((∀ d ∈ UdpProxy.sendOnlyHanded c parseAddr accepts host port request, d.length ≤ UDP_MAX_DATAGRAM) ↔
        (∃ e, parseAddr (host ++ ":" ++ port.toNat.repr) = .error e) ∨
          c.encodedLen request + 4 ≤ UDP_MAX_DATAGRAM) := by
  unfold UdpProxy.sendrecvHanded UdpProxy.sendOnlyHanded
  cases parseAddr (host ++ ":" ++ port.toNat.repr) with
  | error e => simp
  | ok addr =>
    simp only [reduceCtorEq, exists_false, false_or]
    refine ⟨?_, frame_fits_iff c accepts request⟩
    by_cases hchunked : DEFAULT_CHUNK_THRESHOLD < c.encodedLen request
    · rw [if_pos hchunked]
      refine iff_of_true ?_ (.inr hchunked)
      intro d hd
      split at hd
      · cases hd
      · next chunks hchunks =>
        obtain ⟨chunk, hmem, rfl⟩ := List.mem_map.1 (mem_of_mem_handed hd)
        exact length_chunk_le hchunks hmem
    · rw [if_neg hchunked, frame_fits_iff]
      simp only [hchunked, or_false]

end Fits

/-- A value of 100,000 bytes: not long enough to be chunked, too long for a datagram. -/
def mediumInsert : ZPack :=
  { opcode := utf8Bytes OPC_INSERT, key := [0x6b], val := List.replicate 100000 0x76 }

/-- Neither call hands over something that fits. -/
theorem medium_insert_too_long :
    ¬ (∀ d ∈ UdpProxy.sendrecvHanded .protobuf (fun _ => Except.ok ()) ipv4Accepts 1 "127.0.0.1" 50000 mediumInsert,
        d.length ≤ UDP_MAX_DATAGRAM) ∧
      ¬ ∀ d ∈ UdpProxy.sendOnlyHanded .protobuf (fun _ => Except.ok ()) ipv4Accepts "127.0.0.1" 50000 mediumInsert,
        d.length ≤ UDP_MAX_DATAGRAM := by
  have hlen : (List.replicate 100000 (0x76 : UInt8)).length = 100000 := List.length_replicate
  have hvarint : (encodeVarint 100000).length ≤ 3 := length_varintFrom_of_lt (k := 2) (by decide)
  have henc := encodedLen_insert (List.ne_nil_of_length_eq_add_one hlen)
  rw [hlen] at henc
  have hframed : ¬ DEFAULT_CHUNK_THRESHOLD < Codec.protobuf.encodedLen mediumInsert := by
    rw [mediumInsert, henc, DEFAULT_CHUNK_THRESHOLD]
    omega
  have hlong : ¬ Codec.protobuf.encodedLen mediumInsert + 4 ≤ UDP_MAX_DATAGRAM := by
    rw [mediumInsert, henc, UDP_MAX_DATAGRAM]
    omega
  constructor
  · unfold UdpProxy.sendrecvHanded
    simp only
    rw [if_neg hframed, frame_fits_iff]
    exact hlong
  · unfold UdpProxy.sendOnlyHanded
    simp only
    rw [frame_fits_iff]
    exact hlong

/-! ## Frames and chunks -/

namespace UdpServer

variable {ζ : Type} (c : Codec) (handle : ζ → ZPack → ZPack × ζ)

/-- What `run` does with a datagram that is no frame. -/
def onChunk (s : UdpServer ζ) (datagram : Bytes) : Option (Option Handled × UdpServer ζ) :=
  match s.chunkReceiver.receive datagram with
  | none => none
  | some (.ok (some assembled), chunkReceiver) =>
    match decodeMessage c assembled with
    | .ok (request, _) => some ({ s with chunkReceiver }.process c handle request)
    | .error _ => some (none, { s with chunkReceiver })
  | some (.ok none, chunkReceiver) => some (none, { s with chunkReceiver })
  | some (.error _, chunkReceiver) => some (none, { s with chunkReceiver })

theorem onDatagram_of_error {s : UdpServer ζ} {datagram : Bytes} (hlen : datagram.length ≤ UDP_MAX_DATAGRAM)
    {e : ZhtError} (h : decodeMessage c datagram = .error e) :
    s.onDatagram c handle datagram = s.onChunk c handle datagram := by
  have hrecv : recvFrom datagram = datagram := List.take_of_length_le hlen
  rw [onDatagram, hrecv, h]
  rfl

end UdpServer

/-- A chunk of any message, in any chunk size, that fits a datagram is no frame, and the server gives it
to its chunk receiver. -/
theorem chunk_not_framed (c : Codec) {ζ : Type} (handle : ζ → ZPack → ZPack × ζ) (s : UdpServer ζ) (msgId : UInt64)
    (data : Bytes) (size : Nat) (chunk : Chunk) (hchunk : chunk ∈ chunkMessage msgId data size)
    (hlen : chunk.data.length ≤ UDP_MAX_DATAGRAM) :
    (∃ e, decodeMessage c chunk.data = .error e) ∧
      s.onDatagram c handle chunk.data = s.onChunk c handle chunk.data := by
  obtain ⟨seq, -, rfl⟩ := mem_chunkMessage.1 hchunk
  obtain ⟨e, he⟩ := decodeMessage_chunkHeader c msgId hlen
  exact ⟨⟨e, he⟩, UdpServer.onDatagram_of_error c handle hlen he⟩

/-- Message id zero: its field is nineteen spaces and a digit. -/
theorem chunk_not_framed_zero :
    ∃ e, decodeMessage .protobuf (chunkHeader 0 0 1 3 ++ [1, 2, 3]) = .error e :=
  (chunk_not_framed .protobuf HTWorker.process (UdpServer.new (HTWorker.new NoVoHT.new)) 0 [1, 2, 3] 512
    ⟨chunkHeader 0 0 1 3 ++ [1, 2, 3], 0, 1⟩ (by decide) (by decide)).1

end Zht
