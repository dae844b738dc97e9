/-
`ChunkReceiver`: chunks of many messages, in any order and repeated, collected by message id until
a message is complete. The reference is the history of arrivals: a message is complete once each of
its chunks has arrived. `receive_reassembles` is the refinement over every admissible sequence.
-/
import Zht.Lib.HashMap
import Zht.Lib.Machine
import Zht.Transport.Chunking

namespace Zht

open Lib

/-! ## The receiver -/

structure ChunkReassembler where
  chunks : HashMap Nat Bytes
  total : Nat
  msgId : Nat
  fullSize : Nat

namespace ChunkReassembler

def new (msgId total fullSize : Nat) : ChunkReassembler := { chunks := ∅, total, msgId, fullSize }

def isComplete (r : ChunkReassembler) : Bool := r.chunks.keys.card = r.total

/-- Whether that was the last chunk, and the chunk stored over any copy of it. -/
def insert (r : ChunkReassembler) (seqNum : Nat) (payload : Bytes) : Bool × ChunkReassembler :=
  let r := { r with chunks := r.chunks.insert seqNum payload }
  (r.isComplete, r)

/-- `none` for a panic: not complete, or a sequence number is missing. -/
def reassemble (r : ChunkReassembler) : Option Bytes :=
  if r.isComplete then ((List.range r.total).mapM r.chunks.lookup).map List.flatten else none

end ChunkReassembler

/-- The incomplete messages by id, and the chunk counter of the metrics when some are attached. -/
structure ChunkReceiver where
  inflight : HashMap Nat ChunkReassembler
  metrics : Option UInt64

namespace ChunkReceiver

def new : ChunkReceiver := { inflight := ∅, metrics := none }

/-- The message's reassembler, or a new one, of a size estimated from the total. -/
def reassemblerFor (r : ChunkReceiver) (msgId total : Nat) : ChunkReassembler :=
  match r.inflight.lookup msgId with
  | some reassembler => reassembler
  | none => ChunkReassembler.new msgId total (total * CHUNK_PAYLOAD_SIZE)

/-- `none` for a panic. -/
def receive (r : ChunkReceiver) (raw : Bytes) : Option (ZhtResult (Option Bytes) × ChunkReceiver) :=
  match parseChunk raw with
  | .error e => some (.error e, r)
  | .ok (msgId, seqNum, total, payload) =>
    let metrics := r.metrics.map (· + 1)
    let inserted := (r.reassemblerFor msgId total).insert seqNum payload
    if inserted.1 then
      -- the message leaves the table before it is put together
      inserted.2.reassemble.map fun bytes => (.ok (some bytes), { inflight := r.inflight.erase msgId, metrics })
    else some (.ok none, { inflight := r.inflight.insert msgId inserted.2, metrics })

def inflightCount (r : ChunkReceiver) : Nat := r.inflight.keys.card

end ChunkReceiver

/-! ## Messages and arrivals -/

/-- A message that is cut into at most 9,999,999 chunks. -/
structure Message where
  id : UInt64
  data : Bytes
  fits : chunkTotal data.length CHUNK_PAYLOAD_SIZE ≤ 9999999
  deriving DecidableEq

namespace Message

/-- The number of its chunks. -/
def total (m : Message) : Nat := chunkTotal m.data.length CHUNK_PAYLOAD_SIZE

def chunks (m : Message) : List Chunk := chunkMessage m.id m.data CHUNK_PAYLOAD_SIZE

/-- The payload of its chunk `seq`. -/
def payload (m : Message) (seq : Nat) : Bytes := chunkPayload m.data CHUNK_PAYLOAD_SIZE seq

end Message

/-- The arrival of one chunk of a message. -/
abbrev Arrival := Message × Nat

/-- What arrives on the wire. -/
def datagram (a : Arrival) : Bytes :=
  match a.1.chunks[a.2]? with
  | some chunk => chunk.data
  | none => []

/-- Every chunk of the message has arrived. -/
def Complete (m : Message) (history : List Arrival) : Prop := ∀ seq < m.total, (m, seq) ∈ history

/-- Some chunk has arrived, but not every one. -/
def Partial (m : Message) (history : List Arrival) : Prop :=
  (∃ seq < m.total, (m, seq) ∈ history) ∧ ¬ Complete m history

instance (m : Message) (history : List Arrival) : Decidable (Complete m history) :=
  inferInstanceAs (Decidable (∀ seq < m.total, (m, seq) ∈ history))

instance (m : Message) (history : List Arrival) : Decidable (Partial m history) :=
  inferInstanceAs (Decidable ((∃ seq < m.total, (m, seq) ∈ history) ∧ ¬ Complete m history))

/-- The reference: the message exactly when its last missing chunk arrives. -/
def arrive (history : List Arrival) (a : Arrival) : ZhtResult (Option Bytes) × List Arrival :=
  (.ok (if Complete a.1 (history ++ [a]) then some a.1.data else none), history ++ [a])

/-- A chunk of one of the messages, which is not complete yet. -/
def Admissible (messages : List Message) (history : List Arrival) (a : Arrival) : Prop :=
  a.1 ∈ messages ∧ a.2 < a.1.total ∧ ¬ Complete a.1 history

instance (messages : List Message) (history : List Arrival) (a : Arrival) :
    Decidable (Admissible messages history a) :=
  inferInstanceAs (Decidable (a.1 ∈ messages ∧ a.2 < a.1.total ∧ ¬ Complete a.1 history))

theorem history_after (history arrivals : List Arrival) :
    Machine.after arrive history arrivals = history ++ arrivals := by
  induction arrivals generalizing history with
  | nil => exact (List.append_nil history).symm
  | cons a arrivals ih => rw [Machine.after_cons, ih, arrive, List.append_assoc, List.singleton_append]

/-! ## A datagram is parsed as the chunk it carries -/

theorem chunk_size_pos : 0 < CHUNK_PAYLOAD_SIZE := by decide

theorem datagram_eq {a : Arrival} (h : a.2 < a.1.total) :
    datagram a = chunkHeader a.1.id a.2 a.1.total (a.1.payload a.2).length ++ a.1.payload a.2 := by
  have hlen : a.2 < a.1.chunks.length := by
    unfold Message.chunks
    rw [length_chunkMessage]
    exact h
  unfold datagram
  rw [List.getElem?_eq_getElem hlen]
  exact getElem_chunkMessage _ _ _ _ _

theorem Message.total_lt (m : Message) : m.total < 10 ^ 7 := Nat.lt_succ_of_le m.fits

theorem Message.length_payload_lt (m : Message) (seq : Nat) : (m.payload seq).length < 10 ^ 4 :=
  Nat.lt_of_le_of_lt (length_chunkPayload_le _ _ _) (by decide)

theorem parseChunk_datagram {a : Arrival} (h : a.2 < a.1.total) :
    parseChunk (datagram a) = .ok (a.1.id.toNat, a.2, a.1.total, a.1.payload a.2) := by
  have htotal := a.1.total_lt
  rw [datagram_eq h, parseChunk_chunk a.1.id (Nat.lt_trans h htotal) htotal (a.1.length_payload_lt a.2)]

/-! ## The invariant -/

/-- The chunks of a message that a reassembler holds are those of the history. -/
structure Holds (r : ChunkReassembler) (m : Message) (history : List Arrival) : Prop where
  total : r.total = m.total
  chunks : ∀ seq, r.chunks.lookup seq = if (m, seq) ∈ history then some (m.payload seq) else none

/-- Every arrival is a chunk of its message. -/
def WellNumbered (history : List Arrival) : Prop := ∀ a ∈ history, a.2 < a.1.total

namespace Holds

variable {r : ChunkReassembler} {m : Message} {history : List Arrival}

theorem mem_keys (h : Holds r m history) (seq : Nat) : seq ∈ r.chunks.keys ↔ (m, seq) ∈ history := by
  rw [Finmap.mem_keys, ← Finmap.lookup_isSome, h.chunks]
  split <;> simp [*]

/-- Counting detects completion, as no number beyond the total is held. -/
theorem isComplete_iff (h : Holds r m history) (hw : WellNumbered history) :
    r.isComplete = true ↔ Complete m history := by
  have hsub : r.chunks.keys ⊆ Finset.range m.total := by
    intro seq hseq
    rw [Finset.mem_range]
    exact hw _ ((h.mem_keys seq).1 hseq)
  have hcard : (Finset.range m.total).card = r.total := by rw [Finset.card_range, h.total]
  unfold ChunkReassembler.isComplete
  rw [decide_eq_true_iff, ← hcard]
  constructor
  · intro he seq hseq
    have hall := Finset.eq_of_subset_of_card_le hsub (Nat.le_of_eq he.symm)
    rw [← h.mem_keys, hall, Finset.mem_range]
    exact hseq
  · intro hc
    congr 1
    refine Finset.Subset.antisymm hsub fun seq hseq => ?_
    rw [h.mem_keys]
    exact hc seq (Finset.mem_range.1 hseq)

/-- A complete message is put together again. -/
theorem reassemble (h : Holds r m history) (hw : WellNumbered history) (hc : Complete m history) :
    r.reassemble = some m.data := by
  have hlookup : (List.range r.total).mapM r.chunks.lookup = some ((List.range m.total).map m.payload) := by
    rw [h.total]
    refine HashMap.mapM_lookup fun seq hseq => ?_
    rw [h.chunks, if_pos (hc seq (List.mem_range.1 hseq))]
  unfold ChunkReassembler.reassemble
  rw [if_pos ((h.isComplete_iff hw).2 hc), hlookup]
  exact congrArg some (chunkPayloads_join chunk_size_pos m.data)

theorem insert (h : Holds r m history) (seq : Nat) :
    Holds (r.insert seq (m.payload seq)).2 m (history ++ [(m, seq)]) := by
  refine ⟨h.total, fun s => ?_⟩
  by_cases hs : s = seq
  · subst hs
    rw [if_pos (List.mem_append_right _ (List.mem_singleton_self _))]
    exact Finmap.lookup_insert _
  · have hmem : (m, s) ∈ history ++ [(m, seq)] ↔ (m, s) ∈ history := by simp [hs]
    simp only [hmem]
    rw [← h.chunks]
    exact Finmap.lookup_insert_of_ne _ hs

theorem new {total : Nat} (ht : total = m.total) (hno : ∀ seq, (m, seq) ∉ history) (msgId fullSize : Nat) :
    Holds (ChunkReassembler.new msgId total fullSize) m history :=
  ⟨ht, fun seq => by rw [if_neg (hno seq)]; exact Finmap.lookup_empty seq⟩

end Holds

theorem mem_concat_of_ne {m m' : Message} (hne : m' ≠ m) {history : List Arrival} {seq s : Nat} :
    (m', s) ∈ history ++ [(m, seq)] ↔ (m', s) ∈ history := by
  simp [hne]

/-- An arrival leaves the other messages as they were. -/
theorem partial_of_ne {m m' : Message} (hne : m' ≠ m) (history : List Arrival) (seq : Nat) :
    Partial m' (history ++ [(m, seq)]) ↔ Partial m' history := by
  simp only [Partial, Complete, mem_concat_of_ne hne]

theorem Holds.of_ne {r : ChunkReassembler} {m m' : Message} (hne : m' ≠ m) {history : List Arrival}
    (h : Holds r m' history) (seq : Nat) : Holds r m' (history ++ [(m, seq)]) :=
  ⟨h.total, fun s => by simp only [mem_concat_of_ne hne]; exact h.chunks s⟩

/-- In flight are the messages of which some chunk has arrived, but not every one, each with its
chunks. -/
structure Tracks (messages : List Message) (r : ChunkReceiver) (history : List Arrival) : Prop where
  numbered : WellNumbered history
  known : ∀ m ∈ messages, Partial m history →
    ∃ reassembler, r.inflight.lookup m.id.toNat = some reassembler ∧ Holds reassembler m history
  others : ∀ id, (∀ m ∈ messages, m.id.toNat = id → ¬ Partial m history) → r.inflight.lookup id = none

namespace Tracks

variable {messages : List Message} {r : ChunkReceiver} {history : List Arrival}

theorem empty (messages : List Message) : Tracks messages ChunkReceiver.new [] where
  numbered := by intro a ha; cases ha
  known := by
    rintro m - ⟨⟨seq, -, hmem⟩, -⟩
    cases hmem
  others := fun id _ => Finmap.lookup_empty id

theorem id_inj (hids : (messages.map Message.id).Nodup) {m m' : Message} (hm : m ∈ messages) (hm' : m' ∈ messages)
    (h : m'.id.toNat = m.id.toNat) : m' = m :=
  List.inj_on_of_nodup_map hids hm' hm (UInt64.toNat_inj.1 h)

/-- The reassembler a chunk of an incomplete message goes to holds the chunks that arrived before. -/
theorem target (h : Tracks messages r history) (hids : (messages.map Message.id).Nodup) {m : Message}
    (hm : m ∈ messages) (hc : ¬ Complete m history) :
    Holds (r.reassemblerFor m.id.toNat m.total) m history := by
  unfold ChunkReceiver.reassemblerFor
  by_cases hp : Partial m history
  · obtain ⟨reassembler, hl, hh⟩ := h.known m hm hp
    rw [hl]
    exact hh
  · have hl : r.inflight.lookup m.id.toNat = none := h.others _ fun m' hm' he => id_inj hids hm hm' he ▸ hp
    rw [hl]
    refine Holds.new rfl (fun seq hmem => hp ⟨⟨seq, h.numbered _ hmem, hmem⟩, hc⟩) _ _

/-- One admissible arrival is answered as the reference does. -/
theorem step (h : Tracks messages r history) (hids : (messages.map Message.id).Nodup) {a : Arrival}
    (ha : Admissible messages history a) :
    ∃ r', r.receive (datagram a) = some ((arrive history a).1, r') ∧ Tracks messages r' (arrive history a).2 := by
  obtain ⟨m, seq⟩ := a
  obtain ⟨hm, hseq, hc⟩ := ha
  have htarget := (h.target hids hm hc).insert seq
  have hnumbered : WellNumbered (history ++ [(m, seq)]) := by
    intro a ha
    rcases List.mem_append.1 ha with ha | ha
    · exact h.numbered a ha
    · rw [List.mem_singleton.1 ha]
      exact hseq
  have hiff : ((r.reassemblerFor m.id.toNat m.total).insert seq (m.payload seq)).1 = true ↔ _ :=
    htarget.isComplete_iff hnumbered
  simp only [ChunkReceiver.receive, parseChunk_datagram hseq, arrive]
  -- either the chunk is the last one missing, and the message goes, or it stays in flight
  by_cases hdone : Complete m (history ++ [(m, seq)])
  · rw [if_pos (hiff.2 hdone), if_pos hdone, htarget.reassemble hnumbered hdone]
    refine ⟨_, rfl, hnumbered, fun m' hm' hp => ?_, fun id hid => ?_⟩
    · have hne : m' ≠ m := by
        rintro rfl
        exact hp.2 hdone
      obtain ⟨reassembler, hl, hh⟩ := h.known m' hm' ((partial_of_ne hne history seq).1 hp)
      refine ⟨reassembler, ?_, hh.of_ne hne seq⟩
      rw [← hl]
      exact Finmap.lookup_erase_ne fun e => hne (id_inj hids hm hm' e)
    · by_cases he : id = m.id.toNat
      · subst he
        exact Finmap.lookup_erase _ _
      · refine (Finmap.lookup_erase_ne he).trans (h.others id fun m' hm' he' hp => ?_)
        have hne : m' ≠ m := by
          rintro rfl
          exact he he'.symm
        exact hid m' hm' he' ((partial_of_ne hne history seq).2 hp)
  · rw [if_neg fun e => hdone (hiff.1 e), if_neg hdone]
    have hpartial : Partial m (history ++ [(m, seq)]) :=
      ⟨⟨seq, hseq, List.mem_append_right _ (List.mem_singleton_self _)⟩, hdone⟩
    refine ⟨_, rfl, hnumbered, fun m' hm' hp => ?_, fun id hid => ?_⟩
    · by_cases hne : m' = m
      · subst hne
        exact ⟨_, Finmap.lookup_insert _, htarget⟩
      · obtain ⟨reassembler, hl, hh⟩ := h.known m' hm' ((partial_of_ne hne history seq).1 hp)
        refine ⟨reassembler, ?_, hh.of_ne hne seq⟩
        rw [← hl]
        exact Finmap.lookup_insert_of_ne _ fun e => hne (id_inj hids hm hm' e)
    · have he : id ≠ m.id.toNat := fun e => hid m hm e.symm hpartial
      refine (Finmap.lookup_insert_of_ne _ he).trans (h.others id fun m' hm' he' hp => ?_)
      have hne : m' ≠ m := by
        rintro rfl
        exact he he'.symm
      exact hid m' hm' he' ((partial_of_ne hne history seq).2 hp)

/-- The count is that of the messages received in part. -/
theorem inflightCount (h : Tracks messages r history) (hids : (messages.map Message.id).Nodup) :
    r.inflightCount = (messages.filter (fun m => Partial m history)).length := by
  have hkeys : r.inflight.keys = ((messages.filter (fun m => Partial m history)).map (·.id.toNat)).toFinset := by
    ext id
    rw [Finmap.mem_keys, ← Finmap.lookup_isSome, List.mem_toFinset, List.mem_map]
    constructor
    · intro hs
      by_contra hno
      rw [h.others id fun m hm he hp => hno ⟨m, List.mem_filter.2 ⟨hm, by simpa using hp⟩, he⟩] at hs
      cases hs
    · rintro ⟨m, hmem, rfl⟩
      obtain ⟨hm, hp⟩ := List.mem_filter.1 hmem
      obtain ⟨reassembler, hl, -⟩ := h.known m hm (by simpa using hp)
      rw [hl]
      rfl
  have hnodup : ((messages.filter (fun m => Partial m history)).map (·.id.toNat)).Nodup := by
    have hmap := (hids.map fun a b e => UInt64.toNat_inj.1 e : ((messages.map Message.id).map UInt64.toNat).Nodup)
    rw [List.map_map] at hmap
    exact hmap.sublist (List.filter_sublist.map _)
  rw [ChunkReceiver.inflightCount, hkeys, List.toFinset_card_of_nodup hnodup, List.length_map]

end Tracks

/-! ## The chunks of one message in order -/

/-- The first `n` chunks of a message. -/
def inOrder (m : Message) (n : Nat) : List Arrival := (List.range n).map fun seq => (m, seq)

theorem inOrder_succ (m : Message) (n : Nat) : inOrder m (n + 1) = inOrder m n ++ [(m, n)] := by
  simp [inOrder, List.range_succ]

theorem Message.total_pos (m : Message) : 0 < m.total := chunkTotal_pos chunk_size_pos _

theorem complete_inOrder (m : Message) (n : Nat) : Complete m (inOrder m n) ↔ m.total ≤ n := by
  have hmem : ∀ seq, (m, seq) ∈ inOrder m n ↔ seq < n := by
    intro seq
    simp [inOrder]
  simp only [Complete, hmem]
  constructor
  · intro h
    have hlast := h (m.total - 1) (Nat.sub_lt m.total_pos Nat.zero_lt_one)
    omega
  · intro h seq hseq
    exact Nat.lt_of_lt_of_le hseq h

theorem along_inOrder (m : Message) {n : Nat} (h : n ≤ m.total) :
    Machine.Along arrive (Admissible [m]) [] (inOrder m n) := by
  induction n with
  | zero => trivial
  | succ n ih =>
    rw [inOrder_succ, Machine.along_append, history_after, List.nil_append]
    refine ⟨ih (by omega), ⟨List.mem_singleton_self m, h, ?_⟩, trivial⟩
    show ¬ Complete m (inOrder m n)
    rw [complete_inOrder]
    omega

/-- Before the last chunk nothing is returned. -/
theorem outputs_inOrder (m : Message) {n : Nat} (h : n < m.total) :
    Machine.outputs arrive [] (inOrder m n) = List.replicate n (.ok none) := by
  induction n with
  | zero => rfl
  | succ n ih =>
    have hnot : ¬ Complete m (inOrder m n ++ [(m, n)]) := by
      rw [← inOrder_succ, complete_inOrder]
      omega
    rw [inOrder_succ, Machine.outputs_append, ih (by omega), history_after, List.nil_append, List.replicate_succ',
      Machine.outputs_cons, arrive, if_neg hnot]
    rfl

/-- A message whose chunks arrive in order comes out with the last one. -/
theorem receive_inOrder (m : Message) :
    ∃ r, Machine.tryRun (fun (r : ChunkReceiver) a => r.receive (datagram a)) ChunkReceiver.new (inOrder m m.total) =
      some (List.replicate (m.total - 1) (.ok none) ++ [.ok (some m.data)], r) := by
  have hids : ([m].map Message.id).Nodup := List.nodup_singleton _
  have hstep : ∀ r history a, Tracks [m] r history → Admissible [m] history a →
      ∃ r', r.receive (datagram a) = some ((arrive history a).1, r') ∧ Tracks [m] r' (arrive history a).2 :=
    fun r history a htracks ha => htracks.step hids ha
  obtain ⟨r, hrun, -⟩ := Machine.tryRun_refines hstep (Tracks.empty [m]) (along_inOrder m (Nat.le_refl _))
  obtain ⟨last, hlast⟩ := Nat.exists_eq_succ_of_ne_zero (Nat.ne_of_gt m.total_pos)
  have hcomplete : Complete m (inOrder m last ++ [(m, last)]) := by
    rw [← inOrder_succ, complete_inOrder, hlast]
  refine ⟨r, ?_⟩
  rw [hrun, hlast, inOrder_succ, Machine.outputs_append, outputs_inOrder m (by omega), history_after, List.nil_append,
    Machine.outputs_cons, arrive, if_pos hcomplete]
  rfl

/-- Chunks of messages with distinct ids, interleaved, permuted and repeated in any way up to the
arrival of each message's last missing chunk: no arrival fails or panics, a message is returned
exactly at the arrival that completes it, and in flight are the messages received in part. -/
theorem receive_reassembles (messages : List Message) (hids : (messages.map Message.id).Nodup)
    (arrivals : List Arrival) (h : Machine.Along arrive (Admissible messages) [] arrivals) :
    ∃ r, Machine.tryRun (fun (r : ChunkReceiver) a => r.receive (datagram a)) ChunkReceiver.new arrivals =
        some (Machine.outputs arrive [] arrivals, r) ∧
      r.inflightCount = (messages.filter (fun m => Partial m arrivals)).length := by
  have hstep : ∀ r history a, Tracks messages r history → Admissible messages history a →
      ∃ r', r.receive (datagram a) = some ((arrive history a).1, r') ∧ Tracks messages r' (arrive history a).2 :=
    fun r history a htracks ha => htracks.step hids ha
  obtain ⟨r, hrun, htracks⟩ := Machine.tryRun_refines hstep (Tracks.empty messages) h
  refine ⟨r, hrun, ?_⟩
  rw [htracks.inflightCount hids, history_after]
  rfl

/-- A message of two chunks and an empty one. -/
def longMessage : Message := { id := 7, data := List.replicate 600 1, fits := by decide +kernel }

def emptyMessage : Message := { id := 8, data := [], fits := by decide }

/-- Interleaved, the second chunk first and repeated. -/
theorem receive_reassembles_two :
    ∃ r, Machine.tryRun (fun (r : ChunkReceiver) a => r.receive (datagram a)) ChunkReceiver.new
        [(longMessage, 1), (emptyMessage, 0), (longMessage, 1), (longMessage, 0)] =
      some ([.ok none, .ok (some []), .ok none, .ok (some (List.replicate 600 1))], r) ∧ r.inflightCount = 0 := by
  obtain ⟨r, hrun, hcount⟩ := receive_reassembles [longMessage, emptyMessage] (by decide)
    [(longMessage, 1), (emptyMessage, 0), (longMessage, 1), (longMessage, 0)] (by decide +kernel)
  have houtputs : Machine.outputs arrive [] [(longMessage, 1), (emptyMessage, 0), (longMessage, 1), (longMessage, 0)] =
      [.ok none, .ok (some []), .ok none, .ok (some (List.replicate 600 1))] := by decide +kernel
  have hpartial : ([longMessage, emptyMessage].filter (fun m =>
      Partial m [(longMessage, 1), (emptyMessage, 0), (longMessage, 1), (longMessage, 0)])).length = 0 := by
    decide +kernel
  exact ⟨r, by rw [hrun, houtputs], by rw [hcount, hpartial]⟩

end Zht
