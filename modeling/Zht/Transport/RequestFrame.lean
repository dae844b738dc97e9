/-
What a request can change. A reply that is no success leaves the whole map, a success every entry but
that of the request's key, and only four of the operations write at all.
-/
import Zht.Transport.Worker

namespace Zht

open Lib Lib.Utf8

/-- The opcodes of the operations that write. -/
def WRITE_OPCODES : List String := [OPC_INSERT, OPC_REMOVE, OPC_APPEND, OPC_CMPSWP]

/-- The lease begins with the status of a success. -/
def LeaseSucceeds (lease : Bytes) : Prop := utf8Bytes REC_SUCC <+: lease

instance (lease : Bytes) : Decidable (LeaseSucceeds lease) := inferInstanceAs (Decidable (_ <+: _))

namespace Command

/-- A command that is not answered with a success leaves the map. -/
theorem run_of_failed (command : Command) {map : Table} (h : ¬ LeaseSucceeds (utf8Bytes (command.run map).1.lease)) :
    (command.run map).2 = map := by
  have hsucc : LeaseSucceeds (utf8Bytes REC_SUCC) := List.prefix_refl _
  cases command with
  | emptyKey | stateChangeCallback | unrecognized => rfl
  | lookup key =>
    simp only [run]
    cases map.lookup key <;> rfl
  | insert key value => exact absurd hsucc h
  | remove key =>
    cases hk : map.lookup key with
    | none => simp only [run, hk]
    | some value =>
      simp only [run, hk] at h
      exact absurd hsucc h
  | append key value => exact absurd hsucc h
  | compareSwap key expected newValue =>
    rw [run_compareSwap_map]
    apply NoVoHT.swapped_of_ne
    intro hs
    simp only [run, if_pos hs] at h
    exact absurd hsucc h

/-- A request without a key, or with an opcode that does not write, comes to a command that leaves
every map. -/
theorem run_of_readOnly {request : ZPack}
    (h : fromUtf8Lossy request.key = "" ∨ fromUtf8Lossy request.opcode ∉ WRITE_OPCODES) (map : Table) :
    ((ofRequest request).run map).2 = map := by
  by_cases hkey : fromUtf8Lossy request.key = ""
  · rw [ofRequest_emptyKey hkey]
    rfl
  · have hop := h.resolve_left hkey
    simp only [WRITE_OPCODES, List.mem_cons, List.not_mem_nil, or_false, not_or] at hop
    obtain ⟨hinsert, hremove, happend, hswap⟩ := hop
    simp only [ofRequest, hkey, hinsert, hremove, happend, hswap, ↓reduceIte]
    -- what is left are LOOKUP, the callback and the unrecognized opcodes
    split
    · simp only [run]
      cases map.lookup (fromUtf8Lossy request.key) <;> rfl
    · split <;> rfl

end Command

/-- For every store and request: without a success the map is what it was, with one every entry but
that of the request's key is, and a LOOKUP, a STATE_CHANGE_CALLBACK, an unrecognized opcode and an
empty key never change it. -/
theorem process_frame (w : HTWorker) (request : ZPack) :
    (¬ LeaseSucceeds (w.process request).1.lease → (w.process request).2.store.map = w.store.map) ∧
      (LeaseSucceeds (w.process request).1.lease → ∀ k, k ≠ fromUtf8Lossy request.key →
        (w.process request).2.store.map.lookup k = w.store.map.lookup k) ∧
      (fromUtf8Lossy request.key = "" ∨ fromUtf8Lossy request.opcode ∉ WRITE_OPCODES →
        (w.process request).2.store.map = w.store.map) := by
  rw [w.process_answer, w.process_map]
  refine ⟨(Command.ofRequest request).run_of_failed, fun _ k hk => ?_, fun h => Command.run_of_readOnly h _⟩
  exact (Command.ofRequest request).run_frame _ fun hkey => hk (Command.key_ofRequest hkey)

/-- A REMOVE of a key that is absent, an INSERT beside another entry and a LOOKUP. -/
theorem process_frame_example :
    let w := HTWorker.new { NoVoHT.new with map := (∅ : Table).insert "a" "1" }
    (w.process { opcode := utf8Bytes OPC_REMOVE, key := utf8Bytes "b" }).2.store.map = w.store.map ∧
      (w.process { opcode := utf8Bytes OPC_INSERT, key := utf8Bytes "b" }).2.store.map.lookup "a" =
        w.store.map.lookup "a" ∧
      (w.process { opcode := utf8Bytes OPC_LOOKUP, key := utf8Bytes "a" }).2.store.map = w.store.map :=
  ⟨(process_frame _ _).1 (by decide), (process_frame _ _).2.1 (by decide) "a" (by decide),
    (process_frame _ _).2.2 (by decide)⟩

end Zht
