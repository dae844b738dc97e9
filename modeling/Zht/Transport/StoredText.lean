/-
Keys and values as the worker keeps them. The wire carries bytes and the store carries text: a key or
a value that is not UTF-8 is stored as what it decodes to, with the malformed parts replaced. So a
value comes back byte for byte exactly when it is UTF-8, and two keys are kept apart exactly when
they decode to different texts (`stored_as_text`).
-/
import Mathlib.Data.String.Basic
import Zht.Lib.Machine
import Zht.Transport.Worker

namespace Zht

open Lib Lib.Utf8

/-- What a LOOKUP of the key is answered. -/
def HTWorker.lookupAnswer (w : HTWorker) (key : Bytes) : ZPack := (w.process { opcode := utf8Bytes OPC_LOOKUP, key }).1

section LookupAnswer

variable {k : Bytes} (hk : k ≠ [])

include hk

theorem lookupAnswer_eq (w : HTWorker) : w.lookupAnswer k =
    ((Command.lookup (fromUtf8Lossy k)).run w.store.map).1.toZPack { opcode := utf8Bytes OPC_LOOKUP, key := k } := by
  have hkey : fromUtf8Lossy k ≠ "" := fun e => hk (fromUtf8Lossy_eq_empty.1 e)
  have hcommand : Command.ofRequest { opcode := utf8Bytes OPC_LOOKUP, key := k } = .lookup (fromUtf8Lossy k) :=
    Command.ofRequest_lookup hkey (fromUtf8Lossy_utf8Bytes OPC_LOOKUP)
  unfold HTWorker.lookupAnswer
  rw [w.process_answer, hcommand]

/-- The answer shows what is stored under the decoded key, and nothing else. -/
theorem lookupAnswer_inj {v w : HTWorker} : v.lookupAnswer k = w.lookupAnswer k ↔
    v.store.map.lookup (fromUtf8Lossy k) = w.store.map.lookup (fromUtf8Lossy k) := by
  rw [lookupAnswer_eq hk, lookupAnswer_eq hk, Command.lookup_answer_iff]

theorem lookupAnswer_val {w : HTWorker} {value : String} (h : w.store.map.lookup (fromUtf8Lossy k) = some value) :
    (w.lookupAnswer k).val = utf8Bytes value := by
  rw [lookupAnswer_eq hk]
  simp only [Command.run, h, Reply.toZPack]

/-- A request changes what a LOOKUP of the key is answered exactly when it decodes to the same key and
changes the table. -/
theorem lookupAnswer_process_iff (w : HTWorker) (z : ZPack) : (w.process z).2.lookupAnswer k = w.lookupAnswer k ↔
    fromUtf8Lossy z.key ≠ fromUtf8Lossy k ∨ (Command.ofRequest z).Idle w.store.map := by
  rw [lookupAnswer_inj hk, w.process_map]
  by_cases hcommand : (Command.ofRequest z).key = some (fromUtf8Lossy k)
  · have hsame := Command.key_ofRequest hcommand
    rw [Command.run_lookup_eq_iff hcommand]
    constructor
    · exact .inr
    · rintro (h | h)
      · exact absurd hsame.symm h
      · exact h
  · rw [Command.run_frame _ _ hcommand]
    refine iff_of_true rfl ?_
    by_cases hsame : fromUtf8Lossy z.key = fromUtf8Lossy k
    · -- the request is about no key: its opcode is unknown
      refine .inr ?_
      cases hc : Command.ofRequest z with
      | emptyKey | unrecognized => trivial
      | lookup key | insert key _ | remove key | append key _ | compareSwap key _ _ | stateChangeCallback key _ _ =>
        have hkey : (Command.ofRequest z).key = some key := by rw [hc]; rfl
        rw [Command.key_ofRequest hkey, hsame] at hkey
        exact absurd hkey hcommand
    · exact .inl hsame

end LookupAnswer

/-- An INSERT is answered `000` and stores the text its value decodes to. A LOOKUP of the key then
returns that text's bytes, which are the value exactly when it is UTF-8. Any run of requests whose
keys decode to other texts leaves what a LOOKUP of the key is answered; and a single request changes
it exactly when its key decodes to the same text and it changes the table. -/
theorem stored_as_text (w : HTWorker) {k : Bytes} (hk : k ≠ []) :
    (∀ insert : ZPack, fromUtf8Lossy insert.opcode = OPC_INSERT → insert.key = k →
      (w.process insert).1.lease = utf8Bytes REC_SUCC ∧
        ((w.process insert).2.lookupAnswer k).val = utf8Bytes (fromUtf8Lossy insert.val) ∧
        (((w.process insert).2.lookupAnswer k).val = insert.val ↔ ∃ text, insert.val = utf8Bytes text)) ∧
      (∀ requests : List ZPack, (∀ z ∈ requests, fromUtf8Lossy z.key ≠ fromUtf8Lossy k) →
        (Machine.after HTWorker.process w requests).lookupAnswer k = w.lookupAnswer k) ∧
      ∀ z : ZPack, (w.process z).2.lookupAnswer k = w.lookupAnswer k ↔
        fromUtf8Lossy z.key ≠ fromUtf8Lossy k ∨ (Command.ofRequest z).Idle w.store.map := by
  refine ⟨?_, ?_, lookupAnswer_process_iff hk w⟩
  · rintro insert hop rfl
    have hkey : fromUtf8Lossy insert.key ≠ "" := fun e => hk (fromUtf8Lossy_eq_empty.1 e)
    have hcommand := Command.ofRequest_insert hkey hop
    have hmap : (w.process insert).2.store.map.lookup (fromUtf8Lossy insert.key) = some (fromUtf8Lossy insert.val) := by
      rw [w.process_map, hcommand]
      exact Finmap.lookup_insert _
    have hval := lookupAnswer_val hk hmap
    refine ⟨?_, hval, ?_⟩
    · rw [w.process_answer, hcommand]
      simp only [Command.run, Reply.toZPack]
    · rw [hval]
      constructor
      · intro h
        exact ⟨_, h.symm⟩
      · rintro ⟨text, htext⟩
        rw [htext, fromUtf8Lossy_utf8Bytes]
  · intro requests hrequests
    have hstep : ∀ (s : HTWorker) (z : ZPack), s.lookupAnswer k = w.lookupAnswer k →
        fromUtf8Lossy z.key ≠ fromUtf8Lossy k → (s.process z).2.lookupAnswer k = w.lookupAnswer k :=
      fun s z hs hz => ((lookupAnswer_process_iff hk s z).2 (.inl hz)).trans hs
    exact Machine.after_invariant (I := fun s : HTWorker => s.lookupAnswer k = w.lookupAnswer k) hstep rfl
      (Machine.along_of_forall hrequests)

/-- A key that is not UTF-8, a run with another one, and the same key again. -/
theorem stored_as_text_example :
    (HTWorker.process (HTWorker.new NoVoHT.new)
        { opcode := utf8Bytes OPC_INSERT, key := [0xff], val := [0x61] }).1.lease = utf8Bytes REC_SUCC ∧
      ((Machine.after HTWorker.process (HTWorker.new NoVoHT.new)
        [{ opcode := utf8Bytes OPC_REMOVE, key := [0x62] }]).lookupAnswer [0xff]).lease = utf8Bytes REC_NONEXISTKEY := by
  obtain ⟨hinsert, hrun, -⟩ := stored_as_text (HTWorker.new NoVoHT.new) (k := [0xff]) (by decide)
  refine ⟨(hinsert { opcode := utf8Bytes OPC_INSERT, key := [0xff], val := [0x61] } (by decide) rfl).1, ?_⟩
  have hother : ∀ z ∈ [({ opcode := utf8Bytes OPC_REMOVE, key := [0x62] } : ZPack)],
      fromUtf8Lossy z.key ≠ fromUtf8Lossy [0xff] := by decide
  exact (congrArg ZPack.lease (hrun _ hother)).trans (by decide)

/-- The value `ff` comes back as `ef bf bd`, and an INSERT under the key `fe` changes what the key `ff`
holds. -/
theorem bytes_not_stored :
    let insert (key val : Bytes) : ZPack := { opcode := utf8Bytes OPC_INSERT, key, val }
    let stored := (HTWorker.process (HTWorker.new NoVoHT.new) (insert [0xff] [0xff])).2
    (HTWorker.process (HTWorker.new NoVoHT.new) (insert [0xff] [0xff])).1.lease = utf8Bytes REC_SUCC ∧
      (stored.lookupAnswer [0xff]).val = [0xef, 0xbf, 0xbd] ∧
      (stored.process (insert [0xfe] [0x61])).2.lookupAnswer [0xff] ≠ stored.lookupAnswer [0xff] := by
  decide

end Zht
