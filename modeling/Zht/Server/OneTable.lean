/-
A server beside the one table its clients should see: the table it was started on, with every request
applied in order. The server agrees with it, in the table it keeps and in the answers to LOOKUP, as
long as no request changes the table and no LOOKUP asks for a key on which the worker's own table
differs; `one_table_iff` says that it agrees along no other run.
-/
import Mathlib.Data.String.Basic
import Zht.Lib.Machine
import Zht.Server.Server

namespace Zht

open Lib Lib.Utf8

/-! ## The server beside the table -/

/-- A server, and the table its clients should see. -/
structure Watched where
  server : ZHTServer
  table : Table

namespace Watched

/-- A request handled by the server and applied to the table. -/
def step (c : Codec) (p : Watched) (request : ZPack) : ZPack × Watched :=
  let handled := p.server.handleRequest c request
  (handled.1, ⟨handled.2, ((Command.ofRequest request).run p.table).2⟩)

/-- The request leaves the server's store equal to the table, and a LOOKUP is answered from it. -/
structure Agrees (c : Codec) (p : Watched) (request : ZPack) : Prop where
  store : (p.step c request).2.server.store.map = (p.step c request).2.table
  answer : ∀ key, Command.ofRequest request = .lookup key →
    (p.step c request).1 = ((Command.lookup key).run p.table).1.toZPack request

/-- The request changes nothing in the table, and a LOOKUP asks for a key on which the worker's own
table agrees with it. -/
structure Harmless (p : Watched) (request : ZPack) : Prop where
  idle : (Command.ofRequest request).Idle p.table
  known : ∀ key, Command.ofRequest request = .lookup key →
    p.server.worker.store.map.lookup key = p.table.lookup key

theorem agrees_iff_harmless (c : Codec) {p : Watched} (h : p.server.store.map = p.table) (request : ZPack) :
    p.Agrees c request ↔ p.Harmless request := by
  have hstore : (p.step c request).2.server.store.map = (p.step c request).2.table ↔
      (Command.ofRequest request).Idle p.table := by
    -- the server's store is the table before: a request never reaches it
    rw [step, ZHTServer.handleRequest_store, h, ← Command.run_eq_self_iff]
    exact eq_comm
  have hanswer : ∀ key, Command.ofRequest request = .lookup key →
      ((p.step c request).1 = ((Command.lookup key).run p.table).1.toZPack request ↔
        p.server.worker.store.map.lookup key = p.table.lookup key) := by
    intro key hkey
    rw [← Command.lookup_answer_iff, ← hkey]
    unfold step
    rw [p.server.handleRequest_answer]
  constructor
  · rintro ⟨hs, ha⟩
    exact ⟨hstore.1 hs, fun key hkey => (hanswer key hkey).1 (ha key hkey)⟩
  · rintro ⟨hi, hk⟩
    exact ⟨hstore.2 hi, fun key hkey => (hanswer key hkey).2 (hk key hkey)⟩

/-- Along a run, from a server whose store is the table. -/
theorem along_agrees_iff (c : Codec) {p : Watched} (h : p.server.store.map = p.table) (requests : List ZPack) :
    Machine.Along (step c) (Agrees c) p requests ↔ Machine.Along (step c) Harmless p requests := by
  induction requests generalizing p with
  | nil => exact Iff.rfl
  | cons request requests ih =>
    rw [Machine.along_cons, Machine.along_cons, agrees_iff_harmless c h]
    -- the rest of the run starts where the store is the table again
    refine and_congr_right fun hharmless => ih ?_
    exact ((agrees_iff_harmless c h request).2 hharmless).store

end Watched

/-- A server started on a table agrees with it along a run exactly when the run is harmless. -/
theorem one_table_iff (c : Codec) (now : Nat) (store : NoVoHT) (selfHost : HostEntity)
    (initialMembers : List HostEntity) (numReplicas replicationType : UInt32) (migrationEnabled : Bool)
    (requests : List ZPack) :
    let start : Watched :=
      ⟨.newWithStore now store selfHost initialMembers numReplicas replicationType migrationEnabled, store.map⟩
    Machine.Along (Watched.step c) (Watched.Agrees c) start requests ↔
      Machine.Along (Watched.step c) Watched.Harmless start requests :=
  Watched.along_agrees_iff c rfl requests

/-- A server started on a table with one pair does not find the pair, and does not store a pair it
acknowledges. -/
theorem two_tables :
    let start : Watched :=
      ⟨.newWithStore 0 (NoVoHT.new.put "k" "v").2 ⟨"0.0.0.0", 50000⟩ [] 0 0 true, (NoVoHT.new.put "k" "v").2.map⟩
    let lookup : ZPack := { opcode := utf8Bytes OPC_LOOKUP, key := utf8Bytes "k" }
    let insert : ZPack := { opcode := utf8Bytes OPC_INSERT, key := utf8Bytes "x", val := utf8Bytes "y" }
    ¬Machine.Along (Watched.step .protobuf) (Watched.Agrees .protobuf) start [lookup] ∧
      ¬Machine.Along (Watched.step .protobuf) (Watched.Agrees .protobuf) start [insert] ∧
        (start.step .protobuf lookup).1.lease = utf8Bytes REC_NONEXISTKEY ∧
        (start.step .protobuf insert).1.lease = utf8Bytes REC_SUCC ∧
        (start.step .protobuf insert).2.server.store.map.lookup "x" = none := by
  refine ⟨?_, ?_, by decide, by decide, by decide⟩
  · rintro ⟨⟨-, hanswer⟩, -⟩
    exact absurd (hanswer "k" (by decide)) (by decide)
  · rintro ⟨⟨hstore, -⟩, -⟩
    exact absurd (congrArg (Finmap.lookup "x") hstore) (by decide)

end Zht
