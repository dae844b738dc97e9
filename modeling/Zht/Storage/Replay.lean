/-
The database file as a log. An operation is one call on the table; `exec` runs it. For the texts
the documented line format can represent, `LogInv` holds after every operation: the file is a list
of records whose replay is the map in memory. Hence reading the file back at any point, without a
flush, gives the map (`replay_after`), and a flush of any table at all is undone by reading exactly
when the table is representable (`flush_reload`).
-/
import Mathlib.Data.String.Basic
import Zht.Lib.Machine
import Zht.Storage.Format

namespace Zht

open Lib Lib.Utf8 Lib.Text

/-! ## Operations -/

inductive StoreOp
  | put (key value : String)
  | append (key value : String)
  | remove (key : String)
  | compareSwap (key expected newValue : String)
  | flush (ord : HashMap.Order String String)

/-- One call; `compare_swap` returns a value, the others return nothing. -/
def StoreOp.exec (s : NoVoHT) : StoreOp → ZhtResult (Option String) × NoVoHT
  | put key value => Prod.map (·.map fun _ => none) id (s.put key value)
  | append key value => Prod.map (·.map fun _ => none) id (s.append key value)
  | remove key => Prod.map (·.map fun _ => none) id (s.remove key)
  | compareSwap key expected newValue => Prod.map (·.map some) id (s.compareSwap key expected newValue)
  | flush ord => Prod.map (·.map fun _ => none) id (s.flush ord)

/-- A key of the documented line format. -/
structure DocumentedKey (key : String) : Prop where
  ne : key ≠ ""
  start : CleanStart key.toList
  «end» : CleanEnd key.toList
  tilde : key.toList.head? ≠ some '~'
  tab : '\t' ∉ key.toList
  newline : '\n' ∉ key.toList

instance (key : String) : Decidable (DocumentedKey key) :=
  decidable_of_iff (RepKey key ∧ CleanEnd key.toList)
    ⟨fun ⟨h, e⟩ => ⟨h.ne, h.start, e, h.tilde, h.tab, h.newline⟩,
      fun h => ⟨⟨h.ne, h.start, h.tilde, h.tab, h.newline⟩, h.end⟩⟩

theorem DocumentedKey.rep {key : String} (h : DocumentedKey key) : RepKey key :=
  ⟨h.ne, h.start, h.tilde, h.tab, h.newline⟩

/-- Every key passed and every value written is of the documented line format. -/
def StoreOp.Documented : StoreOp → Prop
  | put key value => DocumentedKey key ∧ RepValue value
  | append key value => DocumentedKey key ∧ RepValue value
  | remove key => DocumentedKey key
  | compareSwap key _ newValue => DocumentedKey key ∧ RepValue newValue
  | flush _ => True

instance (op : StoreOp) : Decidable op.Documented := by
  cases op <;> unfold StoreOp.Documented <;> infer_instance

/-! ## The invariant -/

/-- The table is backed by a file that takes every write and holds records whose replay is the map. -/
structure LogInv (s : NoVoHT) : Prop where
  persistent : s.persistent = true
  faults : s.file.faults = []
  log : ∃ records : List Record, s.file.bytes = records.flatMap Record.bytes ∧ replay records ∅ = s.map
  rep : Representable s.map

/-- Reading the file back gives the map. -/
theorem LogInv.read_back {s : NoVoHT} (h : LogInv s) : readFileFromReader ∅ s.file.bytes = s.map := by
  obtain ⟨records, hb, hr⟩ := h.log
  rw [hb, readFile_records, hr]

theorem LogInv.file_eq {s : NoVoHT} (h : LogInv s) : s.file = ⟨s.file.bytes, []⟩ := by
  rw [← h.faults]

/-- The file of a flushed table. -/
theorem LogInv.flush {s : NoVoHT} (hp : s.persistent = true) (hf : s.file.faults = []) (hr : Representable s.map)
    (ord : HashMap.Order String String) : LogInv (s.flush ord).2 := by
  unfold NoVoHT.flush
  rw [if_pos hp, DbFile.rewrite_of_no_faults hf]
  exact ⟨hp, rfl, exists_records_of_flush hr ord, hr⟩

/-- One more record, applied to the map and appended to the file. -/
theorem LogInv.write {s : NoVoHT} (h : LogInv s) (r : Record) (hrep : Representable (r.apply s.map)) :
    LogInv { s with map := r.apply s.map, file := s.file.append r.bytes } := by
  rw [DbFile.append_of_no_faults h.faults]
  refine ⟨h.persistent, rfl, ?_, hrep⟩
  obtain ⟨records, hb, hr⟩ := h.log
  refine ⟨records ++ [r], ?_, ?_⟩
  · rw [List.flatMap_append, List.flatMap_singleton, ← hb]
  · rw [replay_append, hr]
    rfl

theorem LogInv.writeEntry {s : NoVoHT} (h : LogInv s) {key value : String} (hk : RepKey key) (hv : RepValue value) :
    LogInv ({ s with map := s.map.insert key value }.writeEntry key value).2 := by
  have := h.write (.put key value hk hv) (h.rep.insert hk hv)
  unfold NoVoHT.writeEntry
  rw [if_pos h.persistent]
  exact this

theorem LogInv.writeRemoval {s : NoVoHT} (h : LogInv s) {key : String} (hk : RepKey key) (he : CleanEnd key.toList) :
    LogInv ({ s with map := s.map.erase key }.writeRemoval key).2 := by
  have := h.write (.tombstone key hk he) (h.rep.erase key)
  unfold NoVoHT.writeRemoval
  rw [if_pos h.persistent]
  exact this

/-- What `append` leaves is a value again: it ends in the part appended. -/
theorem appendValue_rep {map : Table} (h : Representable map) {value : String} (hv : RepValue value) (key : String) :
    RepValue (NoVoHT.appendValue map key value) := by
  unfold NoVoHT.appendValue
  cases hl : map.lookup key with
  | none => exact hv
  | some existing =>
    have he := (h key existing hl).2
    refine hv.prepend ?_ ?_
    · rw [String.toList_append, List.mem_append, not_or]
      exact ⟨he.tab, by decide⟩
    · rw [String.toList_append, List.mem_append, not_or]
      exact ⟨he.newline, by decide⟩

theorem swapped_rep {map : Table} (h : Representable map) {newValue : String} (hv : RepValue newValue)
    (key expected : String) : RepValue (NoVoHT.swapped map key expected newValue).2 := by
  rcases NoVoHT.swapped_cases map key expected newValue with ⟨-, hs⟩ | ⟨current, hc, -, hs⟩
  · rw [hs]
    exact hv
  · rw [hs]
    exact (h key current hc).2

/-- Every documented operation keeps the invariant. -/
theorem LogInv.exec {s : NoVoHT} (h : LogInv s) {op : StoreOp} (hd : op.Documented) : LogInv (op.exec s).2 := by
  cases op with
  | put key value =>
    obtain ⟨hk, hv⟩ := hd
    simp only [StoreOp.exec, NoVoHT.put, hk.ne, if_false, Prod.map_snd, id_eq]
    exact h.writeEntry hk.rep hv
  | append key value =>
    obtain ⟨hk, hv⟩ := hd
    simp only [StoreOp.exec, NoVoHT.append, hk.ne, if_false, Prod.map_snd, id_eq]
    exact h.writeEntry hk.rep (appendValue_rep h.rep hv key)
  | remove key =>
    have hk : DocumentedKey key := hd
    simp only [StoreOp.exec, NoVoHT.remove, Prod.map_snd, id_eq]
    cases s.map.lookup key with
    | none => exact h
    | some value => exact h.writeRemoval hk.rep hk.end
  | compareSwap key expected newValue =>
    obtain ⟨hk, hv⟩ := hd
    simp only [StoreOp.exec, NoVoHT.compareSwap, Prod.map_snd, id_eq]
    -- on a mismatch the record repeats the entry that is there
    rw [NoVoHT.swapped_eq_insert]
    exact h.writeEntry hk.rep (swapped_rep h.rep hv key expected)
  | flush ord =>
    simp only [StoreOp.exec, Prod.map_snd, id_eq]
    exact LogInv.flush h.persistent h.faults h.rep ord

/-- Opening a file of any content leaves a log of the table loaded from it. -/
theorem LogInv.opened (ord : HashMap.Order String String) (dbPath : String) (content : Bytes) :
    (NoVoHT.withPersistence ord dbPath ⟨content, []⟩).1 = .ok () ∧
      (NoVoHT.withPersistence ord dbPath ⟨content, []⟩).2.map = readFileFromReader ∅ content ∧
      LogInv (NoVoHT.withPersistence ord dbPath ⟨content, []⟩).2 := by
  unfold NoVoHT.withPersistence
  simp only [DbFile.outcome, List.headD_nil, List.tail_nil]
  refine ⟨?_, ?_, ?_⟩
  · rfl
  · exact NoVoHT.flush_map _ _
  · exact LogInv.flush rfl rfl (readFile_representable content) ord

/-! ## Main results -/

/-- Open a file, run documented operations: after every prefix of them, reading the file back gives
the map in memory. -/
theorem replay_after (ord : HashMap.Order String String) (dbPath content : String) (ops done rest : List StoreOp)
    (hops : ∀ op ∈ ops, op.Documented) (hparts : ops = done ++ rest) :
    (NoVoHT.withPersistence ord dbPath ⟨utf8Bytes content, []⟩).1 = .ok () ∧
      readFileFromReader ∅
          (Machine.after StoreOp.exec (NoVoHT.withPersistence ord dbPath ⟨utf8Bytes content, []⟩).2 done).file.bytes =
        (Machine.after StoreOp.exec (NoVoHT.withPersistence ord dbPath ⟨utf8Bytes content, []⟩).2 done).map := by
  obtain ⟨hok, -, hopened⟩ := LogInv.opened ord dbPath (utf8Bytes content)
  refine ⟨hok, LogInv.read_back ?_⟩
  have hdone : ∀ op ∈ done, op.Documented := fun op h => hops op (hparts ▸ List.mem_append_left rest h)
  exact Machine.after_invariant (fun s op hs hd => hs.exec hd) hopened (Machine.along_of_forall hdone)

/-- Every kind of operation, on a file with a tombstone and a line of three columns. -/
theorem replay_after_example :
    readFileFromReader ∅
        (Machine.after StoreOp.exec
          (NoVoHT.withPersistence HashMap.Order.sorted "zht.db" ⟨utf8Bytes "a\t1\t\n~a\t\nb\t2\t3\t\n", []⟩).2
          [.put "c" "x y", .append "c" "z", .compareSwap "b" "0" "9", .remove "b",
            .flush HashMap.Order.sorted]).file.bytes =
      (Machine.after StoreOp.exec
        (NoVoHT.withPersistence HashMap.Order.sorted "zht.db" ⟨utf8Bytes "a\t1\t\n~a\t\nb\t2\t3\t\n", []⟩).2
        [.put "c" "x y", .append "c" "z", .compareSwap "b" "0" "9", .remove "b",
          .flush HashMap.Order.sorted]).map :=
  (replay_after HashMap.Order.sorted "zht.db" "a\t1\t\n~a\t\nb\t2\t3\t\n" _ _ [] (by
    intro op h
    simp only [List.mem_cons, List.not_mem_nil, or_false] at h
    rcases h with rfl | rfl | rfl | rfl | rfl <;> decide) (List.append_nil _).symm).2

/-- Flush and reload are inverse exactly on the representable tables, whatever the old content of
the file; every table loaded from a file is representable; and reopening a file that was opened and
so rewritten loads the same table. -/
theorem flush_reload (ord : HashMap.Order String String) (dbPath : String) (old : Bytes) :
    (∀ map : Table,
      readFileFromReader ∅ (NoVoHT.flush ⟨map, dbPath, true, ⟨old, []⟩⟩ ord).2.file.bytes = map ↔
        Representable map) ∧
      (∀ content : String, Representable (readFileFromReader ∅ (utf8Bytes content))) ∧
      ∀ (content : String) (ord' : HashMap.Order String String),
        (NoVoHT.withPersistence ord' dbPath (NoVoHT.withPersistence ord dbPath ⟨utf8Bytes content, []⟩).2.file).2.map =
          (NoVoHT.withPersistence ord dbPath ⟨utf8Bytes content, []⟩).2.map := by
  refine ⟨fun map => ?_, fun content => readFile_representable _, fun content ord' => ?_⟩
  · rw [← readFile_flushBytes map ord]
    simp [NoVoHT.flush]
  · obtain ⟨-, -, hinv⟩ := LogInv.opened ord dbPath (utf8Bytes content)
    obtain ⟨-, hmap, -⟩ := LogInv.opened ord' dbPath
      (NoVoHT.withPersistence ord dbPath ⟨utf8Bytes content, []⟩).2.file.bytes
    rw [hinv.file_eq, hmap, hinv.read_back]

end Zht
