/-
Opening a damaged file. The reader stops at the first line that is not UTF-8, and opening then
rewrites the file from what was read: the lines behind that one are lost, in memory and on disk. What
should come of the file is the replay of every line that can be decoded (`OpensWhole`); it does exactly
if what the unread lines last say of each key is what the lines in front of them left (`TailRepeats`).
-/
import Mathlib.Data.List.ReduceOption
import Zht.Lib.LastWrite
import Zht.Storage.Replay

namespace Zht

open Lib Lib.Utf8 Lib.Text Lib.LastWrite

/-! ## Lines as writes -/

/-- What the columns of a line say: an entry, a tombstone, or nothing. -/
def columnsWrite : List String → Option (LastWrite.Write String String)
  | [] => none
  | rawKey :: columns =>
    if rawKey.toList.head? = some '~' then some (String.ofList rawKey.toList.tail, none)
    else columns.head?.map fun value => (rawKey, some (joinColumns value columns.tail))

def lineWrite (line : String) : Option (LastWrite.Write String String) :=
  let line := trim line
  if line = "" then none else columnsWrite (split '\t' line)

theorem readColumns_eq (map : Table) (columns : List String) :
    readColumns map columns = writeAll (columnsWrite columns).toList map := by
  cases columns with
  | nil => rfl
  | cons rawKey columns =>
    rw [columnsWrite]
    by_cases hhead : rawKey.toList.head? = some '~'
    · obtain ⟨key, hkey⟩ := List.head?_eq_some_iff.1 hhead
      rw [if_pos hhead, readColumns_tilde hkey, hkey]
      rfl
    · rw [if_neg hhead]
      cases columns with
      | nil => exact readColumns_malformed hhead map
      | cons value extra => exact readColumns_entry hhead map value extra

theorem readLine_eq_writes (map : Table) (line : String) :
    readLine map line = writeAll (lineWrite line).toList map := by
  unfold readLine lineWrite
  simp only
  split
  · rfl
  · exact readColumns_eq map _

/-- What lines say, in order. -/
def writes (ls : List String) : List (LastWrite.Write String String) := ls.filterMap lineWrite

/-! ## The lines read and the lines behind them -/

/-- The lines in front of the first one that is not UTF-8. -/
def readable (content : Bytes) : List String := ((lines content).takeWhile Option.isSome).reduceOption

/-- The lines behind it that can be decoded. -/
def unread (content : Bytes) : List String := ((lines content).dropWhile Option.isSome).reduceOption

/-- All the lines that can be decoded. -/
def decodable (content : Bytes) : List String := (lines content).reduceOption

theorem decodable_eq (content : Bytes) : decodable content = readable content ++ unread content := by
  unfold decodable readable unread
  rw [← List.reduceOption_append, List.takeWhile_append_dropWhile]

/-- The reader's loop goes as far as the first line that is not UTF-8. -/
theorem readLines_eq_writes :
    ∀ (ls : List (Option String)) (map : Table),
      readLines map ls = writeAll (writes (ls.takeWhile Option.isSome).reduceOption) map
  | [], _ => rfl
  | none :: _, _ => rfl
  | some line :: ls, map => by
    rw [readLines, readLine_eq_writes, readLines_eq_writes ls, List.takeWhile_cons_of_pos rfl,
      List.reduceOption_cons_of_some, ← writeAll_append]
    unfold writes
    rw [List.filterMap_cons]
    cases lineWrite line <;> rfl

theorem reduceOption_map_some (ls : List String) : (ls.map some).reduceOption = ls := by
  induction ls with
  | nil => rfl
  | cons line ls ih => rw [List.map_cons, List.reduceOption_cons_of_some, ih]

/-- The replay, in order, of all the lines that can be decoded. -/
def replayDecodable (content : Bytes) : Table := readLines ∅ ((decodable content).map some)

theorem replayDecodable_eq (content : Bytes) : replayDecodable content = writeAll (writes (decodable content)) ∅ := by
  unfold replayDecodable
  rw [readLines_eq_writes, List.takeWhile_eq_self_iff.2 (by simp), reduceOption_map_some]

/-! ## Opening -/

/-- Opening a file of this content fails and leaves it, or gives the replay of all its decodable
lines and leaves a file that reads as that. -/
def OpensWhole (ord : HashMap.Order String String) (dbPath : String) (content : Bytes) : Prop :=
  let opened := NoVoHT.withPersistence ord dbPath ⟨content, []⟩
  ((∃ e, opened.1 = .error e) ∧ opened.2.file.bytes = content) ∨
    (opened.1 = .ok () ∧ opened.2.map = replayDecodable content ∧
      replayDecodable opened.2.file.bytes = replayDecodable content)

/-- The last line about a key among the unread ones, if there is one, says of the key what the last
one among those read says; no line says that the key is not there. -/
def TailRepeats (content : Bytes) : Prop :=
  ∀ key value, last key (writes (unread content)) = some value →
    (last key (writes (readable content))).join = value

/-- A flushed file is read to its end. -/
theorem replayDecodable_records :
    ∀ records : List Record, replayDecodable (records.flatMap Record.bytes) = replay records ∅ := by
  intro records
  have hlines : lines (records.flatMap Record.bytes) = records.map fun r => some (r.body ++ "\t") := by
    induction records with
    | nil => exact lines_nil
    | cons r records ih => rw [List.flatMap_cons, r.lines_bytes_append, ih, List.map_cons]
  unfold replayDecodable decodable
  have hall : (lines (records.flatMap Record.bytes)).reduceOption = records.map fun r => r.body ++ "\t" := by
    rw [hlines, ← reduceOption_map_some (records.map _), List.map_map]
    rfl
  rw [hall, ← readFile_records, readFileFromReader, hlines, List.map_map]
  rfl

/-- Opening never fails here, and the map it gives is that of the lines read. -/
theorem opensWhole_iff_replay (ord : HashMap.Order String String) (dbPath : String) (content : Bytes) :
    OpensWhole ord dbPath content ↔ readFileFromReader ∅ content = replayDecodable content := by
  obtain ⟨hok, hmap, hinv⟩ := LogInv.opened ord dbPath content
  obtain ⟨records, hbytes, hreplay⟩ := hinv.log
  unfold OpensWhole
  simp only [hok, hmap, hbytes, replayDecodable_records, hreplay, reduceCtorEq, exists_false, false_and, false_or,
    true_and, and_self]

/-- Opening a file brings all that can be decoded exactly if the lines behind the first one that is
not UTF-8 say nothing new. -/
theorem opensWhole_iff (ord : HashMap.Order String String) (dbPath : String) (content : Bytes) :
    OpensWhole ord dbPath content ↔ TailRepeats content := by
  have hread : readFileFromReader ∅ content = writeAll (writes (readable content)) ∅ := readLines_eq_writes _ _
  have hall : writes (decodable content) = writes (readable content) ++ writes (unread content) := by
    rw [decodable_eq, writes, List.filterMap_append]
    rfl
  rw [opensWhole_iff_replay, hread, replayDecodable_eq, hall, eq_comm, writeAll_append_eq_iff]
  rfl

/-- A bad line in front of an entry: the entry is gone, from the table and from the file. -/
theorem opensWhole_fails :
    ¬ OpensWhole HashMap.Order.sorted "zht.db" ([0xff, lf] ++ utf8Bytes "a\t1\t\n") := by
  rw [opensWhole_iff_replay]
  intro h
  have ha := congrArg (Finmap.lookup "a") h
  revert ha
  decide

end Zht
