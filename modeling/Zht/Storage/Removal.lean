/-
What a removal leaves for the next reader of the database file. The tombstone puts the key at the end of
its line, in front of the tab that trimming takes away, so white space at the end of the key goes with it;
an entry keeps it, since there the key is followed by the value. Reopening hence finds the table without the
trimmed key (`LogInv.reopen_remove`), which is the table without the key when the key does not end in white
space and only then (`removal_durable_iff`).
-/
import Zht.Storage.Crash

namespace Zht

open Lib Lib.Utf8 Lib.Text

/-! ## Reading a tombstone -/

theorem RepKey.removal_newline {key : String} (hk : RepKey key) : '\n' ∉ ("~" ++ key).toList := by
  rw [String.toList_append, List.mem_append]
  rintro (h | h)
  · exact absurd h (by decide)
  · exact hk.newline h

/-- The tombstone of a key that ends in white space is that of a shorter key. -/
theorem readLine_removalLine {key : String} (hk : RepKey key) (map : Table) :
    readLine map (removalLine key) = map.erase (trimEnd key) := by
  have htab : trimEnd (key ++ "\t") = trimEnd key := trimEnd_append_blank key (by decide)
  have hplain : '\t' ∉ (trimEnd (key ++ "\t")).toList := by
    rw [htab]
    exact fun h => hk.tab (trimEnd_sub h)
  unfold removalLine
  rw [String.append_assoc, readLine_tombstone hplain, htab]

theorem readFile_removalLine {key : String} (hk : RepKey key) (map : Table) :
    readFileFromReader map (lineBytes (removalLine key)) = map.erase (trimEnd key) := by
  have hlines : lines (lineBytes (removalLine key)) = [some (removalLine key)] := by
    have h := lines_lineBytes_append hk.removal_newline []
    rw [List.append_nil, lines_nil] at h
    exact h
  rw [readFileFromReader, hlines, readLines, readLine_removalLine hk]
  rfl

/-! ## Removing and reopening -/

/-- `remove`, then `with_persistence` on the file as it is, with no flush between them. -/
def NoVoHT.reopenRemoved (ord : HashMap.Order String String) (s : NoVoHT) (key : String) : ZhtResult Unit × NoVoHT :=
  NoVoHT.withPersistence ord s.dbPath (s.remove key).2.file

/-- The removal succeeds and leaves its tombstone at the end of the file, and reopening finds the table
without the key: every other key has the value it had. -/
structure RemovalDurable (ord : HashMap.Order String String) (s : NoVoHT) (key : String) : Prop where
  ok : (s.remove key).1 = .ok ()
  tombstone : (s.remove key).2.file.bytes = s.file.bytes ++ lineBytes (removalLine key)
  reopened : (s.reopenRemoved ord key).1 = .ok ()
  table : (s.reopenRemoved ord key).2.map = s.map.erase key

namespace LogInv

variable {s : NoVoHT} {key value : String}

theorem remove_file (h : LogInv s) (hkey : s.map.lookup key = some value) :
    (s.remove key).1 = .ok () ∧ (s.remove key).2.file = ⟨s.file.bytes ++ lineBytes (removalLine key), []⟩ := by
  unfold NoVoHT.remove NoVoHT.writeRemoval
  simp only [hkey, h.persistent, if_true]
  exact ⟨trivial, DbFile.append_of_no_faults h.faults _⟩

/-- Reopening misses the key without the white space at its end. -/
theorem reopen_remove (h : LogInv s) (hkey : s.map.lookup key = some value) (ord : HashMap.Order String String) :
    (s.reopenRemoved ord key).1 = .ok () ∧ (s.reopenRemoved ord key).2.map = s.map.erase (trimEnd key) := by
  obtain ⟨records, hlog, hreplay⟩ := h.log
  obtain ⟨hk, -⟩ := h.rep key value hkey
  obtain ⟨-, hfile⟩ := h.remove_file hkey
  obtain ⟨hok, hmap, -⟩ := LogInv.opened ord s.dbPath (s.file.bytes ++ lineBytes (removalLine key))
  unfold NoVoHT.reopenRemoved
  rw [hfile]
  refine ⟨hok, hmap.trans ?_⟩
  rw [hlog, readFile_append, hreplay, readFile_removalLine hk]

/-- A key that loses white space is another key, and stays. -/
theorem removal_durable_iff_cleanEnd (h : LogInv s) (hkey : s.map.lookup key = some value)
    (ord : HashMap.Order String String) : RemovalDurable ord s key ↔ CleanEnd key.toList := by
  obtain ⟨hremoved, hfile⟩ := h.remove_file hkey
  obtain ⟨hreopened, hmap⟩ := h.reopen_remove hkey ord
  constructor
  · rintro ⟨-, -, -, hexact⟩
    have htrim : trimEnd key = key := by
      by_contra hne
      have hlookup := congrArg (Finmap.lookup key) (hmap.symm.trans hexact)
      rw [Finmap.lookup_erase_ne fun e => hne e.symm, Finmap.lookup_erase, hkey] at hlookup
      cases hlookup
    rw [← htrim]
    exact trimEnd_cleanEnd key
  · intro hend
    refine ⟨hremoved, congrArg DbFile.bytes hfile, hreopened, ?_⟩
    rw [hmap, trimEnd_of_cleanEnd hend]

end LogInv

/-! ## Main result -/

/-- Open a file of any content and remove a key that was loaded from it: reopening gives the table without
that key exactly when the key does not end in white space. -/
theorem removal_durable_iff (ord ord' : HashMap.Order String String) (dbPath : String) (content : Bytes) (key : String)
    (hkey : key ∈ (NoVoHT.withPersistence ord dbPath ⟨content, []⟩).2.map) :
    RemovalDurable ord' (NoVoHT.withPersistence ord dbPath ⟨content, []⟩).2 key ↔ CleanEnd key.toList := by
  obtain ⟨-, -, hinv⟩ := LogInv.opened ord dbPath content
  obtain ⟨value, hvalue⟩ := Finmap.mem_iff.1 hkey
  exact hinv.removal_durable_iff_cleanEnd hvalue ord'

/-- White space inside a key does no harm. -/
theorem removal_durable_example :
    RemovalDurable HashMap.Order.sorted
      (NoVoHT.withPersistence HashMap.Order.sorted "zht.db" ⟨utf8Bytes "a b\t1\t\na\t2\t\n", []⟩).2 "a b" :=
  (removal_durable_iff HashMap.Order.sorted .sorted "zht.db" (utf8Bytes "a b\t1\t\na\t2\t\n") "a b"
    (Finmap.mem_iff.2 ⟨"1", by decide⟩)).2 (by decide)

/-- The key `a` with a space after it comes back, and the key `a` goes in its place. -/
theorem removal_resurrects :
    let s := (NoVoHT.withPersistence HashMap.Order.sorted "zht.db" ⟨utf8Bytes "a\t1\t\na \t2\t\n", []⟩).2
    "a " ∈ s.map ∧ ¬RemovalDurable HashMap.Order.sorted s "a " ∧
      (s.reopenRemoved HashMap.Order.sorted "a ").2.map.lookup "a " = some "2" ∧
      (s.reopenRemoved HashMap.Order.sorted "a ").2.map.lookup "a" = none := by
  have hback : ((NoVoHT.withPersistence HashMap.Order.sorted "zht.db"
      ⟨utf8Bytes "a\t1\t\na \t2\t\n", []⟩).2.reopenRemoved HashMap.Order.sorted "a ").2.map.lookup "a " = some "2" := by
    decide
  refine ⟨Finmap.mem_iff.2 ⟨"2", by decide⟩, ?_, hback, by decide⟩
  rintro ⟨-, -, -, hexact⟩
  rw [hexact, Finmap.lookup_erase] at hback
  cases hback

end Zht
