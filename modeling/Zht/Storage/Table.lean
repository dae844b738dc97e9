/-
`NoVoHT`, the storage engine: an in-memory map, and for a persistent table the file behind it. The
file is its bytes and the outcomes its next accesses meet; a write that fails leaves a prefix of
what it was to write. Every operation acts on the map whether or not its write succeeds.
-/
import Zht.Common.Basic
import Zht.Lib.HashMap
import Zht.Lib.Text

namespace Zht

open Lib Lib.Utf8 Lib.Text

/-- The in-memory map. -/
abbrev Table := HashMap String String

/-! ## The database file -/

/-- What one access to the file comes to. -/
inductive WriteOutcome
  | ok
  | openFailed (e : String)
  | writeFailed (written : Nat) (e : String)
  | flushFailed (written : Nat) (e : String)
  deriving DecidableEq, Repr

/-- The bytes on disk, and the outcomes of the next accesses (all succeed once the list is used up). -/
structure DbFile where
  bytes : Bytes
  faults : List WriteOutcome
  deriving DecidableEq, Repr

def DbFile.outcome (f : DbFile) : WriteOutcome := f.faults.headD .ok

/-- Open for append and write a record. -/
def DbFile.append (f : DbFile) (record : Bytes) : DbFile :=
  let bytes := match f.outcome with
    | .ok => f.bytes ++ record
    | .openFailed _ => f.bytes
    | .writeFailed n _ | .flushFailed n _ => f.bytes ++ record.take n
  { bytes, faults := f.faults.tail }

/-- Open with truncation and write the new content. -/
def DbFile.rewrite (f : DbFile) (content : Bytes) : DbFile :=
  let bytes := match f.outcome with
    | .ok => content
    | .openFailed _ => f.bytes
    | .writeFailed n _ | .flushFailed n _ => content.take n
  { bytes, faults := f.faults.tail }

/-- The error an access reports; the texts differ between the writers. -/
def DbFile.result (f : DbFile) (dbPath onOpen onWrite onFlush : String) : ZhtResult Unit :=
  match f.outcome with
  | .ok => .ok ()
  | .openFailed e => .error (.persistenceError dbPath (onOpen ++ e))
  | .writeFailed _ e => .error (.persistenceError dbPath (onWrite ++ e))
  | .flushFailed _ e => .error (.persistenceError dbPath (onFlush ++ e))

@[simp] theorem DbFile.append_of_no_faults {f : DbFile} (h : f.faults = []) (record : Bytes) :
    f.append record = { bytes := f.bytes ++ record, faults := [] } := by
  simp [append, outcome, h]

@[simp] theorem DbFile.rewrite_of_no_faults {f : DbFile} (h : f.faults = []) (content : Bytes) :
    f.rewrite content = { bytes := content, faults := [] } := by
  simp [rewrite, outcome, h]

/-! ## Lines -/

/-- `"{key}\t{value}\t"`. -/
def entryLine (key value : String) : String := key ++ "\t" ++ value ++ "\t"

/-- `"~{key}\t"`. -/
def removalLine (key : String) : String := "~" ++ key ++ "\t"

/-- What `writeln!` writes. -/
def lineBytes (line : String) : Bytes := utf8Bytes line ++ [lf]

/-- The value of a line with the columns `value :: extra`. -/
def joinColumns (value : String) (extra : List String) : String :=
  let extraValues := extra.filter (· ≠ "")
  if extraValues = [] then value else value ++ ":" ++ ":".intercalate extraValues

/-- The columns of a line read into the map: a tombstone, a malformed line without a value, or an
entry. -/
def readColumns (map : Table) : List String → Table
  | [] => map
  | rawKey :: columns =>
    match rawKey.toList with
    -- whatever follows the key of a tombstone is ignored
    | '~' :: key => map.erase (String.ofList key)
    | _ =>
      match columns with
      | [] => map
      | value :: extra => map.insert rawKey (joinColumns value extra)

/-- One line of the file read into the map. -/
def readLine (map : Table) (line : String) : Table :=
  let line := trim line
  if line = "" then map else readColumns map (split '\t' line)

/-- The loop over the lines; it stops at the first one that is not UTF-8. -/
def readLines (map : Table) : List (Option String) → Table
  | [] => map
  | none :: _ => map
  | some line :: rest => readLines (readLine map line) rest

/-- `read_file_from_reader`, on top of the map given. -/
def readFileFromReader (map : Table) (content : Bytes) : Table := readLines map (lines content)

/-! ## The table -/

structure NoVoHT where
  map : Table
  dbPath : String
  persistent : Bool
  file : DbFile
  deriving DecidableEq

namespace NoVoHT

/-- `NoVoHT::new`: in memory only. -/
def new : NoVoHT := { map := ∅, dbPath := "", persistent := false, file := { bytes := [], faults := [] } }

def writeEntry (s : NoVoHT) (key value : String) : ZhtResult Unit × NoVoHT :=
  if s.persistent then
    (s.file.result s.dbPath "failed to open file for append: " "write failed: " "flush failed: ",
      { s with file := s.file.append (lineBytes (entryLine key value)) })
  else (.ok (), s)

def writeRemoval (s : NoVoHT) (key : String) : ZhtResult Unit × NoVoHT :=
  if s.persistent then
    (s.file.result s.dbPath "failed to open file for removal append: " "write removal failed: "
        "flush removal failed: ",
      { s with file := s.file.append (lineBytes (removalLine key)) })
  else (.ok (), s)

/-- A write error is only logged: the operation succeeds all the same. -/
def put (s : NoVoHT) (key value : String) : ZhtResult Unit × NoVoHT :=
  if key = "" then (.error .emptyKey, s)
  else (.ok (), ({ s with map := s.map.insert key value }.writeEntry key value).2)

def get (s : NoVoHT) (key : String) : ZhtResult String :=
  match s.map.lookup key with
  | some value => .ok value
  | none => .error (.keyNotFound key)

def remove (s : NoVoHT) (key : String) : ZhtResult Unit × NoVoHT :=
  match s.map.lookup key with
  | none => (.error (.keyNotFound key), s)
  | some _ => (.ok (), ({ s with map := s.map.erase key }.writeRemoval key).2)

/-- The value `append` leaves under a key. -/
def appendValue (map : Table) (key value : String) : String :=
  match map.lookup key with
  | some existing => existing ++ ":" ++ value
  | none => value

/-- The whole concatenated value is written, not the appended part. -/
def append (s : NoVoHT) (key value : String) : ZhtResult Unit × NoVoHT :=
  if key = "" then (.error .emptyKey, s)
  else
    let newValue := appendValue s.map key value
    (.ok (), ({ s with map := s.map.insert key newValue }.writeEntry key newValue).2)

/-- The map after `compare_swap`, and the value it then holds under the key. -/
def swapped (map : Table) (key expected newValue : String) : Table × String :=
  match map.lookup key with
  | some current => if current = expected then (map.insert key newValue, newValue) else (map, current)
  | none => (map.insert key newValue, newValue)

/-- Always `Ok`, with the value under the key after the operation; a record is written on a mismatch
too. -/
def compareSwap (s : NoVoHT) (key expected newValue : String) : ZhtResult String × NoVoHT :=
  let swap := swapped s.map key expected newValue
  (.ok swap.2, ({ s with map := swap.1 }.writeEntry key swap.2).2)

/-- What `flush` writes: every entry, in iteration order. -/
def flushBytes (ord : HashMap.Order String String) (map : Table) : Bytes :=
  (ord.entries map).flatMap fun p => lineBytes (entryLine p.1 p.2)

def flush (s : NoVoHT) (ord : HashMap.Order String String) : ZhtResult Unit × NoVoHT :=
  if s.persistent then
    (s.file.result s.dbPath "failed to open file for flush: " "write failed during flush: " "flush failed: ",
      { s with file := s.file.rewrite (flushBytes ord s.map) })
  else (.ok (), s)

/-- `with_persistence` on the file found at the path (empty when there was none): the result, and
the table with the file as it is left on disk. Opening is the first access, the flush the second. -/
def withPersistence (ord : HashMap.Order String String) (dbPath : String) (file : DbFile) :
    ZhtResult Unit × NoVoHT :=
  let opened := { file with faults := file.faults.tail }
  let empty : NoVoHT := { map := ∅, dbPath, persistent := true, file := opened }
  match file.outcome with
  | .openFailed e => (.error (.persistenceError dbPath ("failed to open database file: " ++ e)), empty)
  | _ => { empty with map := readFileFromReader ∅ file.bytes }.flush ord

/-! ## What the operations leave in memory -/

@[simp] theorem writeEntry_map (s : NoVoHT) (key value : String) : (s.writeEntry key value).2.map = s.map := by
  unfold writeEntry; split <;> rfl

@[simp] theorem writeRemoval_map (s : NoVoHT) (key : String) : (s.writeRemoval key).2.map = s.map := by
  unfold writeRemoval; split <;> rfl

@[simp] theorem flush_map (s : NoVoHT) (ord : HashMap.Order String String) : (s.flush ord).2.map = s.map := by
  unfold flush; split <;> rfl

theorem put_of_ne (s : NoVoHT) {key : String} (h : key ≠ "") (value : String) :
    ∃ s', s.put key value = (.ok (), s') ∧ s'.map = s.map.insert key value :=
  ⟨_, by rw [put, if_neg h], writeEntry_map _ _ _⟩

theorem remove_of_some {s : NoVoHT} {key value : String} (h : s.map.lookup key = some value) :
    ∃ s', s.remove key = (.ok (), s') ∧ s'.map = s.map.erase key :=
  ⟨_, by rw [remove, h], writeRemoval_map _ _⟩

theorem remove_of_none {s : NoVoHT} {key : String} (h : s.map.lookup key = none) :
    s.remove key = (.error (.keyNotFound key), s) := by
  rw [remove, h]

theorem append_of_ne (s : NoVoHT) {key : String} (h : key ≠ "") (value : String) :
    ∃ s', s.append key value = (.ok (), s') ∧ s'.map = s.map.insert key (appendValue s.map key value) :=
  ⟨_, by rw [append, if_neg h], writeEntry_map _ _ _⟩

theorem compareSwap_spec (s : NoVoHT) (key expected newValue : String) :
    ∃ s', s.compareSwap key expected newValue = (.ok (swapped s.map key expected newValue).2, s') ∧
      s'.map = (swapped s.map key expected newValue).1 :=
  ⟨_, rfl, writeEntry_map _ _ _⟩

/-- A missing key and a match take the new value; a mismatch changes nothing. -/
theorem swapped_cases (map : Table) (key expected newValue : String) :
    ((map.lookup key = none ∨ map.lookup key = some expected) ∧
        swapped map key expected newValue = (map.insert key newValue, newValue)) ∨
      ∃ current, map.lookup key = some current ∧ current ≠ expected ∧
        swapped map key expected newValue = (map, current) := by
  unfold swapped
  cases hc : map.lookup key with
  | none => exact .inl ⟨.inl rfl, rfl⟩
  | some current =>
    by_cases he : current = expected
    · exact .inl ⟨.inr (congrArg some he), if_pos he⟩
    · exact .inr ⟨current, rfl, he, if_neg he⟩

theorem swapped_lookup (map : Table) (key expected newValue : String) :
    (swapped map key expected newValue).1.lookup key = some (swapped map key expected newValue).2 := by
  rcases swapped_cases map key expected newValue with ⟨-, hs⟩ | ⟨current, hc, -, hs⟩
  · rw [hs]
    exact Finmap.lookup_insert _
  · rw [hs]
    exact hc

theorem swapped_lookup_ne (map : Table) {key k : String} (hk : k ≠ key) (expected newValue : String) :
    (swapped map key expected newValue).1.lookup k = map.lookup k := by
  rcases swapped_cases map key expected newValue with ⟨-, hs⟩ | ⟨current, -, -, hs⟩
  · rw [hs]
    exact Finmap.lookup_insert_of_ne _ hk
  · rw [hs]

/-- The value left depends on the value under the key alone. -/
theorem swapped_local {map m : Table} {key : String} (h : map.lookup key = m.lookup key) (expected newValue : String) :
    (swapped map key expected newValue).2 = (swapped m key expected newValue).2 := by
  unfold swapped
  rw [h]
  cases m.lookup key with
  | none => rfl
  | some current =>
    simp only
    split <;> rfl

/-- `compare_swap` inserts the value it then reports; on a mismatch that is the one already there. -/
theorem swapped_eq_insert (map : Table) (key expected newValue : String) :
    (swapped map key expected newValue).1 = map.insert key (swapped map key expected newValue).2 := by
  rcases swapped_cases map key expected newValue with ⟨-, hs⟩ | ⟨current, hc, -, hs⟩
  · rw [hs]
  · rw [hs]
    exact (HashMap.insert_eq_self.2 hc).symm

/-- The value left is another one than the new value exactly at a mismatch that does not hold the new
value already. -/
theorem swapped_ne_iff (map : Table) (key expected newValue : String) :
    (swapped map key expected newValue).2 ≠ newValue ↔
      ∃ current, map.lookup key = some current ∧ current ≠ expected ∧ current ≠ newValue := by
  rcases swapped_cases map key expected newValue with ⟨hc | hc, hs⟩ | ⟨current, hc, hne, hs⟩
  · rw [hs, hc]
    simp
  · rw [hs, hc]
    simp
  · rw [hs, hc]
    simp [hne]

/-- A swap that leaves another value than the new one has not touched the map. -/
theorem swapped_of_ne {map : Table} {key expected newValue : String}
    (h : (swapped map key expected newValue).2 ≠ newValue) : (swapped map key expected newValue).1 = map := by
  rcases swapped_cases map key expected newValue with ⟨-, hs⟩ | ⟨current, -, -, hs⟩
  · rw [hs] at h
    exact absurd rfl h
  · rw [hs]

end NoVoHT

end Zht
