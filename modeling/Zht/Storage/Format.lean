/-
The line format of the database file. A `Record` is a line the format can carry: an entry or a
tombstone whose texts survive trimming and splitting, with the proof that they do. A file that is a
list of records replays to the records applied in order (`readFile_records`), and whatever the
bytes of a file are, the table read from it is representable (`readFile_representable`). Together
they say which tables a flush preserves.
-/
import Zht.Storage.Table

namespace Zht

open Lib Lib.Utf8 Lib.Text

/-! ## What the format can carry -/

/-- A key that is read back as written. -/
structure RepKey (key : String) : Prop where
  ne : key ≠ ""
  start : CleanStart key.toList
  tilde : key.toList.head? ≠ some '~'
  tab : '\t' ∉ key.toList
  newline : '\n' ∉ key.toList

/-- A value that is read back as written. -/
structure RepValue (value : String) : Prop where
  ne : value ≠ ""
  «end» : CleanEnd value.toList
  tab : '\t' ∉ value.toList
  newline : '\n' ∉ value.toList

instance (key : String) : Decidable (RepKey key) :=
  decidable_of_iff (key ≠ "" ∧ CleanStart key.toList ∧ key.toList.head? ≠ some '~' ∧ '\t' ∉ key.toList ∧
    '\n' ∉ key.toList) ⟨fun ⟨a, b, c, d, e⟩ => ⟨a, b, c, d, e⟩, fun ⟨a, b, c, d, e⟩ => ⟨a, b, c, d, e⟩⟩

instance (value : String) : Decidable (RepValue value) :=
  decidable_of_iff (value ≠ "" ∧ CleanEnd value.toList ∧ '\t' ∉ value.toList ∧ '\n' ∉ value.toList)
    ⟨fun ⟨a, b, c, d⟩ => ⟨a, b, c, d⟩, fun ⟨a, b, c, d⟩ => ⟨a, b, c, d⟩⟩

/-- Every entry of the table can be carried. -/
def Representable (map : Table) : Prop := ∀ k v, map.lookup k = some v → RepKey k ∧ RepValue v

theorem representable_empty : Representable ∅ := by
  intro k v h
  rw [Finmap.lookup_empty] at h; cases h

theorem Representable.insert {map : Table} (h : Representable map) {key value : String} (hk : RepKey key)
    (hv : RepValue value) : Representable (map.insert key value) := by
  intro k v hl
  by_cases he : k = key
  · subst he
    rw [Finmap.lookup_insert] at hl
    cases hl; exact ⟨hk, hv⟩
  · rw [Finmap.lookup_insert_of_ne _ he] at hl
    exact h k v hl

theorem Representable.erase {map : Table} (h : Representable map) (key : String) :
    Representable (map.erase key) := by
  intro k v hl
  by_cases he : k = key
  · subst he
    rw [Finmap.lookup_erase] at hl; cases hl
  · rw [Finmap.lookup_erase_ne he] at hl
    exact h k v hl

/-- A value joined to anything without tabs and line feeds in front of it stays a value. -/
theorem RepValue.prepend {value : String} (h : RepValue value) {pre : String} (ht : '\t' ∉ pre.toList)
    (hn : '\n' ∉ pre.toList) : RepValue (pre ++ value) where
  ne := by
    intro e
    have hnil := congrArg String.toList e
    rw [String.toList_append] at hnil
    exact toList_ne_nil h.ne (List.append_eq_nil_iff.1 hnil).2
  «end» := by
    rw [String.toList_append]
    exact cleanEnd_append (toList_ne_nil h.ne) h.end
  tab := by
    rw [String.toList_append, List.mem_append]
    rintro (hm | hm)
    · exact ht hm
    · exact h.tab hm
  newline := by
    rw [String.toList_append, List.mem_append]
    rintro (hm | hm)
    · exact hn hm
    · exact h.newline hm

/-! ## The two kinds of lines -/

theorem readColumns_tilde {rawKey : String} {key : List Char} (h : rawKey.toList = '~' :: key) (map : Table)
    (columns : List String) : readColumns map (rawKey :: columns) = map.erase (String.ofList key) := by
  simp only [readColumns, h]

theorem readColumns_plain {rawKey : String} (h : rawKey.toList.head? ≠ some '~') (map : Table)
    (columns : List String) :
    readColumns map (rawKey :: columns) =
      columns.head?.elim map fun value => map.insert rawKey (joinColumns value columns.tail) := by
  simp only [readColumns]
  split
  · rename_i key heq
    rw [heq] at h
    exact absurd rfl h
  · cases columns <;> rfl

theorem readColumns_entry {rawKey : String} (h : rawKey.toList.head? ≠ some '~') (map : Table) (value : String)
    (extra : List String) :
    readColumns map (rawKey :: value :: extra) = map.insert rawKey (joinColumns value extra) :=
  readColumns_plain h map (value :: extra)

/-- A line without a value column is skipped. -/
theorem readColumns_malformed {rawKey : String} (h : rawKey.toList.head? ≠ some '~') (map : Table) :
    readColumns map [rawKey] = map :=
  readColumns_plain h map []

/-- A line that ends in its tab is read back as the text before the line feed. -/
theorem lines_lineBytes_append {text : String} (h : '\n' ∉ text.toList) (rest : Bytes) :
    lines (lineBytes (text ++ "\t") ++ rest) = some (text ++ "\t") :: lines rest := by
  have hlf : lf ∉ utf8Bytes (text ++ "\t") := by
    rw [lf_mem_utf8Bytes, String.toList_append, List.mem_append]
    rintro (hm | hm)
    · exact h hm
    · exact absurd hm (by decide)
  have hcr : stripCr (utf8Bytes (text ++ "\t")) = utf8Bytes (text ++ "\t") := by
    have htab : utf8Bytes "\t" = [9] := by decide
    rw [stripCr, utf8Bytes_append, htab, List.getLast?_concat]
    exact if_neg (by decide)
  unfold lineBytes
  rw [List.append_assoc, List.singleton_append, lines_cons hlf, hcr, fromUtf8_utf8Bytes]

/-! ## Records -/

/-- A line the format carries. -/
inductive Record
  | put (key value : String) (hk : RepKey key) (hv : RepValue value)
  | tombstone (key : String) (hk : RepKey key) (he : CleanEnd key.toList)

namespace Record

/-- The line without its trailing tab. -/
def body : Record → String
  | put key value _ _ => key ++ "\t" ++ value
  | tombstone key _ _ => "~" ++ key

def bytes (r : Record) : Bytes := lineBytes (r.body ++ "\t")

/-- What the record does to a table. -/
def apply (map : Table) : Record → Table
  | put key value _ _ => map.insert key value
  | tombstone key _ _ => map.erase key

theorem bytes_put (key value : String) (hk : RepKey key) (hv : RepValue value) :
    (put key value hk hv).bytes = lineBytes (entryLine key value) := rfl

theorem bytes_tombstone (key : String) (hk : RepKey key) (he : CleanEnd key.toList) :
    (tombstone key hk he).bytes = lineBytes (removalLine key) := rfl

theorem body_ne (r : Record) : r.body.toList ≠ [] := by
  cases r <;> simp [body]

theorem body_cleanStart (r : Record) : CleanStart r.body.toList := by
  cases r with
  | put key value hk hv =>
    rw [body, String.append_assoc, String.toList_append]
    exact cleanStart_append (toList_ne_nil hk.ne) hk.start
  | tombstone key hk he =>
    rw [body, String.toList_append]
    exact cleanStart_append (by decide) (by decide)

theorem body_cleanEnd (r : Record) : CleanEnd r.body.toList := by
  cases r with
  | put key value hk hv =>
    rw [body, String.toList_append]
    exact cleanEnd_append (toList_ne_nil hv.ne) hv.end
  | tombstone key hk he =>
    rw [body, String.toList_append]
    exact cleanEnd_append (toList_ne_nil hk.ne) he

theorem body_newline (r : Record) : '\n' ∉ r.body.toList := by
  cases r with
  | put key value hk hv => simp [body, hk.newline, hv.newline]
  | tombstone key hk he => simp [body, hk.newline]

theorem trim_line (r : Record) : trim (r.body ++ "\t") = r.body := by
  have htab : ∀ c ∈ "\t".toList, isWhitespace c = true := by
    intro c hc
    rw [List.mem_singleton.1 hc]
    decide
  unfold trim
  rw [String.toList_append, trimChars_append r.body_ne r.body_cleanStart r.body_cleanEnd htab,
    String.ofList_toList]

theorem split_body_put {key value : String} (hk : RepKey key) (hv : RepValue value) :
    split '\t' (key ++ "\t" ++ value) = [key, value] := by
  unfold split
  have : (key ++ "\t" ++ value).toList = key.toList ++ '\t' :: value.toList := by simp
  rw [this, List.splitOn_append_cons_self_of_not_mem hk.tab, List.splitOn_eq_singleton hv.tab]
  simp

theorem split_body_tombstone {key : String} (hk : RepKey key) : split '\t' ("~" ++ key) = ["~" ++ key] := by
  unfold split
  rw [List.splitOn_eq_singleton (by simp [hk.tab])]
  simp

theorem readColumns_put {key value : String} (hk : RepKey key) (map : Table) :
    readColumns map [key, value] = map.insert key value :=
  readColumns_entry hk.tilde map value []

theorem readColumns_tombstone (key : String) (map : Table) : readColumns map ["~" ++ key] = map.erase key := by
  have h : ("~" ++ key).toList = '~' :: key.toList := by simp
  rw [readColumns_tilde h, String.ofList_toList]

/-- Reading a record's line applies the record. -/
theorem readLine_eq (r : Record) (map : Table) : readLine map (r.body ++ "\t") = r.apply map := by
  unfold readLine
  rw [r.trim_line]
  have hne : r.body ≠ "" := fun e => r.body_ne (by rw [e]; rfl)
  simp only [hne, if_false]
  cases r with
  | put key value hk hv => rw [body, split_body_put hk hv, readColumns_put hk, apply]
  | tombstone key hk he => rw [body, split_body_tombstone hk, readColumns_tombstone, apply]

/-- A record at the front of a file is its first line. -/
theorem lines_bytes_append (r : Record) (rest : Bytes) :
    lines (r.bytes ++ rest) = some (r.body ++ "\t") :: lines rest :=
  lines_lineBytes_append r.body_newline rest

end Record

/-- The records applied from first to last. -/
def replay (records : List Record) (map : Table) : Table := records.foldl Record.apply map

theorem replay_append (xs ys : List Record) (map : Table) : replay (xs ++ ys) map = replay ys (replay xs map) :=
  List.foldl_append

/-- Reading a file that starts with records replays them and reads on. -/
theorem readFile_append (records : List Record) (rest : Bytes) (map : Table) :
    readFileFromReader map (records.flatMap Record.bytes ++ rest) =
      readFileFromReader (replay records map) rest := by
  unfold readFileFromReader replay
  induction records generalizing map with
  | nil => rfl
  | cons r records ih =>
    rw [List.flatMap_cons, List.append_assoc, r.lines_bytes_append, readLines, r.readLine_eq, ih]
    rfl

/-- Reading a file of records replays them. -/
theorem readFile_records (records : List Record) (map : Table) :
    readFileFromReader map (records.flatMap Record.bytes) = replay records map := by
  have h := readFile_append records [] map
  rw [List.append_nil] at h
  rw [h, readFileFromReader, lines_nil]
  rfl

/-- A list of representable entries is a file of records that inserts them. -/
theorem exists_records_of_entries (entries : List (String × String))
    (h : ∀ p ∈ entries, RepKey p.1 ∧ RepValue p.2) :
    ∃ records : List Record,
      (entries.flatMap fun p => lineBytes (entryLine p.1 p.2)) = records.flatMap Record.bytes ∧
      ∀ map, replay records map = HashMap.insertAll entries map := by
  induction entries with
  | nil => exact ⟨[], rfl, fun _ => rfl⟩
  | cons p entries ih =>
    obtain ⟨records, hb, hr⟩ := ih fun q hq => h q (List.mem_cons_of_mem _ hq)
    obtain ⟨hk, hv⟩ := h p List.mem_cons_self
    refine ⟨.put p.1 p.2 hk hv :: records, ?_, fun map => ?_⟩
    · rw [List.flatMap_cons, List.flatMap_cons, hb, Record.bytes_put]
    · exact hr _

/-- A flush of a representable table writes records that rebuild it. -/
theorem exists_records_of_flush {map : Table} (h : Representable map) (ord : HashMap.Order String String) :
    ∃ records : List Record, NoVoHT.flushBytes ord map = records.flatMap Record.bytes ∧
      replay records ∅ = map := by
  obtain ⟨records, hb, hr⟩ := exists_records_of_entries (ord.entries map)
    fun p hp => h p.1 p.2 ((ord.mem map p.1 p.2).1 hp)
  exact ⟨records, hb, (hr ∅).trans (ord.insertAll_entries map)⟩

/-! ## What reading can yield -/

/-- The columns of a line that was trimmed and is not empty: the first one starts the line, the
last one ends it, and none holds a tab or a line feed. -/
theorem columns_of_trimmed {line : String} (hne : trim line ≠ "") (hnl : '\n' ∉ line.toList) :
    ∃ c key columns, split '\t' (trim line) = String.ofList (c :: key) :: columns ∧ isWhitespace c = false ∧
      (∀ s ∈ split '\t' (trim line), '\t' ∉ s.toList ∧ '\n' ∉ s.toList) ∧
      ∃ init last d, split '\t' (trim line) = init ++ [String.ofList (last ++ [d])] ∧ isWhitespace d = false := by
  have hcs : (trim line).toList = trimChars line.toList := String.toList_ofList
  have hne' : trimChars line.toList ≠ [] := hcs ▸ toList_ne_nil hne
  have hplain : ∀ s ∈ split '\t' (trim line), '\t' ∉ s.toList ∧ '\n' ∉ s.toList := by
    intro s hs
    obtain ⟨p, hp, rfl⟩ := List.mem_map.1 hs
    rw [String.toList_ofList]
    refine ⟨not_mem_of_mem_splitOn hp, fun h => hnl ?_⟩
    have := mem_of_mem_splitOn hp h
    rw [hcs] at this
    exact trimChars_sub this
  have htab : ∀ c, isWhitespace c = false → c ≠ '\t' := by
    rintro c hc rfl
    exact absurd hc (by decide)
  -- the first column
  obtain ⟨c, cs, hc⟩ := List.exists_cons_of_ne_nil hne'
  have hws : isWhitespace c = false := trimChars_cleanStart _ c (by rw [hc]; rfl)
  obtain ⟨key, rest, hfirst⟩ := splitOn_cons_ne (htab c hws) cs
  -- the last column
  have hcat := List.dropLast_concat_getLast hne'
  have hwsd : isWhitespace ((trimChars line.toList).getLast hne') = false :=
    trimChars_cleanEnd _ _ (List.getLast?_eq_some_getLast hne')
  obtain ⟨init, p, hlast⟩ := splitOn_concat_ne (htab _ hwsd) (trimChars line.toList).dropLast
  rw [hcat] at hlast
  refine ⟨c, key, rest.map String.ofList, ?_, hws, hplain, init.map String.ofList, p, _, ?_, hwsd⟩
  · unfold split
    rw [hcs, hc, hfirst]; rfl
  · unfold split
    rw [hcs, hlast, List.map_append]; rfl

/-- The value of a line is the text of its last column, after columns without tabs and line feeds. -/
theorem joinColumns_rep {value last : String} {extra init : List String} (hlast : RepValue last)
    (hcols : value :: extra = init ++ [last])
    (hplain : ∀ s ∈ value :: extra, '\t' ∉ s.toList ∧ '\n' ∉ s.toList) : RepValue (joinColumns value extra) := by
  unfold joinColumns
  cases init with
  | nil =>
    rw [List.nil_append, List.cons.injEq] at hcols
    obtain ⟨rfl, rfl⟩ := hcols
    simpa using hlast
  | cons q init =>
    rw [List.cons_append, List.cons.injEq] at hcols
    obtain ⟨rfl, rfl⟩ := hcols
    have hfilter : (init ++ [last]).filter (· ≠ "") = init.filter (· ≠ "") ++ [last] := by
      simp [List.filter_append, hlast.ne]
    rw [hfilter]
    simp only [List.append_eq_nil_iff, List.cons_ne_nil, and_false, if_false]
    obtain ⟨pre, hpre⟩ := intercalate_concat ":" last (init.filter (· ≠ ""))
    -- every character of the joined text is one of a column or of the separator
    have hmem : ∀ c ∈ (":".intercalate (init.filter (· ≠ "") ++ [last])).toList, c ≠ '\t' ∧ c ≠ '\n' := by
      intro c hc
      rcases mem_intercalate hc with h | ⟨s, hs, h⟩
      · have : c = ':' := by simpa using h
        exact this ▸ by decide
      · have hs' : s ∈ value :: (init ++ [last]) := by
          rcases List.mem_append.1 hs with hs | hs
          · exact List.mem_cons_of_mem _ (List.mem_append_left _ (List.mem_of_mem_filter hs))
          · exact List.mem_cons_of_mem _ (List.mem_append_right _ hs)
        exact ⟨fun e => (hplain s hs').1 (e ▸ h), fun e => (hplain s hs').2 (e ▸ h)⟩
    rw [hpre] at hmem ⊢
    have hv := hplain value List.mem_cons_self
    have hpre' : ∀ c ∈ pre.toList, c ≠ '\t' ∧ c ≠ '\n' := fun c hc =>
      hmem c (by rw [String.toList_append]; exact List.mem_append_left _ hc)
    rw [← String.append_assoc]
    refine hlast.prepend ?_ ?_
    · simp only [String.toList_append, List.mem_append, not_or]
      exact ⟨⟨hv.1, by decide⟩, fun h => (hpre' _ h).1 rfl⟩
    · simp only [String.toList_append, List.mem_append, not_or]
      exact ⟨⟨hv.2, by decide⟩, fun h => (hpre' _ h).2 rfl⟩

theorem readLine_representable {map : Table} (h : Representable map) {line : String} (hnl : '\n' ∉ line.toList) :
    Representable (readLine map line) := by
  unfold readLine
  by_cases hne : trim line = ""
  · simpa [hne] using h
  simp only [hne, if_false]
  obtain ⟨c, key, columns, hsplit, hws, hplain, init, last, d, hsplit', hwsd⟩ := columns_of_trimmed hne hnl
  rw [hsplit] at hplain hsplit' ⊢
  by_cases htilde : c = '~'
  · subst htilde
    rw [readColumns_tilde String.toList_ofList]
    exact h.erase _
  have hhead : (String.ofList (c :: key)).toList.head? ≠ some '~' := by
    rw [String.toList_ofList, List.head?_cons]
    exact fun e => htilde (Option.some.inj e)
  cases columns with
  | nil => exact (readColumns_malformed hhead map).symm ▸ h
  | cons value extra =>
    have hk := hplain _ List.mem_cons_self
    have hkey : RepKey (String.ofList (c :: key)) :=
      { ne := by simp
        start := by
          rw [String.toList_ofList]
          rintro x ⟨⟩
          exact hws
        tilde := hhead
        tab := hk.1
        newline := hk.2 }
    -- the last column is not the key, as there is a value column
    cases init with
    | nil => simp at hsplit'
    | cons q init =>
      rw [List.cons_append, List.cons.injEq] at hsplit'
      have hl := hplain (String.ofList (last ++ [d])) (by
        rw [hsplit'.2]
        exact List.mem_cons_of_mem _ (List.mem_append_right _ (List.mem_singleton_self _)))
      have hlast : RepValue (String.ofList (last ++ [d])) :=
        { ne := by simp
          «end» := by
            rw [String.toList_ofList]
            intro x hx
            rw [List.getLast?_concat] at hx
            cases hx; exact hwsd
          tab := hl.1
          newline := hl.2 }
      rw [readColumns_entry hhead]
      exact h.insert hkey (joinColumns_rep hlast hsplit'.2 fun s hs => hplain s (List.mem_cons_of_mem _ hs))

theorem readLines_representable {map : Table} (h : Representable map) {ls : List (Option String)}
    (hnl : ∀ line, some line ∈ ls → '\n' ∉ line.toList) : Representable (readLines map ls) := by
  induction ls generalizing map with
  | nil => exact h
  | cons l ls ih =>
    cases l with
    | none => exact h
    | some line =>
      rw [readLines]
      exact ih (readLine_representable h (hnl line List.mem_cons_self))
        fun line hl => hnl line (List.mem_cons_of_mem _ hl)

/-- The image of reading: whatever the bytes of the file are. -/
theorem readFile_representable (content : Bytes) : Representable (readFileFromReader ∅ content) :=
  readLines_representable representable_empty fun _ h => newline_not_mem_lines h

/-- A flushed table is read back exactly when it is representable. -/
theorem readFile_flushBytes (map : Table) (ord : HashMap.Order String String) :
    readFileFromReader ∅ (NoVoHT.flushBytes ord map) = map ↔ Representable map := by
  constructor
  · intro h
    rw [← h]
    exact readFile_representable _
  · intro h
    obtain ⟨records, hb, hr⟩ := exists_records_of_flush h ord
    rw [hb, readFile_records, hr]

end Zht
