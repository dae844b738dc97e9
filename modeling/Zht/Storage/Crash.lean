/-
What reopening the database file finds after a crash inside a call: the file then holds the old bytes
and a prefix of the record that was being appended, or, in a flush, a prefix of the new content. A cut
record may still be read, an entry with the front of its value and a tombstone as one of another key,
and a cut rewrite loses lines; `crash_safe_iff` says of every call and every crash point whether the
table read is the one before the call or the one after it.
-/
import Zht.Storage.Replay

namespace Zht

open Lib Lib.Utf8 Lib.Text

/-! ## Reading a cut line -/

/-- A last line without its line feed. -/
theorem readFile_unterminated {bs : Bytes} (h : lf ∉ bs) (map : Table) :
    readFileFromReader map bs = (fromUtf8 bs).elim map (readLine map) := by
  unfold readFileFromReader
  by_cases hne : bs = []
  · subst hne
    rw [lines_nil]
    rfl
  · rw [lines_unterminated h hne]
    cases fromUtf8 bs with
    | none => rfl
    | some line => rw [readLines, readLines, Option.elim_some]

theorem lf_not_mem_take {s : String} (h : '\n' ∉ s.toList) (n : Nat) : lf ∉ (utf8Bytes s).take n :=
  fun hm => h (lf_mem_utf8Bytes.1 (List.mem_of_mem_take hm))

theorem trimEnd_sub {s : String} {c : Char} (h : c ∈ (trimEnd s).toList) : c ∈ s.toList := by
  rw [toList_trimEnd] at h
  exact (List.rdropWhile_prefix _ _).subset h

/-- A line without a tab that is no tombstone is skipped. -/
theorem readLine_malformed {line : String} (hs : CleanStart line.toList) (htilde : line.toList.head? ≠ some '~')
    (htab : '\t' ∉ (trimEnd line).toList) (map : Table) : readLine map line = map := by
  unfold readLine
  rw [trim_of_cleanStart hs]
  simp only
  by_cases hne : trimEnd line = ""
  · rw [if_pos hne]
  · rw [if_neg hne]
    unfold split
    rw [List.splitOn_eq_singleton htab, List.map_singleton, String.ofList_toList]
    apply readColumns_malformed
    obtain ⟨blank, hline⟩ := exists_trimEnd_append line
    intro hhead
    apply htilde
    rw [hline, String.toList_append, List.head?_append_of_ne_nil _ (toList_ne_nil hne), hhead]

theorem trimEnd_tab {cut : String} (h : trimEnd cut = "") : trimEnd ("\t" ++ cut) = "" := by
  rw [trimEnd_append_blank _ h]
  decide

/-- A key alone, and the front of one, are no line. -/
theorem readLine_key {front back : String} (hk : RepKey (front ++ back)) (map : Table) :
    readLine map front = map := by
  by_cases hne : front = ""
  · subst hne
    rfl
  have hhead : (front ++ back).toList.head? = front.toList.head? := by
    rw [String.toList_append, List.head?_append_of_ne_nil _ (toList_ne_nil hne)]
  refine readLine_malformed ?_ ?_ ?_ map
  · intro c hc
    exact hk.start c (hhead ▸ hc)
  · exact hhead ▸ hk.tilde
  · intro htab
    apply hk.tab
    rw [String.toList_append]
    exact List.mem_append_left _ (trimEnd_sub htab)

/-- A key, its tab and the front of a value: the entry with what trimming leaves of the value, if
anything. -/
theorem readLine_cut {key cut : String} (hk : RepKey key) (htab : '\t' ∉ cut.toList) (hnl : '\n' ∉ cut.toList)
    (map : Table) :
    readLine map (key ++ "\t" ++ cut) = if trimEnd cut = "" then map else map.insert key (trimEnd cut) := by
  have hstart : CleanStart (key ++ "\t" ++ cut).toList := by
    rw [String.append_assoc, String.toList_append]
    exact cleanStart_append (toList_ne_nil hk.ne) hk.start
  by_cases hblank : trimEnd cut = ""
  · rw [if_pos hblank]
    refine readLine_malformed hstart ?_ ?_ map
    · rw [String.append_assoc, String.toList_append, List.head?_append_of_ne_nil _ (toList_ne_nil hk.ne)]
      exact hk.tilde
    · rw [String.append_assoc, trimEnd_append_blank _ (trimEnd_tab hblank)]
      exact fun h => hk.tab (trimEnd_sub h)
  · have hv : RepValue (trimEnd cut) :=
      ⟨hblank, trimEnd_cleanEnd cut, fun h => htab (trimEnd_sub h), fun h => hnl (trimEnd_sub h)⟩
    have hne : key ++ "\t" ++ trimEnd cut ≠ "" := (Record.put key (trimEnd cut) hk hv).body_ne ∘ fun h => by
      rw [Record.body, h]
      rfl
    rw [if_neg hblank, readLine, trim_of_cleanStart hstart, trimEnd_append _ hblank]
    simp only [if_neg hne]
    rw [Record.split_body_put hk hv, Record.readColumns_put hk]

/-- A tombstone removes what trimming leaves of the text after its mark. -/
theorem readLine_tombstone {text : String} (htab : '\t' ∉ (trimEnd text).toList) (map : Table) :
    readLine map ("~" ++ text) = map.erase (trimEnd text) := by
  have htrim : trim ("~" ++ text) = "~" ++ trimEnd text := by
    rw [trim_of_cleanStart]
    · by_cases hblank : trimEnd text = ""
      · rw [trimEnd_append_blank _ hblank, hblank]
        decide
      · exact trimEnd_append _ hblank
    · rw [String.toList_append]
      exact cleanStart_append (by decide) (by decide)
  have hne : "~" ++ trimEnd text ≠ "" := fun h => by
    have hnil := congrArg String.toList h
    rw [String.toList_append] at hnil
    cases hnil
  have hsplit : split '\t' ("~" ++ trimEnd text) = ["~" ++ trimEnd text] := by
    unfold split
    rw [List.splitOn_eq_singleton, List.map_singleton, String.ofList_toList]
    rw [String.toList_append, List.mem_append, not_or]
    exact ⟨by decide, htab⟩
  rw [readLine, htrim]
  simp only [if_neg hne]
  rw [hsplit, Record.readColumns_tombstone]

/-! ## Reading a cut record -/

/-- A record that lacks at most its line feed. -/
theorem readFile_record_take (r : Record) (map : Table) {n : Nat} (h : (utf8Bytes (r.body ++ "\t")).length ≤ n) :
    readFileFromReader map (r.bytes.take n) = r.apply map := by
  unfold Record.bytes lineBytes
  rw [List.take_append, List.take_of_length_le h]
  cases n - (utf8Bytes (r.body ++ "\t")).length with
  | zero =>
    rw [List.take_zero, List.append_nil, readFile_unterminated, fromUtf8_utf8Bytes, Option.elim_some]
    · exact r.readLine_eq map
    · rw [lf_mem_utf8Bytes, String.toList_append, List.mem_append, not_or]
      exact ⟨r.body_newline, by decide⟩
  | succ m =>
    have hone := readFile_records [r] map
    rw [List.flatMap_singleton] at hone
    rw [List.take_succ_cons, List.take_nil]
    exact hone

/-- A line cut inside its last text is read as far as that is still text. -/
theorem readFile_cut_text {front text : String} (hfront : '\n' ∉ front.toList) (htext : '\n' ∉ text.toList)
    {map : Table} {read : String → Table} (h : ∀ cut back, text = cut ++ back → readLine map (front ++ cut) = read cut)
    (n : Nat) : readFileFromReader map (utf8Bytes front ++ (utf8Bytes text).take n) =
      (fromUtf8 ((utf8Bytes text).take n)).elim map read := by
  have hlf : lf ∉ utf8Bytes front ++ (utf8Bytes text).take n := by
    rw [List.mem_append, lf_mem_utf8Bytes]
    rintro (hm | hm)
    · exact hfront hm
    · exact lf_not_mem_take htext n hm
  rw [readFile_unterminated hlf, fromUtf8_append]
  cases hcut : fromUtf8 ((utf8Bytes text).take n) with
  | none => rw [Option.map_none, Option.elim_none, Option.elim_none]
  | some cut =>
    obtain ⟨back, hback⟩ := exists_of_fromUtf8_take hcut
    rw [Option.map_some, Option.elim_some, Option.elim_some]
    exact h cut back hback

theorem length_tab : (utf8Bytes "\t").length = 1 := by decide

/-- What an entry adds to the table when its record is cut after `n` bytes. -/
theorem readFile_cut_entry {key value : String} (hk : RepKey key) (hv : RepValue value) (map : Table) (n : Nat) :
    readFileFromReader map ((lineBytes (entryLine key value)).take n) =
      (fromUtf8 ((utf8Bytes value).take (n - (utf8Bytes key).length - 1))).elim map fun cut =>
        if trimEnd cut = "" then map else map.insert key (trimEnd cut) := by
  have hbytes : lineBytes (entryLine key value) =
      utf8Bytes key ++ (utf8Bytes "\t" ++ (utf8Bytes value ++ (utf8Bytes "\t" ++ [lf]))) := by
    simp [lineBytes, entryLine]
  rcases Nat.lt_or_ge (utf8Bytes key).length n with hlt | hge
  · obtain ⟨m, rfl⟩ : ∃ m, n = (utf8Bytes key).length + 1 + m := ⟨n - (utf8Bytes key).length - 1, by omega⟩
    have hm : (utf8Bytes key).length + 1 + m - (utf8Bytes key).length - 1 = m := by omega
    rw [hm]
    rcases Nat.lt_or_ge (utf8Bytes value).length m with hall | hcut
    · -- the whole value is there
      have hline : (utf8Bytes ((Record.put key value hk hv).body ++ "\t")).length ≤
          (utf8Bytes key).length + 1 + m := by
        simp only [Record.body, utf8Bytes_append, List.length_append, length_tab]
        omega
      rw [List.take_of_length_le (Nat.le_of_lt hall), fromUtf8_utf8Bytes, Option.elim_some,
        trimEnd_of_cleanEnd hv.end, if_neg hv.ne, ← Record.bytes_put key value hk hv, readFile_record_take _ map hline,
        Record.apply]
    · have htake : (lineBytes (entryLine key value)).take ((utf8Bytes key).length + 1 + m) =
          utf8Bytes (key ++ "\t") ++ (utf8Bytes value).take m := by
        have htab : (utf8Bytes (key ++ "\t")).length = (utf8Bytes key).length + 1 := by
          rw [utf8Bytes_append, List.length_append, length_tab]
        rw [hbytes, ← List.append_assoc, ← utf8Bytes_append, ← htab, List.take_length_add_append,
          List.take_append_of_le_length hcut]
      have hfront : '\n' ∉ (key ++ "\t").toList := by
        rw [String.toList_append, List.mem_append]
        rintro (h | h)
        · exact hk.newline h
        · exact absurd h (by decide)
      rw [htake]
      refine readFile_cut_text hfront hv.newline (fun cut back hvalue => ?_) m
      have hsub : ∀ c ∈ cut.toList, c ∈ value.toList := by
        intro c hc
        rw [hvalue, String.toList_append]
        exact List.mem_append_left _ hc
      exact readLine_cut hk (fun h => hv.tab (hsub _ h)) (fun h => hv.newline (hsub _ h)) map
  · -- the cut is in the key
    have hzero : n - (utf8Bytes key).length - 1 = 0 := by omega
    have hnothing : (fromUtf8 []).elim map
        (fun cut => if trimEnd cut = "" then map else map.insert key (trimEnd cut)) = map := rfl
    have hread : readFileFromReader map (utf8Bytes "" ++ (utf8Bytes key).take n) =
        (fromUtf8 ((utf8Bytes key).take n)).elim map fun _ => map := by
      refine readFile_cut_text List.not_mem_nil hk.newline (fun cut back hkey => ?_) n
      subst hkey
      rw [String.empty_append]
      exact readLine_key hk map
    rw [hbytes, List.take_append_of_le_length hge, hzero, List.take_zero, hnothing]
    refine hread.trans ?_
    cases fromUtf8 ((utf8Bytes key).take n) <;> rfl

/-- What a tombstone removes from the table when its record is cut after `n` bytes. -/
theorem readFile_cut_tombstone {key : String} (hk : RepKey key) (he : CleanEnd key.toList) {map : Table}
    (hempty : map.lookup "" = none) (n : Nat) :
    readFileFromReader map ((lineBytes (removalLine key)).take n) =
      (fromUtf8 ((utf8Bytes key).take (n - 1))).elim map fun cut => map.erase (trimEnd cut) := by
  have hbytes : lineBytes (removalLine key) =
      utf8Bytes "~" ++ (utf8Bytes key ++ (utf8Bytes "\t" ++ [lf])) := by
    simp [lineBytes, removalLine]
  cases n with
  | zero =>
    have hnothing : (fromUtf8 []).elim map (fun cut => map.erase (trimEnd cut)) = map :=
      HashMap.erase_eq_self.2 hempty
    rw [List.take_zero, Nat.zero_sub, List.take_zero, hnothing, readFile_unterminated List.not_mem_nil]
    rfl
  | succ m =>
    rw [Nat.add_sub_cancel]
    rcases Nat.lt_or_ge (utf8Bytes key).length m with hall | hcut
    · have hline : (utf8Bytes ((Record.tombstone key hk he).body ++ "\t")).length ≤ m + 1 := by
        have htilde : (utf8Bytes "~").length = 1 := by decide
        simp only [Record.body, utf8Bytes_append, List.length_append, htilde, length_tab]
        omega
      rw [List.take_of_length_le (Nat.le_of_lt hall), fromUtf8_utf8Bytes, Option.elim_some, trimEnd_of_cleanEnd he,
        ← Record.bytes_tombstone key hk he, readFile_record_take _ map hline, Record.apply]
    · have htake : (lineBytes (removalLine key)).take (m + 1) = utf8Bytes "~" ++ (utf8Bytes key).take m := by
        have hone : (utf8Bytes "~").length = 1 := by decide
        rw [hbytes, Nat.add_comm, ← hone, List.take_length_add_append, List.take_append_of_le_length hcut]
      rw [htake]
      refine readFile_cut_text (by decide) hk.newline (fun cut back hkey => ?_) m
      refine readLine_tombstone (fun h => hk.tab ?_) map
      rw [hkey, String.toList_append]
      exact List.mem_append_left _ (trimEnd_sub h)

/-! ## Crash points -/

/-- The bytes on disk when a call stops after `n` bytes of what it writes: those a write leaves that
fails there. -/
def StoreOp.crash (s : NoVoHT) (n : Nat) (op : StoreOp) : Bytes :=
  (op.exec { s with file := { s.file with faults := [.writeFailed n ""] } }).2.file.bytes

/-- Reopening the file after the crash gives the table before the call or the one after it. -/
def StoreOp.CrashSafe (ord : HashMap.Order String String) (s : NoVoHT) (n : Nat) (op : StoreOp) : Prop :=
  let reopened := NoVoHT.withPersistence ord s.dbPath ⟨op.crash s n, []⟩
  reopened.1 = .ok () ∧ (reopened.2.map = s.map ∨ reopened.2.map = (op.exec s).2.map)

/-- Of the value of an entry cut after `n` bytes what is left is nothing, or malformed, or (but for white
space at its end) the value that the key has, or the one it is given. -/
def SafeEntryCut (map : Table) (key value : String) (n : Nat) : Prop :=
  ∀ cut ∈ fromUtf8 ((utf8Bytes value).take (n - (utf8Bytes key).length - 1)),
    trimEnd cut = "" ∨ map.lookup key = some (trimEnd cut) ∨ trimEnd cut = value

/-- Of the key of a tombstone cut after `n` bytes what is left is malformed, or no key of the table, or
the key. -/
def SafeTombstoneCut (map : Table) (key : String) (n : Nat) : Prop :=
  ∀ cut ∈ fromUtf8 ((utf8Bytes key).take (n - 1)), map.lookup (trimEnd cut) = none ∨ trimEnd cut = key

instance (map : Table) (key value : String) (n : Nat) : Decidable (SafeEntryCut map key value n) :=
  inferInstanceAs (Decidable (∀ cut ∈ fromUtf8 ((utf8Bytes value).take (n - (utf8Bytes key).length - 1)),
    trimEnd cut = "" ∨ map.lookup key = some (trimEnd cut) ∨ trimEnd cut = value))

instance (map : Table) (key : String) (n : Nat) : Decidable (SafeTombstoneCut map key n) :=
  inferInstanceAs (Decidable (∀ cut ∈ fromUtf8 ((utf8Bytes key).take (n - 1)),
    map.lookup (trimEnd cut) = none ∨ trimEnd cut = key))

/-- The cut does no harm; a flush may lack its last tab and line feed. -/
def StoreOp.SafeCut (s : NoVoHT) (n : Nat) : StoreOp → Prop
  | put key value => SafeEntryCut s.map key value n
  | append key value => SafeEntryCut s.map key (NoVoHT.appendValue s.map key value) n
  | compareSwap key expected newValue => SafeEntryCut s.map key (NoVoHT.swapped s.map key expected newValue).2 n
  | remove key => s.map.lookup key = none ∨ SafeTombstoneCut s.map key n
  | flush ord => (NoVoHT.flushBytes ord s.map).length ≤ n + 2

theorem entry_cut_iff {map : Table} {key value : String} (hk : RepKey key) (hv : RepValue value) (n : Nat) :
    (readFileFromReader map ((lineBytes (entryLine key value)).take n) = map ∨
        readFileFromReader map ((lineBytes (entryLine key value)).take n) = map.insert key value) ↔
      SafeEntryCut map key value n := by
  rw [readFile_cut_entry hk hv, SafeEntryCut]
  cases fromUtf8 ((utf8Bytes value).take (n - (utf8Bytes key).length - 1)) with
  | none => simp
  | some cut =>
    have hinsert : map.insert key (trimEnd cut) = map.insert key value ↔ trimEnd cut = value := by
      constructor
      · intro h
        have hlookup := congrArg (Finmap.lookup key) h
        rw [Finmap.lookup_insert, Finmap.lookup_insert] at hlookup
        exact Option.some.inj hlookup
      · intro h
        rw [h]
    simp only [Option.elim_some, Option.mem_some_iff, forall_eq']
    by_cases hblank : trimEnd cut = ""
    · rw [if_pos hblank]
      exact iff_of_true (.inl rfl) (.inl hblank)
    · rw [if_neg hblank, HashMap.insert_eq_self, hinsert]
      exact (or_iff_right hblank).symm

theorem tombstone_cut_iff {map : Table} (hempty : map.lookup "" = none) {key value : String} (hk : RepKey key)
    (he : CleanEnd key.toList) (hthere : map.lookup key = some value) (n : Nat) :
    (readFileFromReader map ((lineBytes (removalLine key)).take n) = map ∨
        readFileFromReader map ((lineBytes (removalLine key)).take n) = map.erase key) ↔
      SafeTombstoneCut map key n := by
  rw [readFile_cut_tombstone hk he hempty, SafeTombstoneCut]
  cases fromUtf8 ((utf8Bytes key).take (n - 1)) with
  | none => simp
  | some cut =>
    have herase : map.erase (trimEnd cut) = map.erase key ↔ trimEnd cut = key := by
      constructor
      · intro h
        by_contra hne
        have hlookup := congrArg (Finmap.lookup key) h
        rw [Finmap.lookup_erase_ne fun e => hne e.symm, Finmap.lookup_erase, hthere] at hlookup
        cases hlookup
      · intro h
        rw [h]
    simp only [Option.elim_some, Option.mem_some_iff, forall_eq']
    rw [HashMap.erase_eq_self, herase]

/-! ## Calls that append a record -/

namespace LogInv

variable {s : NoVoHT}

theorem empty_not_mem (h : LogInv s) : s.map.lookup "" = none := by
  cases hl : s.map.lookup "" with
  | none => rfl
  | some value => exact absurd rfl (h.rep "" value hl).1.ne

/-- Reopening reads what is on disk. -/
theorem crashSafe_iff (ord : HashMap.Order String String) (n : Nat) (op : StoreOp) :
    op.CrashSafe ord s n ↔
      readFileFromReader ∅ (op.crash s n) = s.map ∨ readFileFromReader ∅ (op.crash s n) = (op.exec s).2.map := by
  obtain ⟨hok, hmap, -⟩ := LogInv.opened ord s.dbPath (op.crash s n)
  unfold StoreOp.CrashSafe
  simp only [hok, hmap, true_and]

/-- A call that appends an entry. -/
theorem entry_safe_iff (h : LogInv s) {op : StoreOp} {key value : String} (hk : RepKey key) (hv : RepValue value)
    {n : Nat} (hcrash : op.crash s n = s.file.bytes ++ (lineBytes (entryLine key value)).take n)
    (hmap : (op.exec s).2.map = s.map.insert key value) (ord : HashMap.Order String String) :
    op.CrashSafe ord s n ↔ SafeEntryCut s.map key value n := by
  obtain ⟨records, hlog, hreplay⟩ := h.log
  rw [crashSafe_iff, hcrash, hmap, hlog, readFile_append, hreplay, entry_cut_iff hk hv]

theorem put_safe_iff (h : LogInv s) {key value : String} (hk : RepKey key) (hv : RepValue value) (n : Nat)
    (ord : HashMap.Order String String) :
    (StoreOp.put key value).CrashSafe ord s n ↔ SafeEntryCut s.map key value n := by
  refine h.entry_safe_iff hk hv ?_ ?_ ord
  · simp [StoreOp.crash, StoreOp.exec, NoVoHT.put, NoVoHT.writeEntry, DbFile.append, DbFile.outcome, hk.ne,
      h.persistent]
  · simp [StoreOp.exec, NoVoHT.put, hk.ne]

theorem append_safe_iff (h : LogInv s) {key value : String} (hk : RepKey key) (hv : RepValue value) (n : Nat)
    (ord : HashMap.Order String String) :
    (StoreOp.append key value).CrashSafe ord s n ↔
      SafeEntryCut s.map key (NoVoHT.appendValue s.map key value) n := by
  refine h.entry_safe_iff hk (appendValue_rep h.rep hv key) ?_ ?_ ord
  · simp [StoreOp.crash, StoreOp.exec, NoVoHT.append, NoVoHT.writeEntry, DbFile.append, DbFile.outcome, hk.ne,
      h.persistent]
  · simp [StoreOp.exec, NoVoHT.append, hk.ne]

theorem compareSwap_safe_iff (h : LogInv s) {key newValue : String} (hk : RepKey key) (hv : RepValue newValue)
    (expected : String) (n : Nat) (ord : HashMap.Order String String) :
    (StoreOp.compareSwap key expected newValue).CrashSafe ord s n ↔
      SafeEntryCut s.map key (NoVoHT.swapped s.map key expected newValue).2 n := by
  refine h.entry_safe_iff hk (swapped_rep h.rep hv key expected) ?_ ?_ ord
  · simp [StoreOp.crash, StoreOp.exec, NoVoHT.compareSwap, NoVoHT.writeEntry, DbFile.append, DbFile.outcome,
      h.persistent]
  · simp [StoreOp.exec, NoVoHT.compareSwap, NoVoHT.swapped_eq_insert]

theorem remove_safe_iff (h : LogInv s) {key : String} (hk : RepKey key) (he : CleanEnd key.toList) (n : Nat)
    (ord : HashMap.Order String String) :
    (StoreOp.remove key).CrashSafe ord s n ↔ s.map.lookup key = none ∨ SafeTombstoneCut s.map key n := by
  rw [crashSafe_iff]
  cases hl : s.map.lookup key with
  | none =>
    -- nothing is written
    refine iff_of_true (.inl ?_) (.inl rfl)
    rw [← h.read_back]
    simp [StoreOp.crash, StoreOp.exec, NoVoHT.remove, hl]
  | some value =>
    have hcrash : (StoreOp.remove key).crash s n = s.file.bytes ++ (lineBytes (removalLine key)).take n := by
      simp [StoreOp.crash, StoreOp.exec, NoVoHT.remove, NoVoHT.writeRemoval, DbFile.append, DbFile.outcome, hl,
        h.persistent]
    have hmap : ((StoreOp.remove key).exec s).2.map = s.map.erase key := by
      simp [StoreOp.exec, NoVoHT.remove, hl]
    obtain ⟨records, hlog, hreplay⟩ := h.log
    rw [hcrash, hmap, hlog, readFile_append, hreplay, tombstone_cut_iff h.empty_not_mem hk he hl]
    exact (or_iff_right (Option.some_ne_none value)).symm

end LogInv

/-! ## A cut rewrite -/

/-- The bytes of entries, one line each. -/
def entriesBytes (entries : List (String × String)) : Bytes := entries.flatMap fun p => lineBytes (entryLine p.1 p.2)

/-- A cut rewrite holds no keys but those of its entries. -/
theorem lookup_cut_of_not_mem {entries : List (String × String)} (h : ∀ p ∈ entries, RepKey p.1 ∧ RepValue p.2)
    {k : String} (hk : k ∉ entries.map Prod.fst) (map : Table) (n : Nat) :
    (readFileFromReader map ((entriesBytes entries).take n)).lookup k = map.lookup k := by
  induction entries generalizing map n with
  | nil =>
    have hnil : (entriesBytes []).take n = [] := List.take_nil
    rw [hnil, readFileFromReader, lines_nil]
    rfl
  | cons p entries ih =>
    obtain ⟨hp, hv⟩ := h p List.mem_cons_self
    rw [List.map_cons, List.mem_cons, not_or] at hk
    have hcons : entriesBytes (p :: entries) = lineBytes (entryLine p.1 p.2) ++ entriesBytes entries := rfl
    rw [hcons]
    rcases Nat.lt_or_ge n (lineBytes (entryLine p.1 p.2)).length with hlt | hge
    · rw [List.take_append_of_le_length (Nat.le_of_lt hlt), readFile_cut_entry hp hv]
      cases fromUtf8 ((utf8Bytes p.2).take (n - (utf8Bytes p.1).length - 1)) with
      | none => rw [Option.elim_none]
      | some cut =>
        rw [Option.elim_some]
        split
        · rfl
        · exact Finmap.lookup_insert_of_ne _ hk.1
    · have hread := readFile_append [.put p.1 p.2 hp hv]
        ((entriesBytes entries).take (n - (lineBytes (entryLine p.1 p.2)).length)) map
      rw [List.flatMap_singleton, Record.bytes_put] at hread
      rw [List.take_append, List.take_of_length_le hge, hread, ih (fun q hq => h q (List.mem_cons_of_mem _ hq)) hk.2]
      exact Finmap.lookup_insert_of_ne _ hk.1

/-- The front of a value is not the value, trimmed or not. -/
theorem trimEnd_cut_ne {value cut : String} {m : Nat} (h : fromUtf8 ((utf8Bytes value).take m) = some cut)
    (hm : m < (utf8Bytes value).length) : trimEnd cut ≠ value := by
  rintro rfl
  obtain ⟨blank, hblank⟩ := exists_trimEnd_append cut
  have hcut := congrArg List.length (fromUtf8_eq_some.1 h)
  have hlength := congrArg (fun t => (utf8Bytes t).length) hblank
  simp only [utf8Bytes_append, List.length_append] at hlength
  rw [List.length_take, Nat.min_eq_left (Nat.le_of_lt hm)] at hcut
  omega

theorem length_entry (key value : String) :
    (lineBytes (entryLine key value)).length = (utf8Bytes key).length + (utf8Bytes value).length + 3 := by
  simp only [lineBytes, entryLine, utf8Bytes_append, List.length_append, length_tab, List.length_singleton]
  omega

/-- The last entry of a cut rewrite is whole if at most its tab and its line feed are missing. -/
theorem last_entry_cut_iff {key value : String} (hk : RepKey key) (hv : RepValue value) {map : Table}
    (hnew : map.lookup key = none) (n : Nat) :
    readFileFromReader map ((lineBytes (entryLine key value)).take n) = map.insert key value ↔
      (lineBytes (entryLine key value)).length ≤ n + 2 := by
  have hlookup : (map.insert key value).lookup key = some value := Finmap.lookup_insert map
  have hpos : 0 < (utf8Bytes value).length := by
    rw [List.length_pos_iff, ne_eq, ← fromUtf8Lossy_eq_empty, fromUtf8Lossy_utf8Bytes]
    exact hv.ne
  rw [readFile_cut_entry hk hv, length_entry]
  rcases Nat.lt_or_ge (n - (utf8Bytes key).length - 1) (utf8Bytes value).length with hcut | hall
  · refine iff_of_false (fun h => ?_) (by omega)
    rw [← h] at hlookup
    cases hfront : fromUtf8 ((utf8Bytes value).take (n - (utf8Bytes key).length - 1)) with
    | none =>
      rw [hfront, Option.elim_none, hnew] at hlookup
      cases hlookup
    | some cut =>
      rw [hfront, Option.elim_some] at hlookup
      split at hlookup
      · rw [hnew] at hlookup
        cases hlookup
      · rw [Finmap.lookup_insert] at hlookup
        exact trimEnd_cut_ne hfront hcut (Option.some.inj hlookup)
  · rw [List.take_of_length_le hall, fromUtf8_utf8Bytes, Option.elim_some, trimEnd_of_cleanEnd hv.end, if_neg hv.ne]
    exact iff_of_true rfl (by omega)

theorem rewrite_cut_iff {entries : List (String × String)} (h : ∀ p ∈ entries, RepKey p.1 ∧ RepValue p.2)
    (hnodup : (entries.map Prod.fst).Nodup) (n : Nat) :
    readFileFromReader ∅ ((entriesBytes entries).take n) = HashMap.insertAll entries ∅ ↔
      (entriesBytes entries).length ≤ n + 2 := by
  rcases entries.eq_nil_or_concat with rfl | ⟨init, p, rfl⟩
  · have hnil : (entriesBytes []).take n = [] := List.take_nil
    rw [hnil, readFileFromReader, lines_nil]
    exact iff_of_true rfl (Nat.zero_le _)
  rw [List.concat_eq_append] at h hnodup ⊢
  have hinit : ∀ q ∈ init, RepKey q.1 ∧ RepValue q.2 := fun q hq => h q (List.mem_append_left _ hq)
  obtain ⟨hk, hv⟩ := h p (List.mem_append_right _ (List.mem_singleton_self p))
  have hlast : p.1 ∉ init.map Prod.fst := by
    rw [List.map_append, List.nodup_append] at hnodup
    exact fun hmem => hnodup.2.2 _ hmem _ (List.mem_singleton_self _) rfl
  have hbytes : entriesBytes (init ++ [p]) = entriesBytes init ++ lineBytes (entryLine p.1 p.2) := by
    unfold entriesBytes
    rw [List.flatMap_append, List.flatMap_singleton]
  have hinsert : HashMap.insertAll (init ++ [p]) ∅ = (HashMap.insertAll init ∅).insert p.1 p.2 := List.foldl_append
  have hnew : (HashMap.insertAll init (∅ : Table)).lookup p.1 = none := by
    rw [HashMap.lookup_insertAll_of_not_mem hlast, Finmap.lookup_empty]
  rw [hbytes, hinsert, List.length_append]
  rcases Nat.lt_or_ge n (entriesBytes init).length with hlt | hge
  · -- the last entry is missing
    refine iff_of_false (fun hread => ?_) ?_
    · have hnone := lookup_cut_of_not_mem hinit hlast ∅ n
      rw [List.take_append_of_le_length (Nat.le_of_lt hlt)] at hread
      rw [hread, Finmap.lookup_insert, Finmap.lookup_empty] at hnone
      cases hnone
    · rw [length_entry]
      omega
  · obtain ⟨records, hrecords, hreplay⟩ := exists_records_of_entries init hinit
    have hread := readFile_append records ((lineBytes (entryLine p.1 p.2)).take (n - (entriesBytes init).length)) ∅
    rw [← hrecords, hreplay] at hread
    rw [List.take_append, List.take_of_length_le hge]
    unfold entriesBytes at hread hge ⊢
    rw [hread, last_entry_cut_iff hk hv hnew]
    omega

theorem LogInv.flush_safe_iff {s : NoVoHT} (h : LogInv s) (ord' : HashMap.Order String String) (n : Nat)
    (ord : HashMap.Order String String) :
    (StoreOp.flush ord').CrashSafe ord s n ↔ (NoVoHT.flushBytes ord' s.map).length ≤ n + 2 := by
  have hcrash : (StoreOp.flush ord').crash s n = (entriesBytes (ord'.entries s.map)).take n := by
    simp [StoreOp.crash, StoreOp.exec, NoVoHT.flush, DbFile.rewrite, DbFile.outcome, h.persistent, NoVoHT.flushBytes,
      entriesBytes]
  have hmap : ((StoreOp.flush ord').exec s).2.map = s.map := NoVoHT.flush_map s ord'
  have hrep : ∀ p ∈ ord'.entries s.map, RepKey p.1 ∧ RepValue p.2 :=
    fun p hp => h.rep p.1 p.2 ((ord'.mem s.map p.1 p.2).1 hp)
  have hrewrite := rewrite_cut_iff hrep (ord'.nodup s.map) n
  rw [ord'.insertAll_entries] at hrewrite
  rw [crashSafe_iff, hmap, or_self, hcrash, hrewrite]
  rfl

/-! ## Main result -/

/-- Open a file, run documented operations, and crash in another after any number of bytes: reopening
gives the table before that call or after it exactly where the cut is safe. -/
theorem crash_safe_iff (ord : HashMap.Order String String) (dbPath : String) (content : Bytes) (ops : List StoreOp)
    (hops : ∀ op ∈ ops, op.Documented) (op : StoreOp) (hop : op.Documented) (n : Nat)
    (ord' : HashMap.Order String String) :
    let s := Machine.after StoreOp.exec (NoVoHT.withPersistence ord dbPath ⟨content, []⟩).2 ops
    op.CrashSafe ord' s n ↔ op.SafeCut s n := by
  intro s
  have hinv : LogInv s :=
    Machine.after_invariant (fun s op hs hd => hs.exec hd) (LogInv.opened ord dbPath content).2.2
      (Machine.along_of_forall hops)
  cases op with
  | put key value => exact hinv.put_safe_iff hop.1.rep hop.2 n ord'
  | append key value => exact hinv.append_safe_iff hop.1.rep hop.2 n ord'
  | remove key =>
    have hk : DocumentedKey key := hop
    exact hinv.remove_safe_iff hk.rep hk.end n ord'
  | compareSwap key expected newValue => exact hinv.compareSwap_safe_iff hop.1.rep hop.2 expected n ord'
  | flush o => exact hinv.flush_safe_iff o n ord'

/-- A put that lacks its last tab and line feed. -/
theorem crash_safe_example :
    (StoreOp.put "k" "v").CrashSafe HashMap.Order.sorted
      (Machine.after StoreOp.exec
        (NoVoHT.withPersistence HashMap.Order.sorted "zht.db" ⟨utf8Bytes "k\tu\t\n", []⟩).2 [.put "a" "1"]) 3 := by
  have hops : ∀ op ∈ [StoreOp.put "a" "1"], op.Documented := by
    intro op hop
    rw [List.mem_singleton.1 hop]
    decide
  have hput : (StoreOp.put "k" "v").Documented := by decide
  refine (crash_safe_iff HashMap.Order.sorted "zht.db" (utf8Bytes "k\tu\t\n") _ hops _ hput 3 .sorted).2 ?_
  show SafeEntryCut _ "k" "v" 3
  decide

/-- A put of `ab` cut within its value leaves `a`, a tombstone of `ab` cut within its key removes `a`, and
a flush cut at its start leaves nothing. -/
theorem crash_corrupts :
    let s := (NoVoHT.withPersistence HashMap.Order.sorted "zht.db" ⟨utf8Bytes "a\t1\t\nab\t2\t\n", []⟩).2
    ¬(StoreOp.put "k" "ab").CrashSafe HashMap.Order.sorted s 3 ∧
      ¬(StoreOp.remove "ab").CrashSafe HashMap.Order.sorted s 2 ∧
      ¬(StoreOp.flush HashMap.Order.sorted).CrashSafe HashMap.Order.sorted s 0 := by
  refine ⟨?_, ?_, ?_⟩
  · rintro ⟨-, h | h⟩
    · exact absurd (congrArg (Finmap.lookup "k") h) (by decide)
    · exact absurd (congrArg (Finmap.lookup "k") h) (by decide)
  · rintro ⟨-, h | h⟩
    · exact absurd (congrArg (Finmap.lookup "a") h) (by decide)
    · exact absurd (congrArg (Finmap.lookup "a") h) (by decide)
  · rintro ⟨-, h | h⟩
    · exact absurd (congrArg (Finmap.lookup "a") h) (by decide)
    · exact absurd (congrArg (Finmap.lookup "a") h) (by decide)

end Zht
