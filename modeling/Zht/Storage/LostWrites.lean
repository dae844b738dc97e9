/-
A database file whose writes get lost. Every access to the file meets an outcome: opening may fail,
and a write or its flush may fail with nothing or with everything on disk (a part of it is a torn
write, whose harm `crash_safe_iff` says). The operations act on the map and answer as if nothing had
happened; the file stays a list of records and holds of each key what the map held when an access about
it last reached the disk (`lost_writes`).
-/
import Zht.Lib.LastWrite
import Zht.Storage.Replay

namespace Zht

open Lib Lib.LastWrite

/-! ## Outcomes -/

/-- All that was to be written is on disk. -/
def WriteOutcome.lands (size : Nat) : WriteOutcome → Bool
  | ok => true
  | openFailed _ => false
  | writeFailed written _ | flushFailed written _ => decide (size ≤ written)

/-- The file was opened; for a rewrite its old content is then gone. -/
def WriteOutcome.opens : WriteOutcome → Bool
  | openFailed _ => false
  | _ => true

/-- A write that failed left nothing, or everything. -/
def WriteOutcome.Untorn (size : Nat) : WriteOutcome → Prop
  | ok | openFailed _ => True
  | writeFailed written _ | flushFailed written _ => written = 0 ∨ size ≤ written

instance (size : Nat) : ∀ outcome : WriteOutcome, Decidable (outcome.Untorn size)
  | .ok | .openFailed _ => inferInstanceAs (Decidable True)
  | .writeFailed written _ | .flushFailed written _ => inferInstanceAs (Decidable (written = 0 ∨ size ≤ written))

/-- What a write that failed but is not torn leaves of its bytes. -/
theorem take_of_untorn {bytes : Bytes} {written : Nat} (h : written = 0 ∨ bytes.length ≤ written) :
    bytes.take written = if bytes.length ≤ written then bytes else [] := by
  split
  · rw [List.take_of_length_le ‹_›]
  · obtain rfl | hle := h
    · rfl
    · contradiction

theorem DbFile.append_bytes {f : DbFile} {record : Bytes} (h : f.outcome.Untorn record.length) :
    (f.append record).bytes = if f.outcome.lands record.length then f.bytes ++ record else f.bytes := by
  unfold DbFile.append
  revert h
  cases f.outcome with
  | ok => exact fun _ => rfl
  | openFailed e => exact fun _ => rfl
  | writeFailed n e | flushFailed n e =>
    intro h
    simp only [WriteOutcome.lands, decide_eq_true_eq, take_of_untorn h]
    split
    · rfl
    · exact List.append_nil _

theorem DbFile.rewrite_bytes {f : DbFile} {content : Bytes} (h : f.outcome.Untorn content.length) :
    (f.rewrite content).bytes =
      if f.outcome.lands content.length then content else if f.outcome.opens then [] else f.bytes := by
  unfold DbFile.rewrite
  revert h
  cases f.outcome with
  | ok => exact fun _ => rfl
  | openFailed e => exact fun _ => rfl
  | writeFailed n e | flushFailed n e =>
    intro h
    simp only [WriteOutcome.lands, WriteOutcome.opens, decide_eq_true_eq, if_true, take_of_untorn h]

/-! ## Accesses -/

/-- What an operation does to the file: it appends the record of a write, or rewrites it. -/
inductive Access
  | record (w : LastWrite.Write String String)
  | rewrite (ord : HashMap.Order String String)

/-- The line of a write. -/
def recordBytes : LastWrite.Write String String → Bytes
  | (key, some value) => lineBytes (entryLine key value)
  | (key, none) => lineBytes (removalLine key)

namespace Access

/-- What is to be written. -/
def bytes (map : Table) : Access → Bytes
  | record w => recordBytes w
  | rewrite ord => NoVoHT.flushBytes ord map

/-- The map after it. -/
def memory (map : Table) : Access → Table
  | record w => write map w
  | rewrite _ => map

/-- The file after it. -/
def onFile (map : Table) (f : DbFile) : Access → DbFile
  | record w => f.append (recordBytes w)
  | rewrite ord => f.rewrite (NoVoHT.flushBytes ord map)

/-- What the file says of the key from this access on; `none` where the access leaves that as it was. -/
def reach (map : Table) (f : DbFile) (key : String) : Access → Option (Option String)
  | record w => if w.1 = key ∧ f.outcome.lands (recordBytes w).length then some w.2 else none
  | rewrite ord =>
    if f.outcome.lands (NoVoHT.flushBytes ord map).length then some (map.lookup key)
    else if f.outcome.opens then some none else none

/-- The access was about the key, and the map's value for it is not on disk. -/
def Misses (map : Table) (f : DbFile) (key : String) : Access → Prop
  | record w => w.1 = key ∧ f.outcome.lands (recordBytes w).length = false
  | rewrite ord => f.outcome.opens = true ∧ f.outcome.lands (NoVoHT.flushBytes ord map).length = false

/-- Where the access reaches the key and does not miss it, file and map agree on it. -/
theorem reach_of_not_misses {map : Table} {f : DbFile} {key : String} {a : Access} {value : Option String}
    (h : a.reach map f key = some value) (hm : ¬ a.Misses map f key) : value = (a.memory map).lookup key := by
  cases a with
  | record w =>
    rw [reach] at h
    split at h
    · rename_i hw
      rw [memory, lookup_write, if_pos hw.1]
      exact (Option.some.inj h).symm
    · cases h
  | rewrite ord =>
    rw [reach] at h
    split at h
    · exact (Option.some.inj h).symm
    · rename_i hlost
      split at h
      · rename_i hopen
        exact absurd ⟨hopen, by simpa using hlost⟩ hm
      · cases h

/-- An access that neither reaches nor misses a key is not about it. -/
theorem memory_of_not_reach {map : Table} {f : DbFile} {key : String} {a : Access}
    (h : a.reach map f key = none) (hm : ¬ a.Misses map f key) : (a.memory map).lookup key = map.lookup key := by
  cases a with
  | rewrite ord => rfl
  | record w =>
    rw [memory, lookup_write]
    split
    · rename_i hw
      rw [reach] at h
      split at h
      · cases h
      · rename_i hlost
        exact absurd ⟨hw, by simpa [hw] using hlost⟩ hm
    · rfl

end Access

/-- The access the operation makes; one that fails makes none. -/
def StoreOp.access (map : Table) : StoreOp → Option Access
  | put key value => if key = "" then none else some (.record (key, some value))
  | append key value => if key = "" then none else some (.record (key, some (NoVoHT.appendValue map key value)))
  | remove key => (map.lookup key).map fun _ => .record (key, none)
  | compareSwap key expected newValue => some (.record (key, some (NoVoHT.swapped map key expected newValue).2))
  | flush ord => some (.rewrite ord)

/-- An operation on a persistent table is its access, made to the map and to the file. -/
theorem StoreOp.exec_access {s : NoVoHT} (hp : s.persistent = true) (op : StoreOp) :
    (op.exec s).2 = (op.access s.map).elim s fun a =>
      { s with map := a.memory s.map, file := a.onFile s.map s.file } := by
  cases op with
  | put key value =>
    by_cases hk : key = "" <;>
      simp [exec, access, NoVoHT.put, NoVoHT.writeEntry, Access.memory, Access.onFile, write, recordBytes, hk, hp]
  | append key value =>
    by_cases hk : key = "" <;>
      simp [exec, access, NoVoHT.append, NoVoHT.writeEntry, Access.memory, Access.onFile, write, recordBytes, hk, hp]
  | remove key =>
    cases hl : s.map.lookup key <;>
      simp [exec, access, NoVoHT.remove, NoVoHT.writeRemoval, Access.memory, Access.onFile, write, recordBytes, hl, hp]
  | compareSwap key expected newValue =>
    simp [exec, access, NoVoHT.compareSwap, NoVoHT.writeEntry, Access.memory, Access.onFile, write, recordBytes,
      hp, NoVoHT.swapped_eq_insert]
  | flush ord => simp [exec, access, NoVoHT.flush, Access.memory, Access.onFile, hp]

/-- The access finds the disk such that its write is not torn. -/
def StoreOp.Untorn (s : NoVoHT) (op : StoreOp) : Prop :=
  ∀ a ∈ op.access s.map, s.file.outcome.Untorn (a.bytes s.map).length

instance (s : NoVoHT) (op : StoreOp) : Decidable (op.Untorn s) :=
  inferInstanceAs (Decidable (∀ a ∈ op.access s.map, s.file.outcome.Untorn (a.bytes s.map).length))

/-! ## One operation -/

/-- The file is a list of records, though not all those of the map. -/
structure RecordsInv (s : NoVoHT) : Prop where
  persistent : s.persistent = true
  log : ∃ records : List Record, s.file.bytes = records.flatMap Record.bytes
  rep : Representable s.map

/-- The record of a documented operation is one the format carries, and it leaves the map representable. -/
theorem StoreOp.access_record {map : Table} (h : Representable map) {op : StoreOp} (hd : op.Documented)
    {w : LastWrite.Write String String} (ha : op.access map = some (.record w)) :
    Representable (write map w) ∧ ∃ r : Record, r.bytes = recordBytes w ∧ ∀ m, r.apply m = write m w := by
  cases op with
  | put key value =>
    obtain ⟨hk, hv⟩ := hd
    simp only [access, hk.ne, if_false, Option.some.injEq, Access.record.injEq] at ha
    subst ha
    exact ⟨h.insert hk.rep hv, .put key value hk.rep hv, rfl, fun _ => rfl⟩
  | append key value =>
    obtain ⟨hk, hv⟩ := hd
    simp only [access, hk.ne, if_false, Option.some.injEq, Access.record.injEq] at ha
    subst ha
    have hvalue := appendValue_rep h hv key
    exact ⟨h.insert hk.rep hvalue, .put key _ hk.rep hvalue, rfl, fun _ => rfl⟩
  | remove key =>
    have hk : DocumentedKey key := hd
    obtain ⟨-, -, hw⟩ := Option.map_eq_some_iff.1 ha
    cases hw
    exact ⟨h.erase key, .tombstone key hk.rep hk.end, rfl, fun _ => rfl⟩
  | compareSwap key expected newValue =>
    obtain ⟨hk, hv⟩ := hd
    cases ha
    have hvalue := swapped_rep h hv key expected
    exact ⟨h.insert hk.rep hvalue, .put key _ hk.rep hvalue, rfl, fun _ => rfl⟩
  | flush ord => cases ha

/-- What the file says of a key after the operation. -/
def StoreOp.reach (key : String) (s : NoVoHT) (op : StoreOp) : Option (Option String) :=
  (op.access s.map).bind fun a => a.reach s.map s.file key

/-- The step: the file stays a list of records, and says of each key what the access says, or else what it
said before. -/
theorem RecordsInv.exec {s : NoVoHT} (h : RecordsInv s) {op : StoreOp} (hd : op.Documented) (hu : op.Untorn s) :
    RecordsInv (op.exec s).2 ∧ ∀ key, (readFileFromReader ∅ (op.exec s).2.file.bytes).lookup key =
      (op.reach key s).getD ((readFileFromReader ∅ s.file.bytes).lookup key) := by
  obtain ⟨records, hlog⟩ := h.log
  rw [op.exec_access h.persistent]
  cases ha : op.access s.map with
  | none =>
    refine ⟨h, fun key => ?_⟩
    rw [StoreOp.reach, ha]
    rfl
  | some a =>
    have hua := hu a ha
    simp only [Option.elim_some, StoreOp.reach, ha, Option.bind_some]
    cases a with
    | record w =>
      obtain ⟨hrep, r, hbytes, happly⟩ := StoreOp.access_record h.rep hd ha
      have hfile := DbFile.append_bytes hua
      simp only [Access.bytes] at hfile
      simp only [Access.memory, Access.onFile, Access.reach]
      cases hland : s.file.outcome.lands (recordBytes w).length with
      | false =>
        simp only [hland, Bool.false_eq_true, if_false] at hfile
        refine ⟨⟨h.persistent, ⟨records, hfile.trans hlog⟩, hrep⟩, fun key => ?_⟩
        simp [hfile]
      | true =>
        have hnew : s.file.bytes ++ recordBytes w = (records ++ [r]).flatMap Record.bytes := by
          rw [List.flatMap_append, List.flatMap_singleton, ← hlog, hbytes]
        simp only [hland, if_true] at hfile
        refine ⟨⟨h.persistent, ⟨_, hfile.trans hnew⟩, hrep⟩, fun key => ?_⟩
        rw [hfile, hnew, hlog, readFile_records, readFile_records, replay_append]
        change (r.apply (replay records ∅)).lookup key = _
        rw [happly, lookup_write]
        by_cases hw : w.1 = key <;> simp [hw]
    | rewrite ord =>
      obtain ⟨flushed, hflush, hreplay⟩ := exists_records_of_flush h.rep ord
      have hfile := DbFile.rewrite_bytes hua
      simp only [Access.bytes] at hfile
      simp only [Access.memory, Access.onFile, Access.reach]
      cases hland : s.file.outcome.lands (NoVoHT.flushBytes ord s.map).length with
      | true =>
        simp only [hland, if_true] at hfile
        refine ⟨⟨h.persistent, ⟨flushed, hfile.trans hflush⟩, h.rep⟩, fun key => ?_⟩
        rw [hfile, hflush, readFile_records, hreplay]
        rfl
      | false =>
        cases hopen : s.file.outcome.opens with
        | true =>
          simp only [hland, hopen, Bool.false_eq_true, if_true, if_false] at hfile
          refine ⟨⟨h.persistent, ⟨[], hfile⟩, h.rep⟩, fun key => ?_⟩
          rw [hfile]
          rfl
        | false =>
          simp only [hland, hopen, Bool.false_eq_true, if_false] at hfile
          refine ⟨⟨h.persistent, ⟨records, hfile.trans hlog⟩, h.rep⟩, fun key => ?_⟩
          simp [hfile]

/-! ## Runs -/

/-- What the last access of the run that reached the key on disk left there. -/
def lastReach (key : String) : NoVoHT → List StoreOp → Option (Option String)
  | _, [] => none
  | s, op :: ops => (lastReach key (op.exec s).2 ops).or (op.reach key s)

theorem lastReach_concat (key : String) (s : NoVoHT) (ops : List StoreOp) (op : StoreOp) :
    lastReach key s (ops ++ [op]) =
      (op.reach key (Machine.after StoreOp.exec s ops)).or (lastReach key s ops) := by
  induction ops generalizing s with
  | nil => simp [lastReach]
  | cons o ops ih => rw [List.cons_append, lastReach, ih, Option.or_assoc, lastReach, Machine.after_cons]

theorem RecordsInv.run {s : NoVoHT} (h : RecordsInv s) {ops : List StoreOp} (hd : ∀ op ∈ ops, op.Documented)
    (hu : Machine.Along StoreOp.exec (fun s op => op.Untorn s) s ops) :
    RecordsInv (Machine.after StoreOp.exec s ops) ∧
      ∀ key, (readFileFromReader ∅ (Machine.after StoreOp.exec s ops).file.bytes).lookup key =
        (lastReach key s ops).getD ((readFileFromReader ∅ s.file.bytes).lookup key) := by
  induction ops generalizing s with
  | nil => exact ⟨h, fun _ => rfl⟩
  | cons op ops ih =>
    rw [Machine.along_cons] at hu
    obtain ⟨hnext, hread⟩ := h.exec (hd op List.mem_cons_self) hu.1
    obtain ⟨hlast, hrest⟩ := ih hnext (fun o ho => hd o (List.mem_cons_of_mem _ ho)) hu.2
    refine ⟨hlast, fun key => ?_⟩
    rw [Machine.after_cons, hrest, hread, lastReach]
    cases lastReach key (op.exec s).2 ops <;> rfl

/-- The operation was about the key, and the map's value for it is not on disk. -/
def StoreOp.Misses (key : String) (s : NoVoHT) (op : StoreOp) : Prop :=
  ∃ a ∈ op.access s.map, a.Misses s.map s.file key

/-- Behind a key that file and map tell differently there is an operation that missed it, and none has reached
it since. -/
theorem exists_misses_of_ne {s : NoVoHT} (h : RecordsInv s) (key : String)
    (hs : (readFileFromReader ∅ s.file.bytes).lookup key = s.map.lookup key) (ops : List StoreOp)
    (hd : ∀ op ∈ ops, op.Documented) (hu : Machine.Along StoreOp.exec (fun s op => op.Untorn s) s ops)
    (hne : (readFileFromReader ∅ (Machine.after StoreOp.exec s ops).file.bytes).lookup key ≠
      (Machine.after StoreOp.exec s ops).map.lookup key) :
    ∃ done op rest, ops = done ++ op :: rest ∧ op.Misses key (Machine.after StoreOp.exec s done) ∧
      lastReach key (Machine.after StoreOp.exec s (done ++ [op])) rest = none := by
  induction ops using List.reverseRecOn with
  | nil => exact absurd hs hne
  | append_singleton ops op ih =>
    rw [Machine.along_append] at hu
    have hops : ∀ o ∈ ops, o.Documented := fun o ho => hd o (List.mem_append_left _ ho)
    by_cases hmiss : op.Misses key (Machine.after StoreOp.exec s ops)
    · exact ⟨ops, op, [], rfl, hmiss, rfl⟩
    obtain ⟨hinv, -⟩ := h.run hops hu.1
    obtain ⟨-, hread⟩ := hinv.exec (hd op (List.mem_append_right _ (List.mem_singleton_self op))) hu.2.1
    rw [Machine.after_append] at hne
    simp only [Machine.after_cons, Machine.after_nil] at hne
    rw [hread, op.exec_access hinv.persistent] at hne
    -- the operation is not about the key, so the two differed before it
    have hbefore : op.reach key (Machine.after StoreOp.exec s ops) = none ∧
        (readFileFromReader ∅ (Machine.after StoreOp.exec s ops).file.bytes).lookup key ≠
          (Machine.after StoreOp.exec s ops).map.lookup key := by
      unfold StoreOp.reach at hne ⊢
      cases ha : op.access (Machine.after StoreOp.exec s ops).map with
      | none => exact ⟨rfl, by simpa [ha] using hne⟩
      | some a =>
        have hma : ¬ a.Misses _ _ key := fun hm => hmiss ⟨a, ha, hm⟩
        simp only [ha, Option.bind_some, Option.elim_some] at hne ⊢
        cases hr : a.reach (Machine.after StoreOp.exec s ops).map (Machine.after StoreOp.exec s ops).file key with
        | none =>
          rw [hr, Option.getD_none, Access.memory_of_not_reach hr hma] at hne
          exact ⟨rfl, hne⟩
        | some value =>
          rw [hr, Option.getD_some] at hne
          exact absurd (Access.reach_of_not_misses hr hma) hne
    obtain ⟨done, missed, rest, rfl, hm, hnone⟩ := ih hops hu.1 hbefore.2
    refine ⟨done, missed, rest ++ [op], by rw [List.append_assoc, List.cons_append], hm, ?_⟩
    rw [lastReach_concat, hnone, Option.or_none, ← Machine.after_append, List.append_assoc, List.singleton_append]
    exact hbefore.1

/-! ## Main result -/

/-- All but the result of a flush is answered from the map. -/
theorem exec_answer_eq {s t : NoVoHT} (h : s.map = t.map) {op : StoreOp} (hop : ∀ ord, op ≠ .flush ord) :
    (op.exec s).1 = (op.exec t).1 := by
  cases op with
  | put key value =>
    by_cases hk : key = "" <;> simp [StoreOp.exec, NoVoHT.put, hk]
  | append key value =>
    by_cases hk : key = "" <;> simp [StoreOp.exec, NoVoHT.append, hk]
  | remove key =>
    simp only [StoreOp.exec, NoVoHT.remove, ← h]
    cases s.map.lookup key <;> rfl
  | compareSwap key expected newValue => simp [StoreOp.exec, NoVoHT.compareSwap, h]
  | flush ord => exact absurd rfl (hop ord)

theorem exec_map_eq {s t : NoVoHT} (hs : s.persistent = true) (ht : t.persistent = true) (h : s.map = t.map)
    (op : StoreOp) : (op.exec s).2.map = (op.exec t).2.map := by
  rw [op.exec_access hs, op.exec_access ht, ← h]
  cases op.access s.map with
  | none => exact h
  | some a => rfl

theorem exec_persistent {s : NoVoHT} (hs : s.persistent = true) (op : StoreOp) : (op.exec s).2.persistent = true := by
  rw [op.exec_access hs]
  cases op.access s.map <;> exact hs

/-- A table opened from a file in good order; what the accesses after that will meet. -/
def NoVoHT.opened (ord : HashMap.Order String String) (dbPath : String) (content : Bytes)
    (outcomes : List WriteOutcome) : NoVoHT :=
  (withPersistence ord dbPath ⟨content, .ok :: .ok :: outcomes⟩).2

theorem RecordsInv.opened (ord : HashMap.Order String String) (dbPath : String) (content : Bytes)
    (outcomes : List WriteOutcome) :
    RecordsInv (NoVoHT.opened ord dbPath content outcomes) ∧
      (NoVoHT.opened ord dbPath content outcomes).map = readFileFromReader ∅ content ∧
      readFileFromReader ∅ (NoVoHT.opened ord dbPath content outcomes).file.bytes = readFileFromReader ∅ content := by
  have hrep := readFile_representable content
  obtain ⟨records, hflush, hreplay⟩ := exists_records_of_flush hrep ord
  have heq : NoVoHT.opened ord dbPath content outcomes =
      { map := readFileFromReader ∅ content, dbPath, persistent := true,
        file := ⟨NoVoHT.flushBytes ord (readFileFromReader ∅ content), outcomes⟩ } := rfl
  rw [heq]
  refine ⟨⟨rfl, ⟨records, hflush⟩, hrep⟩, rfl, ?_⟩
  rw [hflush, readFile_records, hreplay]

/-- Open a file and run documented operations whose writes land wholly or not at all. Map and answers
(but those of flushes) are the ones of a run in which every write lands; reopening the file gives each key
what the last access that reached it on disk left there; and behind every key that is then another than in
memory stands an operation that missed it, with none since that reached it. -/
theorem lost_writes (ord ord' : HashMap.Order String String) (dbPath : String) (content : Bytes)
    (outcomes : List WriteOutcome) (ops : List StoreOp) (hdoc : ∀ op ∈ ops, op.Documented)
    (huntorn : Machine.Along StoreOp.exec (fun s op => op.Untorn s)
      (NoVoHT.opened ord dbPath content outcomes) ops) :
    let start := NoVoHT.opened ord dbPath content
    let run := Machine.after StoreOp.exec
    let reopened := (NoVoHT.opened ord' dbPath (run (start outcomes) ops).file.bytes []).map
    (∀ done, done <+: ops → (run (start outcomes) done).map = (run (start []) done).map ∧
      ∀ op : StoreOp, (∀ ord, op ≠ .flush ord) →
        (op.exec (run (start outcomes) done)).1 = (op.exec (run (start []) done)).1) ∧
    (∀ key, reopened.lookup key = (lastReach key (start outcomes) ops).getD ((start outcomes).map.lookup key)) ∧
    ∀ key, reopened.lookup key ≠ (run (start outcomes) ops).map.lookup key →
      ∃ done op rest, ops = done ++ op :: rest ∧ op.Misses key (run (start outcomes) done) ∧
        lastReach key (run (start outcomes) (done ++ [op])) rest = none := by
  intro start run reopened
  obtain ⟨hinv, hmap, hread⟩ := RecordsInv.opened ord dbPath content outcomes
  obtain ⟨hnone, hmapNone, -⟩ := RecordsInv.opened ord dbPath content []
  have hreopened : reopened = readFileFromReader ∅ (run (start outcomes) ops).file.bytes :=
    (RecordsInv.opened ord' dbPath _ []).2.1
  have hrun := (hinv.run hdoc huntorn).2
  rw [hreopened]
  refine ⟨fun done _ => ?_, fun key => ?_, fun key hne => ?_⟩
  · have hsame : (run (start outcomes) done).persistent = true ∧ (run (start []) done).persistent = true ∧
        (run (start outcomes) done).map = (run (start []) done).map := by
      clear * - hinv hnone hmap hmapNone
      induction done using List.reverseRecOn with
      | nil => exact ⟨hinv.persistent, hnone.persistent, hmap.trans hmapNone.symm⟩
      | append_singleton done op ih =>
        obtain ⟨hs, ht, heq⟩ := ih
        simp only [run, Machine.after_append, Machine.after_cons, Machine.after_nil]
        exact ⟨exec_persistent hs op, exec_persistent ht op, exec_map_eq hs ht heq op⟩
    exact ⟨hsame.2.2, fun op hop => exec_answer_eq hsame.2.2 hop⟩
  · rw [hrun key, hread, ← hmap]
  · have hs : (readFileFromReader ∅ (start outcomes).file.bytes).lookup key = (start outcomes).map.lookup key := by
      rw [hread, ← hmap]
    exact exists_misses_of_ne hinv key hs ops hdoc huntorn hne

/-- A put that fails to open the file, one whose flush fails at its end, a rewrite that fails at its start. -/
theorem lost_writes_three :
    let ops : List StoreOp := [.put "a" "1", .put "b" "2", .flush HashMap.Order.sorted, .append "a" "3"]
    let outcomes : List WriteOutcome := [.openFailed "", .flushFailed 5 "", .writeFailed 0 ""]
    let start := NoVoHT.opened HashMap.Order.sorted "zht.db" []
    let run := Machine.after StoreOp.exec
    ∀ key, (NoVoHT.opened HashMap.Order.sorted "zht.db" (run (start outcomes) ops).file.bytes []).map.lookup key =
      (lastReach key (start outcomes) ops).getD ((start outcomes).map.lookup key) := by
  intro ops outcomes start run
  have hdoc : ∀ op ∈ ops, op.Documented := by
    intro op h
    simp only [ops, List.mem_cons, List.not_mem_nil, or_false] at h
    rcases h with rfl | rfl | rfl | rfl <;> decide
  have huntorn : Machine.Along StoreOp.exec (fun s op => op.Untorn s) (start outcomes) ops := by decide +kernel
  exact (lost_writes HashMap.Order.sorted HashMap.Order.sorted "zht.db" [] outcomes ops hdoc huntorn).2.1

end Zht
