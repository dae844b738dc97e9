/-
The empty key. A line of the file never yields it (`readFile_representable`), `put` and `append` refuse
it and `remove` does not find it; `compare_swap` makes no such check and stores it. So it stays out of a
table exactly as long as no `compare_swap` is called with it.
-/
import Zht.Storage.Replay

namespace Zht

open Lib

/-- The key a mutating call is given. -/
def StoreOp.key : StoreOp → Option String
  | put key _ => some key
  | append key _ => some key
  | remove key => some key
  | compareSwap key _ _ => some key
  | flush _ => none

/-- A call that is given the empty key fails and leaves the map as it is. -/
def StoreOp.RefusesEmptyKey (s : NoVoHT) (op : StoreOp) : Prop :=
  op.key = some "" → (∃ e, (op.exec s).1 = .error e) ∧ (op.exec s).2.map = s.map

/-- The empty string is no key of the map, before the calls and after each of them, and every call that
is given it is refused. -/
def NoVoHT.KeepsEmptyKeyOut (s : NoVoHT) (ops : List StoreOp) : Prop :=
  s.map.lookup "" = none ∧
    Machine.Along StoreOp.exec
      (fun s op => op.RefusesEmptyKey s ∧ (op.exec s).2.map.lookup "" = none) s ops

/-- A `compare_swap` on the empty key. -/
def StoreOp.SwapsEmptyKey : StoreOp → Prop
  | compareSwap key _ _ => key = ""
  | _ => False

instance (op : StoreOp) : Decidable op.SwapsEmptyKey :=
  match op with
  | .compareSwap key _ _ => instDecidableEqString key ""
  | .put _ _ | .append _ _ | .remove _ | .flush _ => instDecidableFalse

/-! ## One call -/

section Call

variable {s : NoVoHT}

theorem lookup_empty_insert {map : Table} (h : map.lookup "" = none) {key : String} (hk : key ≠ "") (value : String) :
    (map.insert key value).lookup "" = none := by
  rw [Finmap.lookup_insert_of_ne _ hk.symm]
  exact h

theorem lookup_empty_erase {map : Table} (h : map.lookup "" = none) (key : String) :
    (map.erase key).lookup "" = none := by
  by_cases hk : "" = key
  · rw [← hk, Finmap.lookup_erase]
  · rw [Finmap.lookup_erase_ne hk]
    exact h

/-- On a table without the empty key every call but a `compare_swap` of it refuses it and keeps it out. -/
theorem keeps_of_not_swaps (h : s.map.lookup "" = none) {op : StoreOp} (hop : ¬op.SwapsEmptyKey) :
    op.RefusesEmptyKey s ∧ (op.exec s).2.map.lookup "" = none := by
  unfold StoreOp.RefusesEmptyKey
  cases op with
  | put key value =>
    by_cases hk : key = ""
    · simp [StoreOp.exec, StoreOp.key, NoVoHT.put, hk, h, Except.map]
    · obtain ⟨s', hput, hmap⟩ := NoVoHT.put_of_ne s hk value
      simp [StoreOp.exec, StoreOp.key, hput, hmap, hk, lookup_empty_insert h hk]
  | append key value =>
    by_cases hk : key = ""
    · simp [StoreOp.exec, StoreOp.key, NoVoHT.append, hk, h, Except.map]
    · obtain ⟨s', happend, hmap⟩ := NoVoHT.append_of_ne s hk value
      simp [StoreOp.exec, StoreOp.key, happend, hmap, hk, lookup_empty_insert h hk]
  | remove key =>
    cases hl : s.map.lookup key with
    | none => simp [StoreOp.exec, NoVoHT.remove_of_none hl, h, Except.map]
    | some value =>
      have hk : key ≠ "" := by
        rintro rfl
        rw [h] at hl
        cases hl
      obtain ⟨s', hremove, hmap⟩ := NoVoHT.remove_of_some hl
      simp [StoreOp.exec, StoreOp.key, hremove, hmap, hk, lookup_empty_erase h key]
  | compareSwap key expected newValue =>
    have hk : key ≠ "" := hop
    obtain ⟨s', hswap, hmap⟩ := NoVoHT.compareSwap_spec s key expected newValue
    have hout := NoVoHT.swapped_lookup_ne s.map hk.symm expected newValue
    simp [StoreOp.exec, StoreOp.key, hswap, hmap, hk, hout, h]
  | flush ord => simp [StoreOp.exec, StoreOp.key, h]

/-- A `compare_swap` of the empty key leaves a value under it. -/
theorem not_keeps_of_swaps {op : StoreOp} (hop : op.SwapsEmptyKey) : (op.exec s).2.map.lookup "" ≠ none := by
  cases op with
  | compareSwap key expected newValue =>
    obtain rfl : key = "" := hop
    obtain ⟨s', hswap, hmap⟩ := NoVoHT.compareSwap_spec s "" expected newValue
    simp only [StoreOp.exec, hswap, Prod.map_snd, id_eq, hmap, NoVoHT.swapped_lookup]
    exact Option.some_ne_none _
  | put | append | remove | flush => exact absurd hop id

theorem keeps_iff (h : s.map.lookup "" = none) (op : StoreOp) :
    (op.RefusesEmptyKey s ∧ (op.exec s).2.map.lookup "" = none) ↔ ¬op.SwapsEmptyKey := by
  constructor
  · rintro ⟨-, hout⟩ hop
    exact not_keeps_of_swaps hop hout
  · exact keeps_of_not_swaps h

end Call

/-! ## Runs -/

theorem keepsEmptyKeyOut_iff {s : NoVoHT} (h : s.map.lookup "" = none) (ops : List StoreOp) :
    s.KeepsEmptyKeyOut ops ↔ ∀ op ∈ ops, ¬op.SwapsEmptyKey := by
  have hrun : s.KeepsEmptyKeyOut ops ↔ Machine.Along StoreOp.exec (fun _ op => ¬op.SwapsEmptyKey) s ops := by
    unfold NoVoHT.KeepsEmptyKeyOut
    rw [and_iff_right h]
    refine Machine.along_iff_of_invariant (I := fun s => s.map.lookup "" = none) ?_ (fun s op hs => keeps_iff hs op) h
    exact fun s op hs hop => (keeps_of_not_swaps hs hop).2
  exact hrun.trans Machine.along_iff_forall_mem

/-- No line of a file yields the empty key. -/
theorem lookup_empty_opened (ord : HashMap.Order String String) (dbPath : String) (file : DbFile) :
    (NoVoHT.withPersistence ord dbPath file).2.map.lookup "" = none := by
  have hread : (readFileFromReader ∅ file.bytes).lookup "" = none := by
    cases hl : (readFileFromReader ∅ file.bytes).lookup "" with
    | none => rfl
    | some value => exact absurd rfl (readFile_representable file.bytes "" value hl).1.ne
  unfold NoVoHT.withPersistence
  cases file.outcome with
  | openFailed e => exact Finmap.lookup_empty ""
  | ok | writeFailed | flushFailed => rw [NoVoHT.flush_map]; exact hread

/-- Of a table opened on any file, or kept in memory, and any calls on it: the empty key stays out of it
and is refused exactly if no `compare_swap` is called with it. -/
theorem emptyKey_out_iff (ops : List StoreOp) :
    (∀ (ord : HashMap.Order String String) (dbPath : String) (file : DbFile),
      (NoVoHT.withPersistence ord dbPath file).2.KeepsEmptyKeyOut ops ↔ ∀ op ∈ ops, ¬op.SwapsEmptyKey) ∧
      (NoVoHT.new.KeepsEmptyKeyOut ops ↔ ∀ op ∈ ops, ¬op.SwapsEmptyKey) :=
  ⟨fun ord dbPath file => keepsEmptyKeyOut_iff (lookup_empty_opened ord dbPath file) ops,
    keepsEmptyKeyOut_iff (Finmap.lookup_empty "") ops⟩

/-- One `compare_swap` of the empty key on the table of an empty file: it succeeds and stores it. -/
theorem emptyKey_swap_stored :
    ((StoreOp.compareSwap "" "" "v").exec
        (NoVoHT.withPersistence HashMap.Order.sorted "zht.db" ⟨[], []⟩).2).1 = .ok (some "v") ∧
      ((StoreOp.compareSwap "" "" "v").exec
        (NoVoHT.withPersistence HashMap.Order.sorted "zht.db" ⟨[], []⟩).2).2.map.lookup "" = some "v" ∧
      ¬(NoVoHT.withPersistence HashMap.Order.sorted "zht.db" ⟨[], []⟩).2.KeepsEmptyKeyOut
        [.compareSwap "" "" "v"] := by
  refine ⟨rfl, rfl, ?_⟩
  rintro ⟨-, ⟨hrefused, -⟩, -⟩
  obtain ⟨⟨e, he⟩, -⟩ := hrefused rfl
  cases he

end Zht
