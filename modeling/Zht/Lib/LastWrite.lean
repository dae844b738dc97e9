/-
Logs of writes to a map: a write gives a key a value or removes it. Of each key only the last write
about it counts (`lookup_writeAll`), so a part added behind a log changes nothing exactly if its last
write about every key it names repeats what the log already said (`writeAll_append_eq_iff`).
-/
import Zht.Lib.HashMap

namespace Lib.LastWrite

variable {κ υ : Type} [DecidableEq κ]

/-- The key written, and its value (`none`: it is removed). -/
abbrev Write (κ υ : Type) := κ × Option υ

def write (m : HashMap κ υ) : Write κ υ → HashMap κ υ
  | (k, some v) => m.insert k v
  | (k, none) => m.erase k

/-- The writes made from first to last. -/
def writeAll (ws : List (Write κ υ)) (m : HashMap κ υ) : HashMap κ υ := ws.foldl write m

/-- The last write about a key. -/
def last (k : κ) : List (Write κ υ) → Option (Option υ)
  | [] => none
  | w :: ws => (last k ws).or (if w.1 = k then some w.2 else none)

theorem last_eq_none_iff {k : κ} {ws : List (Write κ υ)} : last k ws = none ↔ ∀ w ∈ ws, w.1 ≠ k := by
  induction ws with
  | nil => simp [last]
  | cons w ws ih =>
    rw [last, Option.or_eq_none_iff, ih, List.forall_mem_cons]
    by_cases hw : w.1 = k <;> simp [hw]

theorem lookup_write (m : HashMap κ υ) (w : Write κ υ) (k : κ) :
    (write m w).lookup k = if w.1 = k then w.2 else m.lookup k := by
  rcases w with ⟨q, _ | v⟩
  · by_cases hq : q = k
    · simp [write, hq, Finmap.lookup_erase]
    · simp [write, hq, Finmap.lookup_erase_ne (Ne.symm hq)]
  · by_cases hq : q = k
    · simp [write, hq, Finmap.lookup_insert]
    · simp [write, hq, Finmap.lookup_insert_of_ne _ (Ne.symm hq)]

theorem writeAll_append (xs ys : List (Write κ υ)) (m : HashMap κ υ) :
    writeAll (xs ++ ys) m = writeAll ys (writeAll xs m) :=
  List.foldl_append

/-- A key holds what the last write about it says, and is as before when there is none. -/
theorem lookup_writeAll (k : κ) :
    ∀ (ws : List (Write κ υ)) (m : HashMap κ υ), (writeAll ws m).lookup k = (last k ws).getD (m.lookup k)
  | [], _ => rfl
  | w :: ws, m => by
    have ih := lookup_writeAll k ws (write m w)
    rw [lookup_write] at ih
    change (writeAll ws (write m w)).lookup k = _
    rw [ih, last]
    cases last k ws with
    | some v => rfl
    | none => by_cases hw : w.1 = k <;> simp [hw]

/-- In the map built from nothing. -/
theorem lookup_writeAll_empty (k : κ) (ws : List (Write κ υ)) : (writeAll ws ∅).lookup k = (last k ws).join := by
  rw [lookup_writeAll, Finmap.lookup_empty]
  cases last k ws <;> rfl

/-- More writes leave a map as it is exactly if the last one about each key says what the map holds. -/
theorem writeAll_eq_self_iff {ws : List (Write κ υ)} {m : HashMap κ υ} :
    writeAll ws m = m ↔ ∀ k v, last k ws = some v → m.lookup k = v := by
  constructor
  · intro h k v hv
    rw [← h, lookup_writeAll, hv]
    rfl
  · intro h
    apply Finmap.ext_lookup
    intro k
    rw [lookup_writeAll]
    cases hv : last k ws with
    | none => rfl
    | some v => exact (h k v hv).symm

theorem writeAll_append_eq_iff (xs ys : List (Write κ υ)) :
    writeAll (xs ++ ys) ∅ = writeAll xs ∅ ↔ ∀ k v, last k ys = some v → (last k xs).join = v := by
  rw [writeAll_append, writeAll_eq_self_iff]
  simp only [lookup_writeAll_empty]

end Lib.LastWrite
