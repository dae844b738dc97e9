/-
Text processing: Unicode white space, trimming, splitting at a character, and reading a byte
stream line by line. The splitting lemmas say what the first and the last piece look like, which is
what a parser of trimmed, separator-joined lines can rely on.
-/
import Mathlib.Data.List.DropRight
import Zht.Lib.Utf8

namespace Lib.Text

open Lib.Utf8

theorem toList_ne_nil {s : String} (h : s ≠ "") : s.toList ≠ [] :=
  fun e => h (String.toList_inj.1 (e.trans (by decide)))

/-! ## White space and trimming -/

/-- The Unicode `White_Space` property. -/
def isWhitespace (c : Char) : Bool :=
  ('\t' ≤ c && c ≤ '\r') || c == ' ' || c == '\u0085' || c == '\u00A0' || c == '\u1680' ||
    ('\u2000' ≤ c && c ≤ '\u200A') || c == '\u2028' || c == '\u2029' || c == '\u202F' ||
    c == '\u205F' || c == '\u3000'

/-- The characters between the leading and the trailing white space. -/
def trimChars (cs : List Char) : List Char := (cs.dropWhile isWhitespace).rdropWhile isWhitespace

/-- `str::trim`. -/
def trim (s : String) : String := String.ofList (trimChars s.toList)

/-- No white space at the front. -/
def CleanStart (cs : List Char) : Prop := ∀ c ∈ cs.head?, isWhitespace c = false

/-- No white space at the back. -/
def CleanEnd (cs : List Char) : Prop := ∀ c ∈ cs.getLast?, isWhitespace c = false

-- named instances: the one for all characters would run through every character
instance (cs : List Char) : Decidable (CleanStart cs) := cs.head?.decidableForallMem

instance (cs : List Char) : Decidable (CleanEnd cs) := cs.getLast?.decidableForallMem

theorem cleanStart_append {cs ds : List Char} (hne : cs ≠ []) (h : CleanStart cs) : CleanStart (cs ++ ds) := by
  intro c hc
  rw [List.head?_append_of_ne_nil _ hne] at hc
  exact h c hc

theorem cleanEnd_append {cs ds : List Char} (hne : ds ≠ []) (h : CleanEnd ds) : CleanEnd (cs ++ ds) := by
  intro c hc
  rw [List.getLast?_append_of_ne_nil _ hne] at hc
  exact h c hc

theorem trimChars_cleanEnd (cs : List Char) : CleanEnd (trimChars cs) := by
  intro c hc
  obtain ⟨hne, rfl⟩ := List.mem_getLast?_eq_getLast hc
  exact Bool.not_eq_true _ ▸ List.rdropWhile_last_not _ _ hne

theorem trimChars_cleanStart (cs : List Char) : CleanStart (trimChars cs) := by
  intro c hc
  -- the head of a prefix is the head of the list itself
  obtain ⟨tail, htail⟩ := List.rdropWhile_prefix isWhitespace (cs.dropWhile isWhitespace)
  have hhead : (cs.dropWhile isWhitespace).head? = some c := by
    rw [← htail]
    exact List.mem_head?_append_of_mem_head? hc
  have := List.head?_dropWhile_not isWhitespace cs
  rw [hhead] at this
  exact this

theorem trimChars_sub {cs : List Char} {c : Char} (h : c ∈ trimChars cs) : c ∈ cs :=
  List.dropWhile_subset _ ((List.rdropWhile_prefix _ _).subset h)

/-- Trimming removes exactly the white space appended to a text that has none at its ends. -/
theorem trimChars_append {cs ws : List Char} (hne : cs ≠ []) (hs : CleanStart cs) (he : CleanEnd cs)
    (hws : ∀ c ∈ ws, isWhitespace c = true) : trimChars (cs ++ ws) = cs := by
  have hdrop : (cs ++ ws).dropWhile isWhitespace = cs ++ ws := by
    cases cs with
    | nil => exact absurd rfl hne
    | cons c cs =>
      have : isWhitespace c = false := hs c rfl
      rw [List.cons_append, List.dropWhile_cons_of_neg (by simp [this])]
  unfold trimChars
  rw [hdrop]
  induction ws using List.reverseRecOn with
  | nil =>
    rw [List.append_nil, List.rdropWhile_eq_self_iff]
    intro hl
    simp [he _ (List.getLast?_eq_some_getLast hl)]
  | append_singleton ws c ih =>
    have hws' : ∀ d ∈ ws, isWhitespace d = true := fun d hd => hws d (List.mem_append_left _ hd)
    have hc : isWhitespace c = true := hws c (List.mem_append_right _ (List.mem_singleton_self c))
    rw [← List.append_assoc, List.rdropWhile_concat_pos _ _ _ hc]
    refine ih hws' ?_
    cases cs with
    | nil => exact absurd rfl hne
    | cons d cs =>
      have : isWhitespace d = false := hs d rfl
      rw [List.cons_append, List.dropWhile_cons_of_neg (by simp [this])]

theorem trimChars_of_clean {cs : List Char} (hs : CleanStart cs) (he : CleanEnd cs) : trimChars cs = cs := by
  by_cases hne : cs = []
  · rw [hne]
    rfl
  · have hself := trimChars_append hne hs he (List.forall_mem_nil (isWhitespace · = true))
    rwa [List.append_nil] at hself

theorem trim_trim (s : String) : trim (trim s) = trim s := by
  unfold trim
  rw [String.toList_ofList, trimChars_of_clean (trimChars_cleanStart _) (trimChars_cleanEnd _)]

theorem trim_cleanStart (s : String) : CleanStart (trim s).toList := by
  rw [trim, String.toList_ofList]
  exact trimChars_cleanStart _

theorem trimChars_prepend {cs ws : List Char} (hws : ∀ c ∈ ws, isWhitespace c = true) :
    trimChars (ws ++ cs) = trimChars cs := by
  unfold trimChars
  rw [List.dropWhile_append_of_pos hws]

/-- `str::trim_end`. -/
def trimEnd (s : String) : String := String.ofList (s.toList.rdropWhile isWhitespace)

theorem toList_trimEnd (s : String) : (trimEnd s).toList = s.toList.rdropWhile isWhitespace := String.toList_ofList

theorem trim_of_cleanStart {s : String} (h : CleanStart s.toList) : trim s = trimEnd s := by
  unfold trim trimEnd trimChars
  cases hs : s.toList with
  | nil => rfl
  | cons c cs =>
    have hc : isWhitespace c = false := h c (by rw [hs]; rfl)
    rw [List.dropWhile_cons_of_neg (by simp [hc])]

theorem exists_trimEnd_append (s : String) : ∃ blank, s = trimEnd s ++ blank := by
  refine ⟨String.ofList (s.toList.rtakeWhile isWhitespace), String.toList_inj.1 ?_⟩
  rw [String.toList_append, toList_trimEnd, String.toList_ofList, List.rdropWhile_append_rtakeWhile]

theorem trimEnd_cleanEnd (s : String) : CleanEnd (trimEnd s).toList := by
  intro c hc
  rw [toList_trimEnd] at hc
  obtain ⟨hne, rfl⟩ := List.mem_getLast?_eq_getLast hc
  exact Bool.not_eq_true _ ▸ List.rdropWhile_last_not _ _ hne

theorem trimEnd_of_cleanEnd {s : String} (h : CleanEnd s.toList) : trimEnd s = s := by
  unfold trimEnd
  have hself : s.toList.rdropWhile isWhitespace = s.toList := by
    rw [List.rdropWhile_eq_self_iff]
    intro hne
    simp [h _ (List.getLast?_eq_some_getLast hne)]
  rw [hself, String.ofList_toList]

/-- Trimming the end of a text goes past a blank one appended to it. -/
theorem trimEnd_append_blank (s : String) {t : String} (h : trimEnd t = "") : trimEnd (s ++ t) = trimEnd s := by
  have hblank : ∀ c ∈ t.toList, isWhitespace c = true := by
    have hnil := congrArg String.toList h
    rw [toList_trimEnd] at hnil
    exact List.rdropWhile_eq_nil_iff.1 hnil
  unfold trimEnd List.rdropWhile
  rw [String.toList_append, List.reverse_append, List.dropWhile_append_of_pos]
  exact fun c hc => hblank c (List.mem_reverse.1 hc)

/-- And stops in one that is not blank. -/
theorem trimEnd_append {t : String} (s : String) (h : trimEnd t ≠ "") : trimEnd (s ++ t) = s ++ trimEnd t := by
  have hne : t.toList.reverse.dropWhile isWhitespace ≠ [] := by
    intro hnil
    apply h
    unfold trimEnd List.rdropWhile
    rw [hnil]
    rfl
  apply String.toList_inj.1
  unfold trimEnd List.rdropWhile
  rw [String.toList_append, String.toList_append, String.toList_ofList, String.toList_ofList, List.reverse_append,
    List.dropWhile_append, if_neg (by simpa using hne), List.reverse_append, List.reverse_reverse]

/-! ## Padding -/

/-- `{:>width}`: spaces in front. -/
def padStart (width : Nat) (s : String) : String :=
  String.ofList (List.replicate (width - s.toList.length) ' ' ++ s.toList)

/-- `{:<width}`: spaces behind. -/
def padEnd (width : Nat) (s : String) : String :=
  String.ofList (s.toList ++ List.replicate (width - s.toList.length) ' ')

section Padding

variable {s : String} {width : Nat}

theorem space_mem_replicate {n : Nat} {c : Char} (h : c ∈ List.replicate n ' ') : isWhitespace c = true := by
  rw [List.eq_of_mem_replicate h]
  decide

/-- Trimming removes the padding of a text that starts and ends clean. -/
theorem trim_padStart (hs : CleanStart s.toList) (he : CleanEnd s.toList) :
    trim (padStart width s) = s := by
  unfold trim padStart
  rw [String.toList_ofList, trimChars_prepend fun c => space_mem_replicate, trimChars_of_clean hs he,
    String.ofList_toList]

theorem trim_padEnd (hne : s ≠ "") (hs : CleanStart s.toList) (he : CleanEnd s.toList) :
    trim (padEnd width s) = s := by
  unfold trim padEnd
  rw [String.toList_ofList, trimChars_append (toList_ne_nil hne) hs he fun c => space_mem_replicate, String.ofList_toList]

theorem mem_padStart {c : Char} (h : c ∈ (padStart width s).toList) : c = ' ' ∨ c ∈ s.toList := by
  rw [padStart, String.toList_ofList, List.mem_append] at h
  exact h.imp List.eq_of_mem_replicate id

theorem mem_padEnd {c : Char} (h : c ∈ (padEnd width s).toList) : c = ' ' ∨ c ∈ s.toList := by
  rw [padEnd, String.toList_ofList, List.mem_append] at h
  exact (h.imp id List.eq_of_mem_replicate).symm

end Padding

/-! ## Splitting -/

/-- `str::split` at a character. -/
def split (sep : Char) (s : String) : List String := (s.toList.splitOn sep).map String.ofList

section Split

variable {α : Type} [DecidableEq α] {a : α}

theorem not_mem_of_mem_splitOn {xs p : List α} (h : p ∈ xs.splitOn a) : a ∉ p := by
  induction xs generalizing p with
  | nil =>
    rw [List.splitOn_nil, List.mem_singleton] at h
    rw [h]; exact List.not_mem_nil
  | cons x xs ih =>
    rw [List.splitOn_cons_eq_if_modifyHead] at h
    split at h
    · rcases List.mem_cons.1 h with rfl | h
      · exact List.not_mem_nil
      · exact ih h
    · rename_i hx
      cases hs : xs.splitOn a with
      | nil => exact absurd hs (List.splitOn_ne_nil a xs)
      | cons q rest =>
        rw [hs, List.modifyHead_cons] at h
        rcases List.mem_cons.1 h with rfl | h
        · have hq : a ∉ q := ih (hs ▸ List.mem_cons_self)
          simp only [List.mem_cons, not_or]
          exact ⟨fun e => hx (by simp [e]), hq⟩
        · exact ih (hs ▸ List.mem_cons_of_mem _ h)

theorem mem_of_mem_splitOn {xs p : List α} {y : α} (h : p ∈ xs.splitOn a) (hy : y ∈ p) : y ∈ xs := by
  induction xs generalizing p with
  | nil =>
    rw [List.splitOn_nil, List.mem_singleton] at h
    rw [h] at hy; exact hy
  | cons x xs ih =>
    rw [List.splitOn_cons_eq_if_modifyHead] at h
    split at h
    · rcases List.mem_cons.1 h with rfl | h
      · exact absurd hy List.not_mem_nil
      · exact List.mem_cons_of_mem _ (ih h hy)
    · cases hs : xs.splitOn a with
      | nil => exact absurd hs (List.splitOn_ne_nil a xs)
      | cons q rest =>
        rw [hs, List.modifyHead_cons] at h
        rcases List.mem_cons.1 h with rfl | h
        · rcases List.mem_cons.1 hy with rfl | hy
          · exact List.mem_cons_self
          · exact List.mem_cons_of_mem _ (ih (hs ▸ List.mem_cons_self) hy)
        · exact List.mem_cons_of_mem _ (ih (hs ▸ List.mem_cons_of_mem _ h) hy)

/-- A first element that is no separator starts the first piece. -/
theorem splitOn_cons_ne {x : α} (hx : x ≠ a) (xs : List α) :
    ∃ p rest, (x :: xs).splitOn a = (x :: p) :: rest := by
  rw [List.splitOn_cons_eq_if_modifyHead, if_neg (by simpa using hx)]
  cases hs : xs.splitOn a with
  | nil => exact absurd hs (List.splitOn_ne_nil a xs)
  | cons q rest => exact ⟨q, rest, List.modifyHead_cons⟩

/-- A last element that is no separator ends the last piece. -/
theorem splitOn_concat_ne {x : α} (hx : x ≠ a) (xs : List α) :
    ∃ init p, (xs ++ [x]).splitOn a = init ++ [p ++ [x]] := by
  induction xs with
  | nil => exact ⟨[], [], List.splitOn_eq_singleton (by simpa using hx.symm)⟩
  | cons y xs ih =>
    obtain ⟨init, p, h⟩ := ih
    rw [List.cons_append, List.splitOn_cons_eq_if_modifyHead, h]
    split
    · exact ⟨[] :: init, p, rfl⟩
    · cases init with
      | nil => exact ⟨[], y :: p, rfl⟩
      | cons q init => exact ⟨(y :: q) :: init, p, rfl⟩

/-- A text behind a separator it does not hold is the last piece. -/
theorem split_concat {sep : Char} {s v t : String} (ht : t.toList = s.toList ++ sep :: v.toList)
    (hv : sep ∉ v.toList) : split sep t = split sep s ++ [v] := by
  unfold split
  rw [ht, List.splitOn_append_cons_self, List.splitOn_eq_singleton hv, List.map_append, List.map_singleton,
    String.ofList_toList]

/-- A text without the separator is one piece. -/
theorem split_of_not_mem {sep : Char} {v : String} (hv : sep ∉ v.toList) : split sep v = [v] := by
  unfold split
  rw [List.splitOn_eq_singleton hv, List.map_singleton, String.ofList_toList]

end Split

/-- `str::rsplitn(2, sep)`: what stands behind the last separator, then what stands in front of it; the
whole text if it holds none. -/
def rsplitn2 (sep : Char) (s : String) : List String :=
  match s.toList.rdropWhile (· ≠ sep) with
  | [] => [s]
  | front => [String.ofList (s.toList.rtakeWhile (· ≠ sep)), String.ofList front.dropLast]

/-- A text is cut at a separator that what follows does not hold. -/
theorem rsplitn2_concat {sep : Char} {s front back : String} (hs : s.toList = front.toList ++ sep :: back.toList)
    (hback : sep ∉ back.toList) : rsplitn2 sep s = [back, front] := by
  have hne : ∀ c ∈ back.toList.reverse, decide (c ≠ sep) = true := by
    rintro c hc
    exact decide_eq_true fun e => hback (e ▸ List.mem_reverse.1 hc)
  have hdrop : s.toList.rdropWhile (· ≠ sep) = front.toList ++ [sep] := by
    rw [hs, List.append_cons, List.rdropWhile, List.reverse_append, List.dropWhile_append_of_pos hne,
      ← List.rdropWhile]
    exact List.rdropWhile_concat_neg _ _ _ (by simp)
  have htake : s.toList.rtakeWhile (· ≠ sep) = back.toList := by
    have hwhole := List.rdropWhile_append_rtakeWhile (p := (· ≠ sep)) (l := s.toList)
    rw [hdrop] at hwhole
    exact List.append_cancel_left (hwhole.trans (hs.trans (List.append_cons _ _ _)))
  unfold rsplitn2
  rw [hdrop, htake]
  split
  · next hnil => simp at hnil
  · rw [List.dropLast_concat, String.ofList_toList, String.ofList_toList]

/-- A joined list ends in its last piece. -/
theorem intercalate_concat (sep last : String) (init : List String) :
    ∃ pre, sep.intercalate (init ++ [last]) = pre ++ last := by
  induction init with
  | nil => exact ⟨"", by simp⟩
  | cons s init ih =>
    obtain ⟨pre, h⟩ := ih
    cases init with
    | nil => exact ⟨s ++ sep, by simp⟩
    | cons t init =>
      refine ⟨s ++ sep ++ pre, ?_⟩
      rw [List.cons_append, List.cons_append, String.intercalate_cons_cons, ← List.cons_append, h]
      simp only [String.append_assoc]

/-- The characters of a joined list are those of the separator and of the pieces. -/
theorem mem_intercalate {sep : String} {pieces : List String} {c : Char}
    (h : c ∈ (sep.intercalate pieces).toList) : c ∈ sep.toList ∨ ∃ s ∈ pieces, c ∈ s.toList := by
  induction pieces with
  | nil => simp at h
  | cons s pieces ih =>
    cases pieces with
    | nil => exact .inr ⟨s, List.mem_cons_self, by simpa using h⟩
    | cons t pieces =>
      rw [String.intercalate_cons_cons, String.toList_append, String.toList_append, List.mem_append,
        List.mem_append] at h
      rcases h with (h | h) | h
      · exact .inr ⟨s, List.mem_cons_self, h⟩
      · exact .inl h
      · rcases ih h with h | ⟨u, hu, h⟩
        · exact .inl h
        · exact .inr ⟨u, List.mem_cons_of_mem _ hu, h⟩

/-! ## Lines of a byte stream -/

/-- The line feed. -/
def lf : UInt8 := 10

/-- A line without the carriage return before its line feed. -/
def stripCr (line : List UInt8) : List UInt8 := if line.getLast? = some 13 then line.dropLast else line

/-- The lines among the pieces between line feeds; what follows the last one is a line unless it
is empty. -/
def closeLines : List (List UInt8) → List (List UInt8)
  | [] => []
  | [last] => if last = [] then [] else [last]
  | line :: next :: rest => stripCr line :: closeLines (next :: rest)

/-- The raw lines `BufRead::lines` reads. -/
def rawLines (bs : List UInt8) : List (List UInt8) := closeLines (bs.splitOn lf)

/-- `BufRead::lines`: each line, or `none` where it is not UTF-8. -/
def lines (bs : List UInt8) : List (Option String) := (rawLines bs).map fromUtf8

@[simp] theorem lines_nil : lines [] = [] := by
  simp [lines, rawLines, List.splitOn_nil, closeLines]

theorem lines_cons {line : List UInt8} (h : lf ∉ line) (rest : List UInt8) :
    lines (line ++ lf :: rest) = fromUtf8 (stripCr line) :: lines rest := by
  unfold lines rawLines
  rw [List.splitOn_append_cons_self_of_not_mem h]
  cases hs : rest.splitOn lf with
  | nil => exact absurd hs (List.splitOn_ne_nil lf rest)
  | cons next more => rfl

/-- Bytes without a line feed are one line. -/
theorem lines_unterminated {bs : List UInt8} (h : lf ∉ bs) (hne : bs ≠ []) : lines bs = [fromUtf8 bs] := by
  unfold lines rawLines
  rw [List.splitOn_eq_singleton h]
  simp only [closeLines, hne, ↓reduceIte, List.map_cons, List.map_nil]

theorem lf_not_mem_stripCr {line : List UInt8} (h : lf ∉ line) : lf ∉ stripCr line := by
  unfold stripCr
  split
  · exact fun hm => h (List.dropLast_subset _ hm)
  · exact h

theorem lf_not_mem_closeLines {pieces : List (List UInt8)} (h : ∀ p ∈ pieces, lf ∉ p) :
    ∀ line ∈ closeLines pieces, lf ∉ line := by
  induction pieces with
  | nil => intro line hl; cases hl
  | cons p rest ih =>
    cases rest with
    | nil =>
      intro line hl
      unfold closeLines at hl
      split at hl
      · cases hl
      · rw [List.mem_singleton] at hl
        exact hl ▸ h p List.mem_cons_self
    | cons next more =>
      intro line hl
      rw [closeLines] at hl
      rcases List.mem_cons.1 hl with rfl | hl
      · exact lf_not_mem_stripCr (h p List.mem_cons_self)
      · exact ih (fun q hq => h q (List.mem_cons_of_mem _ hq)) line hl

/-- An ASCII byte in the encoding of a character is that character. -/
theorem ascii_mem_encodeChar {c : Char} {b : UInt8} (hb : b < 128) (h : b ∈ String.utf8EncodeChar c) :
    c.toNat = b.toNat := by
  have hb' : b.toNat < 128 := hb
  unfold String.utf8EncodeChar at h
  simp only at h
  have hhigh : ∀ m, 128 ≤ m → m < 256 → b ≠ UInt8.ofNat m := by
    rintro m h1 h2 rfl
    rw [UInt8.toNat_ofNat_of_lt' h2] at hb'
    omega
  split at h
  · rename_i hc
    rw [List.mem_singleton] at h
    rw [h, UInt8.toNat_ofNat_of_lt' (Nat.lt_of_le_of_lt hc (by decide))]
    rfl
  · exfalso
    split at h
    · simp only [List.mem_cons, List.not_mem_nil, or_false] at h
      rcases h with h | h <;> exact hhigh _ (by omega) (by omega) h
    · split at h <;> simp only [List.mem_cons, List.not_mem_nil, or_false] at h
      · rcases h with h | h | h <;> exact hhigh _ (by omega) (by omega) h
      · rcases h with h | h | h | h <;> exact hhigh _ (by omega) (by omega) h

theorem lf_mem_utf8Bytes {s : String} : lf ∈ utf8Bytes s ↔ '\n' ∈ s.toList := by
  unfold utf8Bytes
  rw [List.mem_flatMap]
  constructor
  · rintro ⟨c, hc, h⟩
    have hn := ascii_mem_encodeChar (by decide) h
    have : c = '\n' := Char.ext (UInt32.toNat_inj.1 hn)
    exact this ▸ hc
  · intro h
    exact ⟨'\n', h, by decide⟩

/-- No line holds a line feed. -/
theorem newline_not_mem_lines {bs : List UInt8} {s : String} (h : some s ∈ lines bs) : '\n' ∉ s.toList := by
  obtain ⟨line, hl, hs⟩ := List.mem_map.1 h
  have hlf : lf ∉ line :=
    lf_not_mem_closeLines (fun p hp => not_mem_of_mem_splitOn hp) line hl
  rw [fromUtf8_eq_some] at hs
  rw [← lf_mem_utf8Bytes, ← hs]
  exact hlf

end Lib.Text
