/-
Texts by lines and lines by words: `str::lines` and `str::split_whitespace`. White space at the ends of
a line and the carriage return in front of a line feed change neither its words nor its trimmed text,
and a word is read off the front of whatever begins with white space (`tokens_word_append`).
-/
import Zht.Lib.Text

namespace Lib.Text

/-! ## Words -/

/-- The pieces between white space that are not empty. -/
def tokens (cs : List Char) : List (List Char) := (cs.splitOnP isWhitespace).filter (· ≠ [])

/-- `str::split_whitespace`. -/
def splitWhitespace (s : String) : List String := (tokens s.toList).map String.ofList

/-- Nothing, or a white space first. -/
def StartsBlank (cs : List Char) : Prop := ∀ c ∈ cs.head?, isWhitespace c = true

@[simp] theorem tokens_nil : tokens [] = [] := by
  simp [tokens]

theorem tokens_append_cons (xs ys : List Char) {c : Char} (hc : isWhitespace c = true) :
    tokens (xs ++ c :: ys) = tokens xs ++ tokens ys := by
  unfold tokens
  rw [List.splitOnP_append_cons xs ys hc, List.filter_append]

theorem tokens_word {word : List Char} (hne : word ≠ []) (h : ∀ c ∈ word, isWhitespace c = false) :
    tokens word = [word] := by
  unfold tokens
  rw [List.splitOnP_eq_singleton h]
  simp [hne]

theorem tokens_blank_append (cs : List Char) :
    ∀ {blank : List Char}, (∀ c ∈ blank, isWhitespace c = true) → tokens (blank ++ cs) = tokens cs
  | [], _ => rfl
  | c :: blank, h => by
    have hrest := tokens_blank_append cs fun d hd => h d (List.mem_cons_of_mem c hd)
    have hfirst := tokens_append_cons [] (blank ++ cs) (h c List.mem_cons_self)
    rw [List.cons_append, ← hrest]
    simpa using hfirst

theorem tokens_blank {blank : List Char} (h : ∀ c ∈ blank, isWhitespace c = true) : tokens blank = [] := by
  have hall := tokens_blank_append [] h
  rwa [List.append_nil, tokens_nil] at hall

theorem tokens_word_append {word rest : List Char} (hne : word ≠ []) (h : ∀ c ∈ word, isWhitespace c = false)
    (hrest : StartsBlank rest) : tokens (word ++ rest) = word :: tokens rest := by
  cases rest with
  | nil => rw [List.append_nil, tokens_word hne h, tokens_nil]
  | cons c rest =>
    have hc : isWhitespace c = true := hrest c rfl
    have hdrop := tokens_append_cons [] rest hc
    rw [tokens_append_cons word rest hc, tokens_word hne h, ← List.nil_append (c :: rest), hdrop]
    rfl

/-- The first word of a text that does not begin with white space goes up to the first white space. -/
theorem tokens_clean {cs : List Char} (hne : cs ≠ []) (h : CleanStart cs) :
    tokens cs = cs.takeWhile (fun d => !isWhitespace d) :: tokens (cs.dropWhile fun d => !isWhitespace d) := by
  have hsplit := List.takeWhile_append_dropWhile (p := fun d => !isWhitespace d) (l := cs)
  have hword : cs.takeWhile (fun d => !isWhitespace d) ≠ [] := by
    cases cs with
    | nil => exact absurd rfl hne
    | cons c cs =>
      have hc : isWhitespace c = false := h c rfl
      rw [List.takeWhile_cons_of_pos (by simp [hc])]
      exact List.cons_ne_nil _ _
  have hplain : ∀ d ∈ cs.takeWhile (fun d => !isWhitespace d), isWhitespace d = false := by
    intro d hd
    simpa using List.mem_takeWhile_imp hd
  have hrest : StartsBlank (cs.dropWhile fun d => !isWhitespace d) := by
    intro d hd
    have hnot := List.head?_dropWhile_not (fun d => !isWhitespace d) cs
    rw [hd] at hnot
    simpa using hnot
  conv_lhs => rw [← hsplit, tokens_word_append hword hplain hrest]

/-- A text that does not begin with white space has a first word. -/
theorem tokens_cons_ne_nil {c : Char} (hc : isWhitespace c = false) (cs : List Char) : tokens (c :: cs) ≠ [] := by
  have hclean : CleanStart (c :: cs) := fun d hd => by rwa [← Option.some.inj hd]
  rw [tokens_clean (List.cons_ne_nil c cs) hclean]
  exact List.cons_ne_nil _ _

theorem tokens_append_blank (cs : List Char) {blank : List Char} (h : ∀ c ∈ blank, isWhitespace c = true) :
    tokens (cs ++ blank) = tokens cs := by
  cases blank with
  | nil => rw [List.append_nil]
  | cons c blank =>
    have hrest := tokens_blank fun d hd => h d (List.mem_cons_of_mem c hd)
    rw [tokens_append_cons cs blank (h c List.mem_cons_self), hrest, List.append_nil]

/-! ## Trimmed texts -/

/-- A text is its trimmed one between white space. -/
theorem exists_blank_trimChars (cs : List Char) :
    ∃ before after, cs = before ++ trimChars cs ++ after ∧ (∀ c ∈ before, isWhitespace c = true) ∧
      ∀ c ∈ after, isWhitespace c = true := by
  refine ⟨cs.takeWhile isWhitespace, (cs.dropWhile isWhitespace).rtakeWhile isWhitespace, ?_, ?_, ?_⟩
  · rw [trimChars, List.append_assoc, List.rdropWhile_append_rtakeWhile, List.takeWhile_append_dropWhile]
  · exact fun c hc => List.mem_takeWhile_imp hc
  · exact fun c hc => List.mem_rtakeWhile_imp hc

theorem tokens_trimChars (cs : List Char) : tokens (trimChars cs) = tokens cs := by
  obtain ⟨before, after, hcs, hbefore, hafter⟩ := exists_blank_trimChars cs
  conv_rhs => rw [hcs, tokens_append_blank _ hafter, tokens_blank_append _ hbefore]

theorem splitWhitespace_trim (s : String) : splitWhitespace (trim s) = splitWhitespace s := by
  unfold splitWhitespace trim
  rw [String.toList_ofList, tokens_trimChars]

theorem trimChars_word {word : List Char} (h : ∀ c ∈ word, isWhitespace c = false) : trimChars word = word :=
  trimChars_of_clean (fun c hc => h c (List.mem_of_mem_head? hc)) fun c hc => h c (List.mem_of_mem_getLast? hc)

/-- White space throughout, or a word. -/
theorem tokens_eq_nil_iff {cs : List Char} : tokens cs = [] ↔ ∀ c ∈ cs, isWhitespace c = true := by
  refine ⟨fun h => ?_, tokens_blank⟩
  have hnil : cs.dropWhile isWhitespace = [] := by
    by_contra hne
    obtain ⟨c, rest, hc⟩ := List.exists_cons_of_ne_nil hne
    have hclean : isWhitespace c = false := by
      have hhead := List.head?_dropWhile_not isWhitespace cs
      rw [hc] at hhead
      exact hhead
    have hwords := tokens_cons_ne_nil hclean rest
    rw [← hc, ← tokens_blank_append _ fun d hd => List.mem_takeWhile_imp hd, List.takeWhile_append_dropWhile] at hwords
    exact hwords h
  exact List.dropWhile_eq_nil_iff.1 hnil

/-- A trimmed text of one word is that word. -/
theorem trimChars_of_tokens {cs word : List Char} (h : tokens cs = [word]) : trimChars cs = word := by
  have hwords : tokens (trimChars cs) = [word] := (tokens_trimChars cs).trans h
  have hne : trimChars cs ≠ [] := by
    intro hnil
    rw [hnil, tokens_nil] at hwords
    cases hwords
  have hsplit := List.takeWhile_append_dropWhile (p := fun d => !isWhitespace d) (l := trimChars cs)
  rw [tokens_clean hne (trimChars_cleanStart cs)] at hwords
  obtain ⟨hword, hblank⟩ := List.cons.inj hwords
  rw [hword] at hsplit
  rw [tokens_eq_nil_iff] at hblank
  generalize (trimChars cs).dropWhile (fun d => !isWhitespace d) = rest at hsplit hblank
  rcases List.eq_nil_or_concat' rest with rfl | ⟨init, c, rfl⟩
  · rw [← hsplit, List.append_nil]
  · -- the white space after the word would end the trimmed text
    have hend : CleanEnd (word ++ (init ++ [c])) := hsplit ▸ trimChars_cleanEnd cs
    have hc := hend c (by rw [← List.append_assoc, List.getLast?_concat]; rfl)
    rw [hblank c (by simp)] at hc
    cases hc

theorem trimChars_blank {cs : List Char} (h : ∀ c ∈ cs, isWhitespace c = true) : trimChars cs = [] := by
  unfold trimChars
  rw [List.dropWhile_eq_nil_iff.2 h, List.rdropWhile_nil]

/-- The first character that is no white space is the first of the trimmed text. -/
theorem head?_trimChars {blank cs : List Char} {c : Char} (hblank : ∀ d ∈ blank, isWhitespace d = true)
    (hc : isWhitespace c = false) : (trimChars (blank ++ c :: cs)).head? = some c := by
  have hdrop : (c :: cs).dropWhile isWhitespace = c :: cs := List.dropWhile_cons_of_neg (by simp [hc])
  rw [trimChars_prepend hblank, trimChars, hdrop]
  obtain ⟨after, hafter⟩ := List.rdropWhile_prefix isWhitespace (c :: cs)
  cases hr : (c :: cs).rdropWhile isWhitespace with
  | nil =>
    have hall := List.rdropWhile_eq_nil_iff.1 hr c List.mem_cons_self
    rw [hc] at hall
    cases hall
  | cons d ds =>
    rw [hr, List.cons_append, List.cons.injEq] at hafter
    rw [List.head?_cons, hafter.1]

theorem trimChars_concat (cs : List Char) {c : Char} (hc : isWhitespace c = true) :
    trimChars (cs ++ [c]) = trimChars cs := by
  unfold trimChars
  rw [List.dropWhile_append]
  split
  · next hnil =>
    rw [List.isEmpty_iff.1 hnil]
    simp [hc]
  · exact List.rdropWhile_concat_pos _ _ _ hc

/-! ## Lines of a text -/

/-- A line without the carriage return before its line feed. -/
def stripCarriage (line : List Char) : List Char := if line.getLast? = some '\r' then line.dropLast else line

/-- The lines among the pieces between line feeds; what follows the last one is a line unless it is
empty. -/
def closeText : List (List Char) → List (List Char)
  | [] => []
  | [last] => if last = [] then [] else [last]
  | line :: next :: rest => stripCarriage line :: closeText (next :: rest)

/-- The lines of some characters. -/
def charLines (cs : List Char) : List (List Char) := closeText (cs.splitOn '\n')

/-- `str::lines`. -/
def textLines (s : String) : List String := (charLines s.toList).map String.ofList

@[simp] theorem charLines_nil : charLines [] = [] := by
  simp [charLines, closeText]

theorem charLines_cons {line : List Char} (h : '\n' ∉ line) (rest : List Char) :
    charLines (line ++ '\n' :: rest) = stripCarriage line :: charLines rest := by
  unfold charLines
  rw [List.splitOn_append_cons_self_of_not_mem h]
  cases hs : rest.splitOn '\n' with
  | nil => exact absurd hs (List.splitOn_ne_nil _ rest)
  | cons next more => rfl

theorem charLines_unterminated {line : List Char} (h : '\n' ∉ line) (hne : line ≠ []) : charLines line = [line] := by
  unfold charLines
  rw [List.splitOn_eq_singleton h]
  exact if_neg hne

/-- The carriage return is white space at the end of the line. -/
theorem trimChars_stripCarriage (line : List Char) : trimChars (stripCarriage line) = trimChars line := by
  unfold stripCarriage
  split
  · next hlast =>
    obtain ⟨init, rfl⟩ := List.getLast?_eq_some_iff.1 hlast
    rw [List.dropLast_concat, trimChars_concat init (by decide)]
  · rfl

theorem newline_not_mem_closeText {pieces : List (List Char)} (h : ∀ p ∈ pieces, '\n' ∉ p) :
    ∀ line ∈ closeText pieces, '\n' ∉ line := by
  fun_induction closeText pieces with
  | case1 =>
    intro line hline
    cases hline
  | case2 =>
    intro line hline
    cases hline
  | case3 last hne =>
    intro line hline
    rw [List.mem_singleton.1 hline]
    exact h last List.mem_cons_self
  | case4 piece next rest ih =>
    intro line hline
    rcases List.mem_cons.1 hline with rfl | hline
    · have hpiece := h piece List.mem_cons_self
      unfold stripCarriage
      split
      · exact fun hmem => hpiece (List.dropLast_subset piece hmem)
      · exact hpiece
    · exact ih (fun p hp => h p (List.mem_cons_of_mem _ hp)) line hline

/-- A line has no line feed in it. -/
theorem newline_not_mem_textLines {s line : String} (h : line ∈ textLines s) : '\n' ∉ line.toList := by
  obtain ⟨cs, hcs, rfl⟩ := List.mem_map.1 h
  rw [String.toList_ofList]
  exact newline_not_mem_closeText (fun p hp => not_mem_of_mem_splitOn hp) cs hcs

end Lib.Text
