/-
`zht.conf` as a format: `ConfEntry`'s text against `from_line`, and files of such texts against
`ZhtConfig::load`. An entry comes back from its text exactly if its name is one word that does not begin a
comment and its value is trimmed (`fromLine_toString_iff`); all that `from_line` accepts is of that kind,
so a table comes back from a file exactly if it is one that some file gives (`conf_round_trip`).
-/
import Zht.Config.ZhtConf

namespace Zht

open Lib Lib.Utf8 Lib.Text

namespace ConfEntry

/-- `to_string`, and `Display` alike. -/
def toString (e : ConfEntry) : String := if e.value = "" then e.name else e.name ++ " " ++ e.value

/-- The entry is one that a line can give. -/
structure Plain (e : ConfEntry) : Prop where
  word : ∀ c ∈ e.name.toList, isWhitespace c = false
  nonempty : e.name ≠ ""
  noComment : e.name.toList.head? ≠ some '#'
  trimmed : trim e.value = e.value

/-! ## Entries -/

theorem splitn2_word {name : String} (hword : ∀ c ∈ name.toList, isWhitespace c = false) : splitn2 name = [name] := by
  have hall : name.toList.dropWhile (fun c => !isWhitespace c) = [] := by
    rw [List.dropWhile_eq_nil_iff]
    intro c hc
    simp [hword c hc]
  unfold splitn2
  rw [hall]

theorem splitn2_space {name : String} (hword : ∀ c ∈ name.toList, isWhitespace c = false) (value : String) :
    splitn2 (name ++ " " ++ value) = [name, value] := by
  have htext : (name ++ " " ++ value).toList = name.toList ++ ' ' :: value.toList := by
    rw [String.toList_append, String.toList_append, List.append_assoc]
    rfl
  have hpos : ∀ c ∈ name.toList, (!isWhitespace c) = true := fun c hc => by simp [hword c hc]
  have hdrop : (' ' :: value.toList).dropWhile (fun c => !isWhitespace c) = ' ' :: value.toList :=
    List.dropWhile_cons_of_neg (by decide)
  have htake : (' ' :: value.toList).takeWhile (fun c => !isWhitespace c) = [] :=
    List.takeWhile_cons_of_neg (by decide)
  unfold splitn2
  rw [htext, List.dropWhile_append_of_pos hpos, hdrop]
  simp only [List.takeWhile_append_of_pos hpos, htake, List.append_nil, String.ofList_toList]

theorem Plain.trim_name {e : ConfEntry} (h : e.Plain) : trim e.name = e.name := by
  rw [trim, trimChars_word h.word, String.ofList_toList]

/-- The text begins with the name. -/
theorem exists_toString (e : ConfEntry) : ∃ rest, e.toString.toList = e.name.toList ++ rest := by
  unfold toString
  split
  · exact ⟨[], (List.append_nil _).symm⟩
  · exact ⟨" ".toList ++ e.value.toList, by rw [String.toList_append, String.toList_append, List.append_assoc]⟩

theorem Plain.head_toString {e : ConfEntry} (h : e.Plain) : e.toString.toList.head? = e.name.toList.head? := by
  obtain ⟨rest, hrest⟩ := e.exists_toString
  rw [hrest, List.head?_append_of_ne_nil _ (toList_ne_nil h.nonempty)]

/-- The text of a plain entry has no white space at its end. -/
theorem Plain.cleanEnd_toString {e : ConfEntry} (h : e.Plain) : CleanEnd e.toString.toList := by
  unfold toString
  split
  · intro c hc
    exact h.word c (List.mem_of_getLast? hc)
  · next hvalue =>
    rw [String.toList_append]
    apply cleanEnd_append (toList_ne_nil hvalue)
    rw [← h.trimmed, trim, String.toList_ofList]
    exact trimChars_cleanEnd _

theorem Plain.trim_toString {e : ConfEntry} (h : e.Plain) : trim e.toString = e.toString := by
  have hstart : CleanStart e.toString.toList := by
    intro c hc
    rw [h.head_toString] at hc
    exact h.word c (List.mem_of_mem_head? hc)
  rw [trim, trimChars_of_clean hstart h.cleanEnd_toString, String.ofList_toList]

theorem Plain.fromLine_toString {e : ConfEntry} (h : e.Plain) : fromLine e.toString = some e := by
  have hhead : e.toString.toList.head? ≠ some '#' := h.head_toString ▸ h.noComment
  have hne : e.toString ≠ "" := by
    intro hempty
    have hname := h.head_toString
    rw [hempty] at hname
    exact toList_ne_nil h.nonempty (List.head?_eq_none_iff.1 hname.symm)
  have hparts : (splitn2 e.toString).head? = some e.name ∧ trim ((splitn2 e.toString)[1]?.getD "") = e.value := by
    unfold toString
    split
    · next hvalue =>
      rw [splitn2_word h.word, hvalue]
      exact ⟨rfl, rfl⟩
    · rw [splitn2_space h.word]
      exact ⟨rfl, h.trimmed⟩
  unfold fromLine
  simp only [h.trim_toString, hne, hhead, or_self, if_false, hparts.1, hparts.2, h.trim_name, h.nonempty]

/-- The first part of a text that does not begin with white space. -/
theorem splitn2_spec {s : String} (hne : s ≠ "") (hstart : CleanStart s.toList) :
    ∃ name, (splitn2 s).head? = some name ∧ (∀ c ∈ name.toList, isWhitespace c = false) ∧ name ≠ "" ∧
      name.toList.head? = s.toList.head? ∧ ∀ c ∈ ((splitn2 s)[1]?.getD "").toList, c ∈ s.toList := by
  have hword : ∀ c ∈ s.toList.takeWhile (fun c => !isWhitespace c), isWhitespace c = false := by
    intro c hc
    simpa using List.mem_takeWhile_imp hc
  obtain ⟨c, cs, hs⟩ := List.exists_cons_of_ne_nil (toList_ne_nil hne)
  have hc : isWhitespace c = false := hstart c (by rw [hs]; rfl)
  have hhead : s.toList.takeWhile (fun c => !isWhitespace c) = c :: cs.takeWhile (fun c => !isWhitespace c) := by
    rw [hs, List.takeWhile_cons_of_pos (by simp [hc])]
  unfold splitn2
  cases hd : s.toList.dropWhile fun c => !isWhitespace c with
  | nil =>
    refine ⟨s, rfl, fun d hd' => ?_, hne, rfl, fun d hd' => ?_⟩
    · simpa using List.dropWhile_eq_nil_iff.1 hd d hd'
    · cases hd'
  | cons b rest =>
    refine ⟨_, rfl, fun d hd' => ?_, fun hempty => ?_, ?_, fun d hd' => ?_⟩
    · rw [String.toList_ofList] at hd'
      exact hword d hd'
    · have hnil := congrArg String.toList hempty
      rw [String.toList_ofList, hhead] at hnil
      cases hnil
    · rw [String.toList_ofList, hhead, hs]
      rfl
    · have hmem : d ∈ rest := by simpa using hd'
      have hsub := (List.dropWhile_suffix fun c => !isWhitespace c).subset (hd ▸ List.mem_cons_of_mem b hmem)
      exact hsub

/-- What a line gives is plain, and made of the line's characters. -/
theorem plain_of_fromLine {line : String} {e : ConfEntry} (h : fromLine line = some e) :
    e.Plain ∧ ∀ c ∈ e.value.toList, c ∈ line.toList := by
  unfold fromLine at h
  simp only at h
  split at h
  · cases h
  · next hline =>
    rw [not_or] at hline
    obtain ⟨name, hname, hword, hne, hhead, hchars⟩ := splitn2_spec hline.1 (trim_cleanStart line)
    have htrim : trim name = name := by rw [trim, trimChars_word hword, String.ofList_toList]
    simp only [hname, htrim, hne, if_false] at h
    obtain rfl := Option.some.inj h
    have hhash : name.toList.head? ≠ some '#' := by
      rw [hhead]
      exact hline.2
    have hvalue : trim (trim ((splitn2 (trim line))[1]?.getD "")) = trim ((splitn2 (trim line))[1]?.getD "") :=
      trim_trim _
    refine ⟨⟨hword, hne, hhash, hvalue⟩, fun c hc => ?_⟩
    have hpart : c ∈ ((splitn2 (trim line))[1]?.getD "").toList := by
      rw [trim, String.toList_ofList] at hc
      exact trimChars_sub hc
    have htrimmed := hchars c hpart
    rw [trim, String.toList_ofList] at htrimmed
    exact trimChars_sub htrimmed

/-- An entry comes back from its text exactly if some line gives it. -/
theorem fromLine_toString_iff (e : ConfEntry) : fromLine e.toString = some e ↔ e.Plain :=
  ⟨fun h => (plain_of_fromLine h).1, fun h => h.fromLine_toString⟩

/-- The entry is one that a line of a file can give. -/
structure OneLine (e : ConfEntry) : Prop extends Plain e where
  newline : '\n' ∉ e.value.toList

theorem oneLine_of_fromLine {line : String} {e : ConfEntry} (hline : '\n' ∉ line.toList) (h : fromLine line = some e) :
    e.OneLine := by
  obtain ⟨hplain, hchars⟩ := plain_of_fromLine h
  exact { hplain with newline := fun hmem => hline (hchars _ hmem) }

theorem OneLine.newline_toString {e : ConfEntry} (h : e.OneLine) : '\n' ∉ e.toString.toList := by
  have hname : '\n' ∉ e.name.toList := fun hmem => absurd (h.word _ hmem) (by decide)
  unfold toString
  split
  · exact hname
  · rw [String.toList_append, String.toList_append, List.mem_append, List.mem_append, not_or, not_or]
    exact ⟨⟨hname, by decide⟩, h.newline⟩

end ConfEntry

/-! ## Files -/

namespace ZhtConfig

/-- The file that has the text of an entry on each line. -/
def render : List ConfEntry → String
  | [] => ""
  | e :: entries => e.toString ++ "\n" ++ render entries

/-- The table's entries, in the order the map is walked in. -/
def confEntries (ord : HashMap.Order String String) (m : HashMap String String) : List ConfEntry :=
  (ord.entries m).map fun p => { name := p.1, value := p.2 }

theorem textLines_cons {line : String} (hline : '\n' ∉ line.toList) (hend : CleanEnd line.toList) (rest : String) :
    textLines (line ++ "\n" ++ rest) = line :: textLines rest := by
  have htext : (line ++ "\n" ++ rest).toList = line.toList ++ '\n' :: rest.toList := by
    rw [String.toList_append, String.toList_append, List.append_assoc]
    rfl
  have hlast : line.toList.getLast? ≠ some '\r' := by
    intro hlast
    have hblank := hend '\r' hlast
    rw [show isWhitespace '\r' = true by decide] at hblank
    cases hblank
  have hstrip : stripCarriage line.toList = line.toList := by
    unfold stripCarriage
    rw [if_neg hlast]
  unfold textLines
  rw [htext, charLines_cons hline, List.map_cons, hstrip, String.ofList_toList]

theorem textLines_render {entries : List ConfEntry} (h : ∀ e ∈ entries, e.OneLine) :
    textLines (render entries) = entries.map ConfEntry.toString := by
  induction entries with
  | nil => rfl
  | cons e entries ih =>
    have he := h e List.mem_cons_self
    have hrest := ih fun f hf => h f (List.mem_cons_of_mem e hf)
    rw [render, textLines_cons he.newline_toString he.cleanEnd_toString, hrest, List.map_cons]

/-- The texts of entries are loaded as the entries. -/
theorem loadLines_toString {entries : List ConfEntry} (h : ∀ e ∈ entries, e.OneLine) (m : HashMap String String) :
    loadLines m (entries.map ConfEntry.toString) = HashMap.insertAll (entries.map fun e => (e.name, e.value)) m := by
  induction entries generalizing m with
  | nil => rfl
  | cons e entries ih =>
    have he := (h e List.mem_cons_self).fromLine_toString
    rw [List.map_cons, List.map_cons, loadLines, he, HashMap.insertAll_cons]
    exact ih (fun f hf => h f (List.mem_cons_of_mem e hf)) _

/-- What is loaded was there before or is on a line. -/
theorem fromLine_of_loadLines {lines : List String} {m : HashMap String String} {name value : String}
    (h : (loadLines m lines).lookup name = some value) :
    m.lookup name = some value ∨ ∃ line ∈ lines, ConfEntry.fromLine line = some { name, value } := by
  induction lines generalizing m with
  | nil => exact .inl h
  | cons line lines ih =>
    rw [loadLines] at h
    cases hline : ConfEntry.fromLine line with
    | none =>
      rw [hline] at h
      rcases ih h with hm | ⟨other, hmem, hother⟩
      · exact .inl hm
      · exact .inr ⟨other, List.mem_cons_of_mem line hmem, hother⟩
    | some e =>
      rw [hline] at h
      rcases ih h with hm | ⟨other, hmem, hother⟩
      · by_cases hname : name = e.name
        · subst hname
          rw [Finmap.lookup_insert] at hm
          obtain rfl := Option.some.inj hm
          exact .inr ⟨line, List.mem_cons_self, hline⟩
        · rw [Finmap.lookup_insert_of_ne _ hname] at hm
          exact .inl hm
      · exact .inr ⟨other, List.mem_cons_of_mem line hmem, hother⟩

/-- Every entry of a loaded table is one that a line can give. -/
theorem oneLine_of_load {path : String} {file : ConfigFile} {config : ZhtConfig} (h : load path file = .ok config)
    {name value : String} (hv : config.parameters.lookup name = some value) :
    ConfEntry.OneLine { name, value } := by
  cases file with
  | missing => cases h
  | unreadable e => cases h
  | content bytes =>
    unfold load at h
    simp only at h
    cases htext : fromUtf8 bytes with
    | none =>
      rw [htext] at h
      cases h
    | some text =>
      rw [htext] at h
      obtain rfl := Except.ok.inj h
      rcases fromLine_of_loadLines hv with hempty | ⟨line, hmem, hline⟩
      · rw [Finmap.lookup_empty] at hempty
        cases hempty
      · exact ConfEntry.oneLine_of_fromLine (newline_not_mem_textLines hmem) hline

theorem load_render (ord : HashMap.Order String String) (path : String) {m : HashMap String String}
    (h : ∀ name value, m.lookup name = some value → ConfEntry.OneLine { name, value }) :
    load path (.content (utf8Bytes (render (confEntries ord m)))) = .ok { parameters := m } := by
  have hentries : ∀ e ∈ confEntries ord m, e.OneLine := by
    intro e he
    obtain ⟨⟨name, value⟩, hp, rfl⟩ := List.mem_map.1 he
    exact h name value ((ord.mem m name value).1 hp)
  have hpairs : (confEntries ord m).map (fun e => (e.name, e.value)) = ord.entries m := by
    rw [confEntries, List.map_map]
    exact List.map_id _
  rw [load_text, loadText, textLines_render hentries, loadLines_toString hentries, hpairs, ord.insertAll_entries]

/-- A table written as its entries' texts, in any order, is loaded as it was exactly if every entry is one
that a line can give; so is every table that some file was loaded as. -/
theorem conf_round_trip (ord : HashMap.Order String String) (path : String) :
    (∀ m, load path (.content (utf8Bytes (render (confEntries ord m)))) = .ok { parameters := m } ↔
      ∀ name value, m.lookup name = some value → ConfEntry.OneLine { name, value }) ∧
    ∀ file config, load path file = .ok config →
      load path (.content (utf8Bytes (render (confEntries ord config.parameters)))) = .ok config := by
  constructor
  · intro m
    constructor
    · intro h name value hv
      exact oneLine_of_load h hv
    · exact load_render ord path
  · rintro file config h
    exact load_render ord path fun name value hv => oneLine_of_load h hv

/-- A value of two lines is cut at the first. -/
example : load "zht.conf" (.content (utf8Bytes (render [⟨"HTDATA_PATH", "data/\n1"⟩]))) =
    .ok { parameters := (∅ : HashMap String String).insert "HTDATA_PATH" "data/" |>.insert "1" "" } := by
  decide

end ZhtConfig

end Zht
