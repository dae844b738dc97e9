/-
`NeighborConfig::load`. The file is read line by line; blank lines and comments are skipped, of the
others the first two words are a host and a port, and the first line at fault ends the load. `Writes`
says which texts write a list of nodes, in whatever layout: each is loaded as that list, and a text
with a line at fault as none (`load_faithful`).
-/
import Zht.Config.Routing
import Zht.Lib.Tokens

namespace Zht

open Lib Lib.Utf8 Lib.Text

/-! ## Loading -/

/-- What is found at a path. -/
inductive ConfigFile
  | missing
  | unreadable (e : String)
  | content (bytes : Bytes)
  deriving DecidableEq, Repr

namespace NeighborConfig

/-- The error of a line, counted from 0. -/
def portError (path : String) (lineNum : Nat) (what : String) : ZhtError :=
  .invalidConfigValue "PORT" (what ++ " in " ++ path ++ " line " ++ (lineNum + 1).repr)

/-- One line of the loop: the node it names, if it is not skipped. -/
def loadLine (path : String) (lineNum : Nat) (line : String) : ZhtResult (Option HostEntity) :=
  let trimmed := trim line
  if trimmed = "" ∨ trimmed.toList.head? = some '#' then .ok none
  else
    match splitWhitespace trimmed with
    -- not reached: the line is not blank
    | [] => .ok none
    | [_] => .error (portError path lineNum "missing port")
    | host :: p :: _ =>
      match Decimal.parseUnsigned (2 ^ 16) p with
      | .ok port => .ok (some { host, port := UInt16.ofNat port })
      | .error _ => .error (portError path lineNum ("invalid port '" ++ p ++ "'"))

def loadLines (path : String) : Nat → List String → ZhtResult (List HostEntity)
  | _, [] => .ok []
  | lineNum, line :: lines => do
    let node ← loadLine path lineNum line
    let nodes ← loadLines path (lineNum + 1) lines
    return node.toList ++ nodes

def load (path : String) : ConfigFile → ZhtResult NeighborConfig
  | .missing => .error (.configNotFound path)
  | .unreadable e => .error (.configParseError path e)
  | .content bytes =>
    match fromUtf8 bytes with
    | none => .error (.configParseError path "stream did not contain valid UTF-8")
    | some text => (loadLines path 0 (textLines text)).map fun neighbors => { neighbors }

theorem load_text (path text : String) :
    load path (.content (utf8Bytes text)) =
      (loadLines path 0 (textLines text)).map fun neighbors => { neighbors } := by
  simp only [load, fromUtf8_utf8Bytes]

end NeighborConfig

/-! ## Layouts -/

/-- A host of a neighbor file. -/
structure PlainHost (host : String) : Prop where
  ne : host ≠ ""
  plain : ∀ c ∈ host.toList, isWhitespace c = false
  hash : host.toList.head? ≠ some '#'

/-- The digits of a number; zeros may come first. -/
structure Numeral (cs : List Char) (n : Nat) : Prop where
  ne : cs ≠ []
  digits : ∀ c ∈ cs, c.isDigit = true
  value : Nat.ofDigitChars 10 cs 0 = n

/-- A line, without its end, and the node it writes, if any. -/
inductive WritesLine : Option HostEntity → List Char → Prop
  | blank {line : List Char} (h : ∀ c ∈ line, isWhitespace c = true) : WritesLine none line
  | comment {before text : List Char} (h : ∀ c ∈ before, isWhitespace c = true) :
    WritesLine none (before ++ '#' :: text)
  | node {n : HostEntity} {before between port rest : List Char} (hhost : PlainHost n.host)
    (hport : Numeral port n.port.toNat) (hbefore : ∀ c ∈ before, isWhitespace c = true)
    (hbetween : ∀ c ∈ between, isWhitespace c = true) (hne : between ≠ []) (hrest : StartsBlank rest) :
    WritesLine (some n) (before ++ (n.host.toList ++ (between ++ (port ++ rest))))

/-- A text writes these nodes in this order; its last line may lack its end. -/
inductive Writes : List HostEntity → List Char → Prop
  | nil : Writes [] []
  | last {node : Option HostEntity} {line : List Char} (h : WritesLine node line) (hnl : '\n' ∉ line) :
    Writes node.toList line
  | line {node : Option HostEntity} {line text : List Char} {nodes : List HostEntity} (h : WritesLine node line)
    (hnl : '\n' ∉ line) (htext : Writes nodes text) : Writes (node.toList ++ nodes) (line ++ '\n' :: text)

namespace NeighborConfig

variable (path : String) (lineNum : Nat)

/-- Only the trimmed line matters. -/
theorem loadLine_congr {a b : List Char} (h : trimChars a = trimChars b) :
    loadLine path lineNum (String.ofList a) = loadLine path lineNum (String.ofList b) := by
  have htrim : trim (String.ofList a) = trim (String.ofList b) := by
    unfold trim
    rw [String.toList_ofList, String.toList_ofList, h]
  unfold loadLine
  rw [htrim]

/-- The words of a line that writes a node. -/
theorem tokens_node {host before between port rest : List Char} {n : Nat} (hne : host ≠ [])
    (hplain : ∀ c ∈ host, isWhitespace c = false) (hport : Numeral port n)
    (hbefore : ∀ c ∈ before, isWhitespace c = true) (hbetween : ∀ c ∈ between, isWhitespace c = true)
    (hsep : between ≠ []) (hrest : StartsBlank rest) :
    tokens (before ++ (host ++ (between ++ (port ++ rest)))) = host :: port :: tokens rest := by
  have hstart : StartsBlank (between ++ (port ++ rest)) := by
    intro c hc
    rw [List.head?_append_of_ne_nil _ hsep] at hc
    exact hbetween c (List.mem_of_mem_head? hc)
  have hdigits : ∀ c ∈ port, isWhitespace c = false := fun c hc => Decimal.digit_not_whitespace (hport.digits c hc)
  rw [tokens_blank_append _ hbefore, tokens_word_append hne hplain hstart, tokens_blank_append _ hbetween,
    tokens_word_append hport.ne hdigits hrest]

/-- A line is loaded as the node it writes. -/
theorem loadLine_of_writes {node : Option HostEntity} {line : List Char} (h : WritesLine node line) :
    loadLine path lineNum (String.ofList line) = .ok node := by
  have htrim : trim (String.ofList line) = String.ofList (trimChars line) := by
    rw [trim, String.toList_ofList]
  unfold loadLine
  simp only [htrim]
  cases h with
  | blank h => rw [trimChars_blank h, if_pos (.inl rfl)]
  | comment h =>
    refine if_pos (.inr ?_)
    rw [String.toList_ofList, head?_trimChars h (by decide)]
  | @node n before between port rest hhost hport hbefore hbetween hne hrest =>
    have hhost' : n.host.toList ≠ [] := toList_ne_nil hhost.ne
    obtain ⟨c, cs, hc⟩ := List.exists_cons_of_ne_nil hhost'
    have hblank : isWhitespace c = false := hhost.plain c (hc ▸ List.mem_cons_self)
    have hfirst : (trimChars (before ++ (n.host.toList ++ (between ++ (port ++ rest))))).head? = some c := by
      rw [hc, List.cons_append]
      exact head?_trimChars hbefore hblank
    have hwords : splitWhitespace
        (String.ofList (trimChars (before ++ (n.host.toList ++ (between ++ (port ++ rest)))))) =
          n.host :: String.ofList port :: (tokens rest).map String.ofList := by
      rw [splitWhitespace, String.toList_ofList, tokens_trimChars,
        tokens_node hhost' hhost.plain hport hbefore hbetween hne hrest, List.map_cons, List.map_cons,
        String.ofList_toList]
    have hparse : Decimal.parseUnsigned (2 ^ 16) (String.ofList port) = .ok n.port.toNat := by
      have hlt := n.port.toNat_lt
      rw [Decimal.parseUnsigned_digits hport.ne hport.digits (by rw [hport.value]; exact hlt), hport.value]
    rw [if_neg, hwords]
    · simp only [hparse, UInt16.ofNat_toNat]
    · rw [String.toList_ofList, hfirst]
      rintro (hempty | hhash)
      · have hnil := congrArg String.toList hempty
        rw [String.toList_ofList] at hnil
        rw [hnil] at hfirst
        cases hfirst
      · exact hhost.hash (by rw [hc, List.head?_cons, Option.some.inj hhash])

theorem loadLines_cons {node : Option HostEntity} {line : String} (hline : loadLine path lineNum line = .ok node)
    {lines : List String} {nodes : List HostEntity} (hlines : loadLines path (lineNum + 1) lines = .ok nodes) :
    loadLines path lineNum (line :: lines) = .ok (node.toList ++ nodes) := by
  rw [loadLines, hline]
  simp only [hlines, bind, Except.bind]
  rfl

/-- A text is loaded as the nodes it writes. -/
theorem loadLines_of_writes {nodes : List HostEntity} {text : List Char} (h : Writes nodes text) :
    loadLines path lineNum ((charLines text).map String.ofList) = .ok nodes := by
  induction h generalizing lineNum with
  | nil =>
    rw [charLines_nil]
    rfl
  | @last node line h hnl =>
    by_cases hne : line = []
    · have hnode := loadLine_of_writes path lineNum h
      subst hne
      cases hnode
      rfl
    · have hrest : loadLines path (lineNum + 1) [] = .ok [] := rfl
      have hline := loadLines_cons path lineNum (loadLine_of_writes path lineNum h) hrest
      rwa [List.append_nil, ← List.map_singleton, ← charLines_unterminated hnl hne] at hline
  | @line node line text nodes h hnl htext ih =>
    have hline := loadLine_of_writes path lineNum h
    rw [loadLine_congr path lineNum (trimChars_stripCarriage line).symm] at hline
    rw [charLines_cons hnl, List.map_cons]
    exact loadLines_cons path lineNum hline (ih (lineNum + 1))

end NeighborConfig

/-! ## Lines at fault -/

/-- Neither blank nor a comment, and without a second word that is a `u16`. -/
structure BadLine (line : String) : Prop where
  blank : trim line ≠ ""
  comment : (trim line).toList.head? ≠ some '#'
  port : ∀ p, (splitWhitespace line)[1]? = some p → ∀ n, Decimal.parseUnsigned (2 ^ 16) p ≠ .ok n

namespace NeighborConfig

variable (path : String) (lineNum : Nat)

theorem splitWhitespace_ne_nil {line : String} (h : trim line ≠ "") : splitWhitespace line ≠ [] := by
  obtain ⟨c, cs, hc⟩ := List.exists_cons_of_ne_nil (toList_ne_nil h)
  unfold trim at hc
  rw [String.toList_ofList] at hc
  have hclean : isWhitespace c = false := trimChars_cleanStart line.toList c (by rw [hc]; rfl)
  unfold splitWhitespace
  rw [ne_eq, List.map_eq_nil_iff, ← tokens_trimChars, hc]
  exact tokens_cons_ne_nil hclean cs

/-- A line fails exactly if it is at fault. -/
theorem loadLine_error_iff (line : String) : (∃ e, loadLine path lineNum line = .error e) ↔ BadLine line := by
  unfold loadLine
  simp only [splitWhitespace_trim]
  by_cases hskip : trim line = "" ∨ (trim line).toList.head? = some '#'
  · rw [if_pos hskip]
    refine iff_of_false (by simp) fun hbad => ?_
    exact hskip.elim hbad.blank hbad.comment
  rw [if_neg hskip]
  rw [not_or] at hskip
  obtain ⟨hblank, hcomment⟩ := hskip
  rcases hwords : splitWhitespace line with _ | ⟨host, _ | ⟨p, more⟩⟩
  · exact absurd hwords (splitWhitespace_ne_nil hblank)
  · exact iff_of_true ⟨_, rfl⟩ ⟨hblank, hcomment, fun p hp => by rw [hwords] at hp; cases hp⟩
  · have hsecond : (splitWhitespace line)[1]? = some p := by
      rw [hwords]
      rfl
    simp only
    cases hparse : Decimal.parseUnsigned (2 ^ 16) p with
    | ok port => exact iff_of_false (by simp) fun hbad => hbad.port p hsecond port hparse
    | error e =>
      refine iff_of_true ⟨_, rfl⟩ ⟨hblank, hcomment, fun q hq n => ?_⟩
      rw [Option.some.inj (hq.symm.trans hsecond), hparse]
      simp

/-- The loop fails exactly if some line is at fault. -/
theorem loadLines_error_iff :
    ∀ (lines : List String) (lineNum : Nat),
      (∃ e, loadLines path lineNum lines = .error e) ↔ ∃ line ∈ lines, BadLine line
  | [], _ => by simp [loadLines]
  | line :: lines, lineNum => by
    rw [List.exists_mem_cons_iff, ← loadLine_error_iff path lineNum, ← loadLines_error_iff lines (lineNum + 1),
      loadLines]
    cases hline : loadLine path lineNum line with
    | error e => exact iff_of_true ⟨e, rfl⟩ (.inl ⟨e, rfl⟩)
    | ok node =>
      cases hlines : loadLines path (lineNum + 1) lines with
      | error e => exact iff_of_true ⟨e, rfl⟩ (.inr ⟨e, rfl⟩)
      | ok nodes =>
        refine iff_of_false ?_ (by simp)
        rintro ⟨e, he⟩
        cases he

/-- A text that writes a list of nodes is loaded as exactly this list, in its order; and a text is
loaded as no list exactly if some line of it, neither blank nor a comment, has no second word that is a
`u16`. -/
theorem load_faithful :
    (∀ (nodes : List HostEntity) (text : String), Writes nodes text.toList →
      load path (.content (utf8Bytes text)) = .ok { neighbors := nodes }) ∧
      ∀ text : String,
        (∃ e, load path (.content (utf8Bytes text)) = .error e) ↔ ∃ line ∈ textLines text, BadLine line := by
  refine ⟨fun nodes text h => ?_, fun text => ?_⟩
  · rw [load_text, textLines, loadLines_of_writes path 0 h]
    rfl
  · rw [load_text, ← loadLines_error_iff path (textLines text) 0]
    cases loadLines path 0 (textLines text) <;> simp [Except.map]

end NeighborConfig

example : NeighborConfig.load "neighbor.conf" (.content (utf8Bytes "# nodes\n a\t5 x\r\n\nb 07")) =
    .ok { neighbors := [⟨"a", 5⟩, ⟨"b", 7⟩] } := by decide

example : NeighborConfig.load "neighbor.conf" (.content (utf8Bytes "a 5\nb\n")) =
    .error (.invalidConfigValue "PORT" "missing port in neighbor.conf line 2") := by decide

/-! ## Every list can be written -/

theorem numeral_repr (n : Nat) : Numeral n.repr.toList n where
  ne := by
    rw [Nat.toList_repr]
    exact Nat.toDigits_ne_nil
  digits := Decimal.digits_repr n
  value := by rw [Nat.toList_repr, Nat.ofDigitChars_ten_toDigits]

/-- The host, a space and the port. -/
def plainLine (n : HostEntity) : List Char := n.host.toList ++ ' ' :: n.port.toNat.repr.toList

theorem newline_not_mem_plainLine {n : HostEntity} (h : PlainHost n.host) : '\n' ∉ plainLine n := by
  unfold plainLine
  rw [List.mem_append, List.mem_cons]
  rintro (hm | hm | hm)
  · exact absurd (h.plain _ hm) (by decide)
  · exact absurd hm (by decide)
  · exact absurd (Decimal.digits_repr _ _ hm) (by decide)

theorem writes_plain :
    ∀ {nodes : List HostEntity}, (∀ n ∈ nodes, PlainHost n.host) →
      Writes nodes (nodes.flatMap fun n => plainLine n ++ ['\n'])
  | [], _ => .nil
  | n :: nodes, h => by
    have hhost := h n List.mem_cons_self
    have hrest := writes_plain fun m hm => h m (List.mem_cons_of_mem n hm)
    have hline : WritesLine (some n) (plainLine n) := by
      have hnode : WritesLine (some n) ([] ++ (n.host.toList ++ ([' '] ++ (n.port.toNat.repr.toList ++ [])))) :=
        .node hhost (numeral_repr n.port.toNat) (by simp) (List.forall_mem_singleton.2 rfl) (by simp) (by simp [StartsBlank])
      simpa [plainLine] using hnode
    rw [List.flatMap_cons, List.append_assoc]
    exact .line hline (newline_not_mem_plainLine hhost) hrest

end Zht
