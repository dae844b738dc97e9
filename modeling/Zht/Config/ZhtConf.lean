/-
`zht.conf`: `ConfEntry::from_line`, `ZhtConfig::load` and the getters. The value of an entry is all that
follows the name on its line, not the next word; so a text with further words behind a value gives
another value (`fromLine_words`), which no numeric getter can parse. The getters stay as they are exactly
if the default is what they gave already, or the line is none they read (`further_words_iff`).
-/
import Zht.Config.NeighborFile
import Zht.Lib.LastWrite

namespace Zht

open Lib Lib.Utf8 Lib.Text

def CONF_PROTOCOL : String := "PROTOCOL"
def CONF_PORT : String := "PORT"
def CONF_MSG_MAXSIZE : String := "MSG_MAXSIZE"
def CONF_SCCB_POLL_INTERVAL : String := "SCCB_POLL_INTERVAL"
def CONF_INSTANT_SWAP : String := "INSTANT_SWAP"
def CONF_MAX_ZHT : String := "MAX_ZHT"
def CONF_NUM_REPLICAS : String := "NUM_REPLICAS"
def CONF_REPLICATION_TYPE : String := "REPLICATION_TYPE"
def CONF_ZHT_CAPACITY : String := "ZHT_CAPACITY"
def CONF_HTDATA_PATH : String := "HTDATA_PATH"
def CONF_MIGSLP_TIME : String := "MIGSLP_TIME"

def MSG_DEFAULT_SIZE : Nat := 1024

/-! ## Entries -/

structure ConfEntry where
  name : String
  value : String
  deriving DecidableEq, Repr

/-- `splitn(2, char::is_whitespace)`: up to the first white space, and all that follows it. -/
def splitn2 (s : String) : List String :=
  match s.toList.dropWhile (fun c => !isWhitespace c) with
  | [] => [s]
  | _ :: rest => [String.ofList (s.toList.takeWhile fun c => !isWhitespace c), String.ofList rest]

namespace ConfEntry

def fromLine (line : String) : Option ConfEntry :=
  let trimmed := trim line
  if trimmed = "" ∨ trimmed.toList.head? = some '#' then none
  else
    let parts := splitn2 trimmed
    match parts.head? with
    | none => none
    | some name =>
      let name := trim name
      let value := trim (parts[1]?.getD "")
      if name = "" then none else some { name, value }

end ConfEntry

/-! ## The configuration -/

structure ZhtConfig where
  parameters : HashMap String String
  deriving DecidableEq

namespace ZhtConfig

/-- The loop over the lines; a later entry of a name replaces an earlier one. -/
def loadLines (parameters : HashMap String String) : List String → HashMap String String
  | [] => parameters
  | line :: lines =>
    match ConfEntry.fromLine line with
    | some entry => loadLines (parameters.insert entry.name entry.value) lines
    | none => loadLines parameters lines

def loadText (text : String) : ZhtConfig := { parameters := loadLines ∅ (textLines text) }

def load (path : String) : ConfigFile → ZhtResult ZhtConfig
  | .missing => .error (.configNotFound path)
  | .unreadable e => .error (.configParseError path e)
  | .content bytes =>
    match fromUtf8 bytes with
    | none => .error (.configParseError path "stream did not contain valid UTF-8")
    | some text => .ok (loadText text)

theorem load_text (path text : String) : load path (.content (utf8Bytes text)) = .ok (loadText text) := by
  simp only [load, fromUtf8_utf8Bytes]

/-! ### Getters -/

section Getters

variable (config : ZhtConfig)

def get (key : String) : Option String := config.parameters.lookup key

def getOr (key default : String) : String := (config.get key).getD default

/-- `get_parsed` at an unsigned type of `bound` numbers. -/
def getParsed (bound : Nat) (key : String) (default : Nat) : Nat :=
  ((config.get key).bind fun v => (Decimal.parseUnsigned bound v).toOption).getD default

/-- `get_parsed` at `i32`. -/
def getParsedI32 (key : String) (default : Int) : Int :=
  ((config.get key).bind (Decimal.parseSigned (2 ^ 31))).getD default

def protocol : String := config.getOr CONF_PROTOCOL "TCP"

def port : Nat := config.getParsed (2 ^ 16) CONF_PORT 50000

def msgMaxsize : Nat := config.getParsed (2 ^ 64) CONF_MSG_MAXSIZE MSG_DEFAULT_SIZE

def sccbPollInterval : Nat := config.getParsed (2 ^ 64) CONF_SCCB_POLL_INTERVAL SCCB_POLL_DEFAULT_INTERVAL

def instantSwap : Bool := config.getParsedI32 CONF_INSTANT_SWAP 0 = 1

def maxZht : Nat := config.getParsed (2 ^ 32) CONF_MAX_ZHT 512

def numReplicas : Nat := config.getParsed (2 ^ 32) CONF_NUM_REPLICAS 0

def replicationType : Nat := config.getParsed (2 ^ 32) CONF_REPLICATION_TYPE 0

def zhtCapacity : Nat := config.getParsed (2 ^ 32) CONF_ZHT_CAPACITY 4

def htdataPath : String := config.getOr CONF_HTDATA_PATH "data/"

def migslpTime : Nat := config.getParsed (2 ^ 64) CONF_MIGSLP_TIME 1000000

end Getters

/-- Every getter gives the same of both. -/
structure SameGetters (a b : ZhtConfig) : Prop where
  protocol : a.protocol = b.protocol
  port : a.port = b.port
  msgMaxsize : a.msgMaxsize = b.msgMaxsize
  sccbPollInterval : a.sccbPollInterval = b.sccbPollInterval
  instantSwap : a.instantSwap = b.instantSwap
  maxZht : a.maxZht = b.maxZht
  numReplicas : a.numReplicas = b.numReplicas
  replicationType : a.replicationType = b.replicationType
  zhtCapacity : a.zhtCapacity = b.zhtCapacity
  htdataPath : a.htdataPath = b.htdataPath
  migslpTime : a.migslpTime = b.migslpTime

end ZhtConfig

/-! ## The words of a line -/

theorem splitWhitespace_word {word : String} (h : ∀ c ∈ word.toList, isWhitespace c = false) (hne : word ≠ "") :
    splitWhitespace word = [word] := by
  rw [splitWhitespace, tokens_word (toList_ne_nil hne) h, List.map_singleton, String.ofList_toList]

/-- A text of more than one word has white space in it. -/
theorem exists_blank_of_words {s first second : String} {more : List String}
    (h : splitWhitespace s = first :: second :: more) : ∃ c ∈ s.toList, isWhitespace c = true := by
  by_contra hplain
  have hword : ∀ c ∈ s.toList, isWhitespace c = false := fun c hc => by
    simpa using fun hblank => hplain ⟨c, hc, hblank⟩
  by_cases hne : s = ""
  · rw [hne] at h
    cases h
  · rw [splitWhitespace_word hword hne] at h
    cases h

theorem eq_of_splitWhitespace {s word : String} (hclean : trim s = s) (h : splitWhitespace s = [word]) :
    s = word := by
  obtain ⟨w, hw, rfl⟩ := List.map_eq_singleton_iff.1 h
  rw [← hclean, trim, trimChars_of_tokens hw]

/-- The first word of a text that begins with it, and the other words. -/
theorem first_word {s name : String} {words : List String} (hclean : CleanStart s.toList)
    (h : splitWhitespace s = name :: words) :
    name.toList = s.toList.takeWhile (fun c => !isWhitespace c) ∧ name.toList.head? = s.toList.head? ∧ name ≠ "" ∧
      words = (tokens (s.toList.dropWhile fun c => !isWhitespace c)).map String.ofList := by
  cases hs : s.toList with
  | nil =>
    rw [splitWhitespace, hs, tokens_nil] at h
    cases h
  | cons c cs =>
    rw [hs] at hclean
    have hc : isWhitespace c = false := hclean c rfl
    rw [splitWhitespace, hs, tokens_clean (List.cons_ne_nil c cs) hclean, List.map_cons, List.cons.injEq] at h
    obtain ⟨rfl, rfl⟩ := h
    rw [String.toList_ofList, List.takeWhile_cons_of_pos (by simp [hc])]
    exact ⟨rfl, rfl, fun hempty => by simpa using congrArg String.toList hempty, rfl⟩

/-- The two parts of a text that begins with a word. -/
theorem splitn2_words {s name : String} {words : List String} (hclean : CleanStart s.toList)
    (h : splitWhitespace s = name :: words) :
    (splitn2 s).head? = some name ∧ splitWhitespace ((splitn2 s)[1]?.getD "") = words := by
  obtain ⟨hname, -, -, rfl⟩ := first_word hclean h
  have hsplit := List.takeWhile_append_dropWhile (p := fun c => !isWhitespace c) (l := s.toList)
  unfold splitn2
  cases hd : s.toList.dropWhile fun c => !isWhitespace c with
  | nil =>
    rw [hd, List.append_nil, ← hname] at hsplit
    rw [String.toList_inj.1 hsplit]
    exact ⟨rfl, rfl⟩
  | cons c rest =>
    have hblank : isWhitespace c = true := by
      have hhead := List.head?_dropWhile_not (fun c => !isWhitespace c) s.toList
      rw [hd] at hhead
      simpa using hhead
    have hrest := tokens_append_cons [] rest hblank
    rw [List.nil_append, tokens_nil, List.nil_append] at hrest
    rw [hrest, ← hname, String.ofList_toList]
    refine ⟨rfl, ?_⟩
    show splitWhitespace (String.ofList rest) = _
    rw [splitWhitespace, String.toList_ofList]

namespace ConfEntry

/-- A line that does not start as a comment gives its first word, and as the value all that follows it. -/
theorem fromLine_words {line name : String} {words : List String} (h : splitWhitespace line = name :: words) :
    (name.toList.head? = some '#' ∧ fromLine line = none) ∨
      (name.toList.head? ≠ some '#' ∧ ∃ value, fromLine line = some { name, value } ∧
        splitWhitespace value = words ∧ trim value = value) := by
  have hclean := trim_cleanStart line
  have hwords : splitWhitespace (trim line) = name :: words := (splitWhitespace_trim line).trans h
  obtain ⟨hword, hhead, hne, -⟩ := first_word hclean hwords
  obtain ⟨hname, hrest⟩ := splitn2_words hclean hwords
  have hplain : trim name = name := by
    have hall : ∀ c ∈ name.toList, isWhitespace c = false := by
      rintro c hc
      rw [hword] at hc
      simpa using List.mem_takeWhile_imp hc
    rw [trim, trimChars_word hall, String.ofList_toList]
  have hline : trim line ≠ "" := by
    intro hempty
    rw [hempty] at hwords
    cases hwords
  unfold fromLine
  simp only [hname, hplain]
  by_cases hhash : name.toList.head? = some '#'
  · exact .inl ⟨hhash, if_pos (.inr (hhead ▸ hhash))⟩
  · refine .inr ⟨hhash, trim ((splitn2 (trim line))[1]?.getD ""), ?_, ?_, trim_trim _⟩
    · rw [if_neg (not_or.2 ⟨hline, hhead ▸ hhash⟩), if_neg hne]
    · rw [splitWhitespace_trim, hrest]

end ConfEntry

/-! ## Further words behind a value -/

namespace ZhtConfig

/-- Some line gives the parameter. -/
def SetBy (lines : List String) (name : String) : Prop :=
  ∃ line ∈ lines, ∃ value, ConfEntry.fromLine line = some { name, value }

/-- What the entries of lines write. -/
def assignments (lines : List String) : List (LastWrite.Write String String) :=
  lines.filterMap fun line => (ConfEntry.fromLine line).map fun entry => (entry.name, some entry.value)

theorem loadLines_eq_writes (lines : List String) (m : HashMap String String) :
    loadLines m lines = LastWrite.writeAll (assignments lines) m := by
  induction lines generalizing m with
  | nil => rfl
  | cons line lines ih =>
    rw [loadLines, assignments, List.filterMap_cons]
    cases ConfEntry.fromLine line <;> exact ih _

theorem setBy_iff {lines : List String} {name : String} :
    SetBy lines name ↔ LastWrite.last name (assignments lines) ≠ none := by
  rw [ne_eq, LastWrite.last_eq_none_iff]
  simp only [assignments, List.mem_filterMap, Option.map_eq_some_iff, not_forall, not_not]
  constructor
  · rintro ⟨line, hl, value, hv⟩
    exact ⟨(name, some value), ⟨line, hl, _, hv, rfl⟩, rfl⟩
  · rintro ⟨_, ⟨line, hl, entry, hv, rfl⟩, rfl⟩
    exact ⟨line, hl, entry.value, hv⟩

/-- What a parameter is behind a line that gives one. -/
theorem lookup_loadLines {before after : List String} {line name value : String}
    (hline : ConfEntry.fromLine line = some { name, value }) (key : String) :
    (loadLines ∅ (before ++ line :: after)).lookup key =
      (LastWrite.last key (assignments after)).getD
        (if name = key then some value else (loadLines ∅ before).lookup key) := by
  have hassign : assignments (before ++ line :: after) =
      assignments before ++ [(name, some value)] ++ assignments after := by
    simp only [assignments, List.filterMap_append, List.filterMap_cons, hline, Option.map_some, List.append_assoc,
      List.singleton_append]
  rw [loadLines_eq_writes, hassign, LastWrite.writeAll_append, LastWrite.writeAll_append, LastWrite.lookup_writeAll,
    loadLines_eq_writes]
  exact congrArg _ (LastWrite.lookup_write _ (name, some value) key)

/-- A line that gives nothing. -/
theorem loadLines_of_none {line : String} (h : ConfEntry.fromLine line = none) (before after : List String) :
    loadLines ∅ (before ++ line :: after) = loadLines ∅ (before ++ after) := by
  rw [loadLines_eq_writes, loadLines_eq_writes]
  simp only [assignments, List.filterMap_append, List.filterMap_cons, h, Option.map_none]

/-- A parameter read as an unsigned number. -/
structure NumericParam where
  name : String
  bound : Nat
  default : Nat

def NUMERIC : List NumericParam :=
  [⟨CONF_PORT, 2 ^ 16, 50000⟩, ⟨CONF_MSG_MAXSIZE, 2 ^ 64, MSG_DEFAULT_SIZE⟩,
    ⟨CONF_SCCB_POLL_INTERVAL, 2 ^ 64, SCCB_POLL_DEFAULT_INTERVAL⟩, ⟨CONF_MAX_ZHT, 2 ^ 32, 512⟩,
    ⟨CONF_NUM_REPLICAS, 2 ^ 32, 0⟩, ⟨CONF_REPLICATION_TYPE, 2 ^ 32, 0⟩, ⟨CONF_ZHT_CAPACITY, 2 ^ 32, 4⟩,
    ⟨CONF_MIGSLP_TIME, 2 ^ 64, 1000000⟩]

/-- The parameters read as texts, with their defaults. -/
def TEXT : List (String × String) := [(CONF_PROTOCOL, "TCP"), (CONF_HTDATA_PATH, "data/")]

theorem sameGetters_iff {a b : ZhtConfig} :
    a.SameGetters b ↔ (∀ p ∈ TEXT, a.getOr p.1 p.2 = b.getOr p.1 p.2) ∧
      (∀ p ∈ NUMERIC, a.getParsed p.bound p.name p.default = b.getParsed p.bound p.name p.default) ∧
      a.instantSwap = b.instantSwap := by
  simp only [TEXT, NUMERIC, List.forall_mem_cons, List.not_mem_nil, false_implies, implies_true, and_true]
  constructor
  · rintro ⟨h1, h2, h3, h4, h5, h6, h7, h8, h9, h10, h11⟩
    exact ⟨⟨h1, h10⟩, ⟨h2, h3, h4, h6, h7, h8, h9, h11⟩, h5⟩
  · rintro ⟨⟨h1, h10⟩, ⟨h2, h3, h4, h6, h7, h8, h9, h11⟩, h5⟩
    exact ⟨h1, h2, h3, h4, h5, h6, h7, h8, h9, h10, h11⟩

/-- A value that the getters give no more than its parameter's default: of none of the texts, and as a
number not there, not one, or the default. -/
structure Immune (name value : String) (more : List String) : Prop where
  text : ∀ p ∈ TEXT, p.1 ≠ name
  numeric : ∀ p ∈ NUMERIC, p.name = name →
    more ≠ [] ∨ ∀ n, Decimal.parseUnsigned p.bound value = .ok n → n = p.default
  swap : CONF_INSTANT_SWAP = name → more ≠ [] ∨ Decimal.parseSigned (2 ^ 31) value ≠ some 1

section Differ

variable {a b : ZhtConfig} {name value v v' : String} {more extra : List String}

/-- Two configurations that differ in one parameter at most. -/
structure DifferAt (a b : ZhtConfig) (name v v' : String) : Prop where
  left : a.get name = some v
  right : b.get name = some v'
  other : ∀ key, key ≠ name → a.get key = b.get key

theorem getOr_eq_iff (h : DifferAt a b name v v') (hv : v ≠ v') (key default : String) :
    a.getOr key default = b.getOr key default ↔ key ≠ name := by
  unfold getOr
  by_cases hkey : key = name
  · rw [hkey, h.left, h.right]
    simp [hv]
  · rw [h.other key hkey]
    simp [hkey]

/-- A number that is read from the one only. -/
theorem getParsed_eq_iff (h : DifferAt a b name v v') (hv' : ∀ bound n, Decimal.parseUnsigned bound v' ≠ .ok n)
    (p : NumericParam) :
    a.getParsed p.bound p.name p.default = b.getParsed p.bound p.name p.default ↔
      (p.name = name → ∀ n, Decimal.parseUnsigned p.bound v = .ok n → n = p.default) := by
  unfold getParsed
  by_cases hkey : p.name = name
  · have hnone : (Decimal.parseUnsigned p.bound v').toOption = none := Decimal.toOption_eq_none (hv' p.bound)
    rw [hkey, h.left, h.right, Option.bind_some, Option.bind_some, hnone]
    cases Decimal.parseUnsigned p.bound v with
    | error e => simp [Except.toOption]
    | ok n => simp [Except.toOption]
  · rw [h.other p.name hkey]
    simp [hkey]

theorem instantSwap_eq_iff (h : DifferAt a b name v v') (hv' : Decimal.parseSigned (2 ^ 31) v' = none) :
    a.instantSwap = b.instantSwap ↔ (CONF_INSTANT_SWAP = name → Decimal.parseSigned (2 ^ 31) v ≠ some 1) := by
  unfold instantSwap getParsedI32
  by_cases hkey : CONF_INSTANT_SWAP = name
  · rw [hkey, h.left, h.right, Option.bind_some, Option.bind_some, hv']
    cases Decimal.parseSigned (2 ^ 31) v <;> simp
  · rw [h.other CONF_INSTANT_SWAP hkey]
    simp [hkey]

end Differ

section Words

variable {v value : String} {more : List String} (hwords : splitWhitespace v = value :: more) (htrim : trim v = v)

include hwords htrim

/-- What holds of every text with white space in it holds of all that follows a name exactly if that is
several words, or it holds of its one word. -/
theorem words_iff {P : String → Prop} (hP : ∀ s : String, (∃ c ∈ s.toList, isWhitespace c = true) → P s) :
    P v ↔ more ≠ [] ∨ P value := by
  cases more with
  | nil =>
    rw [eq_of_splitWhitespace htrim hwords]
    simp
  | cons second rest =>
    exact iff_of_true (hP v (exists_blank_of_words hwords)) (.inl (List.cons_ne_nil second rest))

theorem parseUnsigned_words (bound : Nat) {P : Nat → Prop} :
    (∀ n, Decimal.parseUnsigned bound v = .ok n → P n) ↔
      more ≠ [] ∨ ∀ n, Decimal.parseUnsigned bound value = .ok n → P n :=
  words_iff hwords htrim (P := fun s => ∀ n, Decimal.parseUnsigned bound s = .ok n → P n)
    fun _ ⟨_, hc, hblank⟩ _ hn => absurd hn (Decimal.parseUnsigned_blank hc hblank)

theorem parseSigned_words (bound : Nat) (k : Int) :
    Decimal.parseSigned bound v ≠ some k ↔ more ≠ [] ∨ Decimal.parseSigned bound value ≠ some k := by
  refine words_iff hwords htrim (P := fun s => Decimal.parseSigned bound s ≠ some k) ?_
  rintro s ⟨c, hc, hblank⟩ hk
  rw [Decimal.parseSigned_blank hc hblank] at hk
  cases hk

/-- Two configurations that differ in one parameter, which is no number in the second: the getters are the
same exactly if they are immune to the first. -/
theorem DifferAt.sameGetters_iff {a b : ZhtConfig} {name v' : String} (h : DifferAt a b name v v') (hv : v ≠ v')
    (hv' : ∃ c ∈ v'.toList, isWhitespace c = true) : a.SameGetters b ↔ Immune name value more := by
  obtain ⟨c, hc, hblank⟩ := hv'
  have hnumber : ∀ bound n, Decimal.parseUnsigned bound v' ≠ .ok n := fun _ _ => Decimal.parseUnsigned_blank hc hblank
  rw [ZhtConfig.sameGetters_iff, instantSwap_eq_iff h (Decimal.parseSigned_blank hc hblank)]
  simp only [getOr_eq_iff h hv, getParsed_eq_iff h hnumber, parseUnsigned_words hwords htrim,
    parseSigned_words hwords htrim]
  constructor
  · rintro ⟨htext, hnumeric, hswap⟩
    exact ⟨htext, hnumeric, hswap⟩
  · rintro ⟨htext, hnumeric, hswap⟩
    exact ⟨htext, hnumeric, hswap⟩

end Words

/-- The configurations of two texts that differ in one line, which gives the same parameter. -/
theorem differAt_loadLines {before after : List String} {line line' name v v' : String}
    (hline : ConfEntry.fromLine line = some { name, value := v })
    (hline' : ConfEntry.fromLine line' = some { name, value := v' }) (hafter : ¬SetBy after name) :
    DifferAt { parameters := loadLines ∅ (before ++ line :: after) }
      { parameters := loadLines ∅ (before ++ line' :: after) } name v v' := by
  have hlast : LastWrite.last name (assignments after) = none := not_not.1 (mt setBy_iff.2 hafter)
  have hget {l value} (hl : ConfEntry.fromLine l = some { name, value }) :
      (loadLines ∅ (before ++ l :: after)).lookup name = some value := by
    rw [lookup_loadLines hl, hlast, if_pos rfl, Option.getD_none]
  refine ⟨hget hline, hget hline', fun key hkey => ?_⟩
  show (loadLines ∅ _).lookup key = (loadLines ∅ _).lookup key
  rw [lookup_loadLines hline, lookup_loadLines hline', if_neg (Ne.symm hkey), if_neg (Ne.symm hkey)]

/-- A later line that gives the parameter makes up for any difference. -/
theorem loadLines_eq_of_setBy {before after : List String} {line line' name v v' : String}
    (hline : ConfEntry.fromLine line = some { name, value := v })
    (hline' : ConfEntry.fromLine line' = some { name, value := v' }) (hafter : SetBy after name) :
    loadLines ∅ (before ++ line :: after) = loadLines ∅ (before ++ line' :: after) := by
  obtain ⟨last, hlast⟩ := Option.ne_none_iff_exists'.1 (setBy_iff.1 hafter)
  apply Finmap.ext_lookup
  intro key
  rw [lookup_loadLines hline, lookup_loadLines hline']
  by_cases hkey : name = key
  · rw [← hkey, hlast, Option.getD_some, Option.getD_some]
  · rw [if_neg hkey, if_neg hkey]

/-- The same configuration, and so the same getters. -/
theorem SameGetters.of_eq {a b : ZhtConfig} (h : a = b) : a.SameGetters b := by
  subst h
  exact ⟨rfl, rfl, rfl, rfl, rfl, rfl, rfl, rfl, rfl, rfl, rfl⟩

/-- A text with further words in a line with a value. -/
theorem sameGetters_further_iff {before after : List String} {line line' name value : String}
    {more extra : List String} (hline : splitWhitespace line = name :: value :: more)
    (hline' : splitWhitespace line' = splitWhitespace line ++ extra) (hextra : extra ≠ []) :
    SameGetters { parameters := loadLines ∅ (before ++ line :: after) }
        { parameters := loadLines ∅ (before ++ line' :: after) } ↔
      name.toList.head? = some '#' ∨ SetBy after name ∨ Immune name value more := by
  rw [hline] at hline'
  have hhash := ConfEntry.fromLine_words hline
  rcases ConfEntry.fromLine_words hline' with ⟨hhead, hnone'⟩ | ⟨hhead, v', hentry', hwords', -⟩
  · have hnone : ConfEntry.fromLine line = none := hhash.elim And.right fun h => absurd hhead h.1
    exact iff_of_true (.of_eq (by rw [loadLines_of_none hnone, loadLines_of_none hnone'])) (.inl hhead)
  · obtain ⟨v, hentry, hwords, htrim⟩ := (hhash.resolve_left fun h => hhead h.1).2
    rw [or_iff_right hhead]
    by_cases hafter : SetBy after name
    · exact iff_of_true (.of_eq (by rw [loadLines_eq_of_setBy hentry hentry' hafter])) (.inl hafter)
    rw [or_iff_right hafter]
    have hv : v ≠ v' := by
      rintro rfl
      have hlength := congrArg List.length (hwords.symm.trans hwords')
      rw [List.append_eq, List.length_append] at hlength
      have hpos := List.length_pos_iff.2 hextra
      omega
    obtain ⟨second, rest, hrest⟩ := List.exists_cons_of_ne_nil (List.append_ne_nil_of_right_ne_nil more hextra)
    have hblank : ∃ c ∈ v'.toList, isWhitespace c = true :=
      exists_blank_of_words (hwords'.trans (congrArg (value :: ·) hrest))
    exact (differAt_loadLines hentry hentry' hafter).sameGetters_iff hwords htrim hv hblank

/-- Of a line with a name and a value, the entry is these two exactly if there are no further words. And
in a text, further words behind the value change none of the getters exactly if the line is a comment, or
a later line gives the parameter again, or the getters are immune to the value. -/
theorem further_words_iff {line name value : String} {more : List String}
    (hline : splitWhitespace line = name :: value :: more) :
    (name.toList.head? ≠ some '#' → (ConfEntry.fromLine line = some { name, value } ↔ more = [])) ∧
      ∀ (text text' line' : String) (before after extra : List String),
        textLines text = before ++ line :: after → textLines text' = before ++ line' :: after →
        splitWhitespace line' = splitWhitespace line ++ extra → extra ≠ [] →
        ((loadText text).SameGetters (loadText text') ↔
          name.toList.head? = some '#' ∨ SetBy after name ∨ Immune name value more) := by
  refine ⟨fun hhash => ?_, ?_⟩
  · obtain ⟨v, hentry, hwords, htrim⟩ := ((ConfEntry.fromLine_words hline).resolve_left fun hc => hhash hc.1).2
    rw [hentry, Option.some.injEq, ConfEntry.mk.injEq, and_iff_right rfl]
    constructor
    · rintro rfl
      by_contra hmore
      obtain ⟨second, rest, rfl⟩ := List.exists_cons_of_ne_nil hmore
      obtain ⟨c, hc, hblank⟩ := exists_blank_of_words hwords
      have hplain := (first_word (htrim ▸ trim_cleanStart v) hwords).1
      rw [hplain] at hc
      have hnot := List.mem_takeWhile_imp hc
      rw [hblank] at hnot
      cases hnot
    · rintro rfl
      exact eq_of_splitWhitespace htrim hwords
  · intro text text' line' before after extra htext htext' hline' hextra
    rw [loadText, loadText, htext, htext']
    exact sameGetters_further_iff hline hline' hextra

/-- A comment behind the port: the value is no port any more, and the default is taken instead. -/
theorem port_comment_changes :
    splitWhitespace "PORT 60000 # main port" = splitWhitespace "PORT 60000" ++ ["#", "main", "port"] ∧
      ConfEntry.fromLine "PORT 60000 # main port" = some { name := "PORT", value := "60000 # main port" } ∧
      (loadText "PORT 60000").port = 60000 ∧ (loadText "PORT 60000 # main port").port = 50000 := by
  decide

/-- The same behind the default port, which changes nothing. -/
theorem further_words_default :
    (ConfEntry.fromLine "PORT 50000" = some { name := "PORT", value := "50000" } ↔ ([] : List String) = []) ∧
      (loadText "PORT 50000\nMAX_ZHT 2").SameGetters (loadText "PORT 50000 # default\nMAX_ZHT 2") := by
  have hwords : splitWhitespace "PORT 50000" = ["PORT", "50000"] := by decide
  obtain ⟨hentry, hgetters⟩ := further_words_iff hwords
  refine ⟨hentry (by decide), ?_⟩
  refine (hgetters "PORT 50000\nMAX_ZHT 2" "PORT 50000 # default\nMAX_ZHT 2" "PORT 50000 # default" [] ["MAX_ZHT 2"]
    ["#", "default"] (by decide) (by decide) (by decide) (by decide)).2 (.inr (.inr ⟨by decide, ?_, by decide⟩))
  intro p hp hname
  simp only [NUMERIC, List.mem_cons, List.not_mem_nil, or_false] at hp
  rcases hp with rfl | hother
  · refine .inr fun n hn => ?_
    have hport : Decimal.parseUnsigned (2 ^ 16) "50000" = .ok 50000 := by decide
    exact (Except.ok.inj (hport.symm.trans hn)).symm
  · rcases hother with rfl | rfl | rfl | rfl | rfl | rfl | rfl <;> exact absurd hname (by decide)

end ZhtConfig

end Zht
