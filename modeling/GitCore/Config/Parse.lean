import Mathlib.Tactic

/-!
# Reading configuration files

The parser of `config.c`, on the bytes of a file. The entries it reports stand in a list, in the order
of the calls of the callback; line numbers and parser events are left out.
-/

namespace GitCore.Config

def INT_MAX : Nat := 2 ^ 31 - 1

def newline : UInt8 := 0x0a

def carriageReturn : UInt8 := 0x0d

def tab : UInt8 := 0x09

def space : UInt8 := 0x20

def backslash : UInt8 := 0x5c

def doubleQuote : UInt8 := 0x22

def semicolon : UInt8 := 0x3b

def hash : UInt8 := 0x23

def equals : UInt8 := 0x3d

def dot : UInt8 := 0x2e

def openBracket : UInt8 := 0x5b

def closeBracket : UInt8 := 0x5d

def isspace (c : UInt8) : Bool := c = space ∨ c = tab ∨ c = newline ∨ c = carriageReturn

def isalpha (c : UInt8) : Bool := (0x41 ≤ c ∧ c ≤ 0x5a) ∨ (0x61 ≤ c ∧ c ≤ 0x7a)

def isalnum (c : UInt8) : Bool := isalpha c ∨ (0x30 ≤ c ∧ c ≤ 0x39)

def tolower (c : UInt8) : UInt8 := if 0x41 ≤ c ∧ c ≤ 0x5a then c ||| 0x20 else c

def iskeychar (c : UInt8) : Bool := isalnum c ∨ c = 0x2d

def cString (bytes : List UInt8) : List UInt8 := bytes.takeWhile (· ≠ 0)

structure ConfigSource where
  rest : List UInt8
  totalLen : Nat
  eof : Bool
  deriving DecidableEq

/-- The next character, where the ending of a DOS line is one; nothing at the end of the file. -/
def foldCr : List UInt8 → Option (UInt8 × List UInt8)
  | [] => none
  | c :: rest =>
    if c = carriageReturn ∧ rest.head? = some newline then some (newline, rest.tail) else some (c, rest)

def getNextChar (cs : ConfigSource) : UInt8 × ConfigSource :=
  match foldCr cs.rest with
  | none => (newline, { cs with eof := true })
  | some (c, rest) =>
    if INT_MAX < cs.totalLen + 1 then (0, ⟨rest, cs.totalLen + 1, true⟩) else (c, ⟨rest, cs.totalLen + 1, cs.eof⟩)

lemma foldCr_lt {bytes rest : List UInt8} {c : UInt8} (h : foldCr bytes = some (c, rest)) :
    rest.length < bytes.length := by
  cases bytes with
  | nil => cases h
  | cons b bytes =>
    rw [foldCr] at h
    split at h <;> obtain ⟨rfl, rfl⟩ := Prod.mk.inj (Option.some.inj h)
    · rw [List.length_tail, List.length_cons]
      omega
    · exact Nat.lt_succ_self _

lemma getNextChar_cases (cs : ConfigSource) :
    (getNextChar cs).2.rest.length < cs.rest.length ∨
      ((getNextChar cs).1 = newline ∧ (getNextChar cs).2.eof = true ∧ (getNextChar cs).2.rest = cs.rest) := by
  unfold getNextChar
  cases h : foldCr cs.rest with
  | none => exact .inr ⟨rfl, rfl, rfl⟩
  | some r =>
    refine .inl ?_
    have := foldCr_lt h
    dsimp only
    split <;> exact this

lemma getNextChar_le (cs : ConfigSource) : (getNextChar cs).2.rest.length ≤ cs.rest.length := by
  rcases getNextChar_cases cs with h | ⟨-, -, h⟩
  · exact h.le
  · rw [h]

lemma getNextChar_lt {cs : ConfigSource} (h : (getNextChar cs).1 ≠ newline) :
    (getNextChar cs).2.rest.length < cs.rest.length :=
  (getNextChar_cases cs).resolve_right fun h' => h h'.1

lemma getNextChar_lt_of_eof {cs : ConfigSource} (h : (getNextChar cs).2.eof = false) :
    (getNextChar cs).2.rest.length < cs.rest.length := by
  refine (getNextChar_cases cs).resolve_right fun h' => ?_
  rw [h'.2.1] at h
  cases h

def unescape (c : UInt8) : Option UInt8 :=
  if c = 0x74 then some tab
  else if c = 0x62 then some 0x08
  else if c = 0x6e then some newline
  else if c = backslash ∨ c = doubleQuote then some c
  else none

def parseValue (quote comment : Bool) (trimLen : Nat) (value : List UInt8) (cs : ConfigSource) :
    Option (List UInt8) × ConfigSource :=
  if (getNextChar cs).1 = newline then
    (if quote then none else if trimLen ≠ 0 then some (value.take trimLen) else some value, (getNextChar cs).2)
  else if comment then parseValue quote comment trimLen value (getNextChar cs).2
  else if isspace (getNextChar cs).1 ∧ quote = false then
    parseValue quote comment (if trimLen = 0 then value.length else trimLen)
      (if value.length ≠ 0 then value ++ [(getNextChar cs).1] else value) (getNextChar cs).2
  else if quote = false ∧ ((getNextChar cs).1 = semicolon ∨ (getNextChar cs).1 = hash) then
    parseValue quote true trimLen value (getNextChar cs).2
  else if (getNextChar cs).1 = backslash then
    if (getNextChar (getNextChar cs).2).1 = newline then
      parseValue quote comment 0 value (getNextChar (getNextChar cs).2).2
    else
      match unescape (getNextChar (getNextChar cs).2).1 with
      | none => (none, (getNextChar (getNextChar cs).2).2)
      | some c => parseValue quote comment 0 (value ++ [c]) (getNextChar (getNextChar cs).2).2
  else if (getNextChar cs).1 = doubleQuote then parseValue (!quote) comment 0 value (getNextChar cs).2
  else parseValue quote comment 0 (value ++ [(getNextChar cs).1]) (getNextChar cs).2
termination_by cs.rest.length
decreasing_by
  all_goals
    have h₁ := @getNextChar_lt cs (by assumption)
    have h₂ := getNextChar_le (getNextChar cs).2
    omega

lemma parseValue_le (quote comment : Bool) (trimLen : Nat) (value : List UInt8) (cs : ConfigSource) :
    (parseValue quote comment trimLen value cs).2.rest.length ≤ cs.rest.length := by
  have hnext := getNextChar_le
  fun_induction parseValue quote comment trimLen value cs with
  | case1 => exact hnext _
  | case2 _ _ _ _ _ ih => exact ih.trans (hnext _)
  | case3 _ _ _ _ _ _ _ _ ih => exact ih.trans (hnext _)
  | case4 _ _ _ _ _ _ _ _ _ ih => exact ih.trans (hnext _)
  | case5 _ _ _ _ _ _ _ _ _ _ _ ih => exact ih.trans ((hnext _).trans (hnext _))
  | case6 => exact (hnext _).trans (hnext _)
  | case7 _ _ _ _ _ _ _ _ _ _ _ _ _ ih => exact ih.trans ((hnext _).trans (hnext _))
  | case8 _ _ _ _ _ _ _ _ _ _ _ ih => exact ih.trans (hnext _)
  | case9 _ _ _ _ _ _ _ _ _ _ _ ih => exact ih.trans (hnext _)

/-- The first loop of `get_value`: the name, the character behind it, and what is left. -/
def readName (name : List UInt8) (cs : ConfigSource) : List UInt8 × UInt8 × ConfigSource :=
  if (getNextChar cs).2.eof = true then (name, getNextChar cs)
  else if iskeychar (getNextChar cs).1 = false then (name, getNextChar cs)
  else readName (name ++ [tolower (getNextChar cs).1]) (getNextChar cs).2
termination_by cs.rest.length
decreasing_by exact getNextChar_lt_of_eof (by simpa using ‹¬(getNextChar cs).2.eof = true›)

/-- The second loop of `get_value`. -/
def skipBlanks (c : UInt8) (cs : ConfigSource) : UInt8 × ConfigSource :=
  if c = space ∨ c = tab then
    if (getNextChar cs).1 = newline then getNextChar cs
    else skipBlanks (getNextChar cs).1 (getNextChar cs).2
  else (c, cs)
termination_by cs.rest.length
decreasing_by exact getNextChar_lt ‹_›

def getValue (name : List UInt8) (cs : ConfigSource) :
    Option (List UInt8 × Option (List UInt8)) × ConfigSource :=
  let (name, c, cs) := readName name cs
  let (c, cs) := skipBlanks c cs
  if c = newline then (some (cString name, none), cs)
  else if c ≠ equals then (none, cs)
  else
    match parseValue false false 0 [] cs with
    | (none, cs) => (none, cs)
    | (some value, cs) => (some (cString name, some (cString value)), cs)

/-- The first loop of `get_extended_base_var`. -/
def skipSpaces (c : UInt8) (cs : ConfigSource) : Option (UInt8 × ConfigSource) :=
  if c = newline then none
  else if (getNextChar cs).1 = newline then none
  else if isspace (getNextChar cs).1 then skipSpaces (getNextChar cs).1 (getNextChar cs).2
  else some (getNextChar cs)
termination_by cs.rest.length
decreasing_by exact getNextChar_lt ‹_›

/-- The second loop of `get_extended_base_var`. -/
def readSubsection (name : List UInt8) (cs : ConfigSource) : Option (List UInt8 × ConfigSource) :=
  if (getNextChar cs).1 = newline then none
  else if (getNextChar cs).1 = doubleQuote then some (name, (getNextChar cs).2)
  else if (getNextChar cs).1 = backslash then
    if (getNextChar (getNextChar cs).2).1 = newline then none
    else
      readSubsection (name ++ [(getNextChar (getNextChar cs).2).1]) (getNextChar (getNextChar cs).2).2
  else readSubsection (name ++ [(getNextChar cs).1]) (getNextChar cs).2
termination_by cs.rest.length
decreasing_by
  all_goals
    have h₁ := @getNextChar_lt cs (by assumption)
    have h₂ := getNextChar_le (getNextChar cs).2
    omega

def getExtendedBaseVar (c : UInt8) (name : List UInt8) (cs : ConfigSource) : Option (List UInt8 × ConfigSource) :=
  (skipSpaces c cs).bind fun r =>
    if r.1 ≠ doubleQuote then none
    else
      (readSubsection (name ++ [dot]) r.2).bind fun r =>
        if (getNextChar r.2).1 = closeBracket then some (r.1, (getNextChar r.2).2) else none

def getBaseVar (name : List UInt8) (cs : ConfigSource) : Option (List UInt8 × ConfigSource) :=
  if (getNextChar cs).2.eof = true then none
  else if (getNextChar cs).1 = closeBracket then some (name, (getNextChar cs).2)
  else if isspace (getNextChar cs).1 then getExtendedBaseVar (getNextChar cs).1 name (getNextChar cs).2
  else if iskeychar (getNextChar cs).1 = false ∧ (getNextChar cs).1 ≠ dot then none
  else getBaseVar (name ++ [tolower (getNextChar cs).1]) (getNextChar cs).2
termination_by cs.rest.length
decreasing_by exact getNextChar_lt_of_eof (by simpa using ‹¬(getNextChar cs).2.eof = true›)

lemma readName_le (name : List UInt8) (cs : ConfigSource) :
    (readName name cs).2.2.rest.length ≤ cs.rest.length := by
  fun_induction readName name cs with
  | case1 => exact getNextChar_le _
  | case2 => exact getNextChar_le _
  | case3 _ _ _ _ ih => exact ih.trans (getNextChar_le _)

lemma skipBlanks_le (c : UInt8) (cs : ConfigSource) : (skipBlanks c cs).2.rest.length ≤ cs.rest.length := by
  fun_induction skipBlanks c cs with
  | case1 => exact getNextChar_le _
  | case2 _ _ _ _ ih => exact ih.trans (getNextChar_le _)
  | case3 => exact le_rfl

lemma getValue_le (name : List UInt8) (cs : ConfigSource) : (getValue name cs).2.rest.length ≤ cs.rest.length := by
  have hname := readName_le name cs
  have hblanks := skipBlanks_le (readName name cs).2.1 (readName name cs).2.2
  have hvalue := parseValue_le false false 0 [] (skipBlanks (readName name cs).2.1 (readName name cs).2.2).2
  unfold getValue
  dsimp only
  split
  · exact hblanks.trans hname
  split
  · exact hblanks.trans hname
  · split <;> rename_i heq <;> rw [heq] at hvalue <;> exact hvalue.trans (hblanks.trans hname)

lemma skipSpaces_le {c : UInt8} {cs : ConfigSource} {r : UInt8 × ConfigSource} (h : skipSpaces c cs = some r) :
    r.2.rest.length ≤ cs.rest.length := by
  fun_induction skipSpaces c cs with
  | case1 => cases h
  | case2 => cases h
  | case3 _ _ _ _ _ ih => exact (ih h).trans (getNextChar_le _)
  | case4 =>
    obtain rfl := Option.some.inj h
    exact getNextChar_le _

lemma readSubsection_le {name : List UInt8} {cs : ConfigSource} {r : List UInt8 × ConfigSource}
    (h : readSubsection name cs = some r) : r.2.rest.length ≤ cs.rest.length := by
  fun_induction readSubsection name cs with
  | case1 => cases h
  | case2 =>
    obtain rfl := Option.some.inj h
    exact getNextChar_le _
  | case3 => cases h
  | case4 _ _ _ _ _ _ ih => exact (ih h).trans ((getNextChar_le _).trans (getNextChar_le _))
  | case5 _ _ _ _ _ ih => exact (ih h).trans (getNextChar_le _)

lemma getExtendedBaseVar_le {c : UInt8} {name : List UInt8} {cs : ConfigSource} {r : List UInt8 × ConfigSource}
    (h : getExtendedBaseVar c name cs = some r) : r.2.rest.length ≤ cs.rest.length := by
  obtain ⟨r₁, h₁, h⟩ := Option.bind_eq_some_iff.mp h
  split at h
  · cases h
  obtain ⟨r₂, h₂, h⟩ := Option.bind_eq_some_iff.mp h
  split at h
  · obtain rfl := Option.some.inj h
    exact (getNextChar_le _).trans ((readSubsection_le h₂).trans (skipSpaces_le h₁))
  · cases h

lemma getBaseVar_le {name : List UInt8} {cs : ConfigSource} {r : List UInt8 × ConfigSource}
    (h : getBaseVar name cs = some r) : r.2.rest.length ≤ cs.rest.length := by
  fun_induction getBaseVar name cs with
  | case1 => cases h
  | case2 =>
    obtain rfl := Option.some.inj h
    exact getNextChar_le _
  | case3 => exact (getExtendedBaseVar_le h).trans (getNextChar_le _)
  | case4 => cases h
  | case5 _ _ _ _ _ _ ih => exact (ih h).trans (getNextChar_le _)

def utf8Bom : List UInt8 := [0xef, 0xbb, 0xbf]

lemma utf8Bom_ne (n : Nat) : utf8Bom.getD n 0 ≠ newline := by
  match n with
  | 0 | 1 | 2 => decide
  | n + 3 => exact (by decide : (0 : UInt8) ≠ newline)

structure ParseState where
  /-- How much of the byte order mark was seen; all of it when there is none. -/
  bomptr : Nat
  comment : Bool
  var : List UInt8
  baselen : Nat

def ParseState.start : ParseState := ⟨0, false, [], 0⟩

/-- The loop of `git_parse_source`: the reported entries, and whether the file was parsed to its end. -/
def parseLoop (st : ParseState) (cs : ConfigSource) : List (List UInt8 × Option (List UInt8)) × Bool :=
  if _hbom : st.bomptr < utf8Bom.length ∧ (getNextChar cs).1 = utf8Bom.getD st.bomptr 0 then
    parseLoop { st with bomptr := st.bomptr + 1 } (getNextChar cs).2
  else if st.bomptr < utf8Bom.length ∧ st.bomptr ≠ 0 then ([], false)
  else if (getNextChar cs).1 = newline then
    if _heof : (getNextChar cs).2.eof = true then ([], true)
    else parseLoop { st with bomptr := utf8Bom.length, comment := false } (getNextChar cs).2
  else if st.comment ∨ isspace (getNextChar cs).1 then
    parseLoop { st with bomptr := utf8Bom.length } (getNextChar cs).2
  else if (getNextChar cs).1 = hash ∨ (getNextChar cs).1 = semicolon then
    parseLoop { st with bomptr := utf8Bom.length, comment := true } (getNextChar cs).2
  else if (getNextChar cs).1 = openBracket then
    match _h : getBaseVar [] (getNextChar cs).2 with
    | none => ([], false)
    | some (var, cs') =>
      if var.length < 1 then ([], false)
      else parseLoop ⟨utf8Bom.length, false, var ++ [dot], var.length + 1⟩ cs'
  else if isalpha (getNextChar cs).1 = false then ([], false)
  else
    match _h : getValue (st.var.take st.baselen ++ [tolower (getNextChar cs).1]) (getNextChar cs).2 with
    | (none, _) => ([], false)
    | (some entry, cs') =>
      let (entries, ok) := parseLoop { st with bomptr := utf8Bom.length } cs'
      (entry :: entries, ok)
termination_by cs.rest.length
decreasing_by
  · exact getNextChar_lt (by rw [_hbom.2]; exact utf8Bom_ne _)
  · exact getNextChar_lt_of_eof (by simpa using _heof)
  · exact getNextChar_lt ‹_›
  · exact getNextChar_lt ‹_›
  · have h₁ := getBaseVar_le _h
    have h₂ := @getNextChar_lt cs (by assumption)
    dsimp only at h₁
    omega
  · have h₁ := getValue_le (st.var.take st.baselen ++ [tolower (getNextChar cs).1]) (getNextChar cs).2
    have h₂ := @getNextChar_lt cs (by assumption)
    rw [_h] at h₁
    dsimp only at h₁
    omega

def gitParseSource (file : List UInt8) : List (List UInt8 × Option (List UInt8)) × Bool :=
  parseLoop .start ⟨file, 0, false⟩

end GitCore.Config

/-!
# Writing configuration files

Keys as they are checked, and the section header and the entry that `config.c` writes for them.
-/

namespace GitCore.Config

/-- `strrchr(key, '.')` as a position. -/
def lastDot (key : List UInt8) : Option Nat :=
  if dot ∈ key then some (key.length - 1 - key.reverse.idxOf dot) else none

/-- The loop of `do_parse_config_key` from a position on: the key in lower case, but for the subsection. -/
def checkKey (baselen : Nat) : Nat → Bool → List UInt8 → Option (List UInt8)
  | _, _, [] => some []
  | i, seen, c :: rest =>
    let seen := seen || c = dot
    if seen = false ∨ baselen < i then
      if iskeychar c = false ∨ (i = baselen + 1 ∧ isalpha c = false) then none
      else (checkKey baselen (i + 1) seen rest).map (tolower c :: ·)
    else if c = newline then none
    else (checkKey baselen (i + 1) seen rest).map (c :: ·)

def doParseConfigKey (key : List UInt8) : Option (List UInt8 × Nat) :=
  match lastDot key with
  | none => none
  | some last =>
    if last = 0 ∨ last + 1 = key.length then none
    else (checkKey last 0 false key).map fun store => (store, last)

def escapeSubsection (bytes : List UInt8) : List UInt8 :=
  bytes.flatMap fun c => if c = doubleQuote ∨ c = backslash then [backslash, c] else [c]

def storeCreateSection (key : List UInt8) (baselen : Nat) : List UInt8 :=
  let base := key.take baselen
  if dot ∈ base then
    let first := base.idxOf dot
    openBracket :: base.take first ++ [space, doubleQuote] ++ escapeSubsection (base.drop (first + 1)) ++
      [doubleQuote, closeBracket, newline]
  else openBracket :: base ++ [closeBracket, newline]

/-- The bytes of a value as `write_pair` escapes them. -/
def escapeChar (c : UInt8) : List UInt8 :=
  if c = newline then [backslash, 0x6e]
  else if c = tab then [backslash, 0x74]
  else if c = doubleQuote ∨ c = backslash then [backslash, c]
  else [c]

/-- Does `write_pair` put the value into quotes? -/
def needsQuote (value : List UInt8) : Bool :=
  value.head? = some space ∨ value.any (fun c => c = semicolon ∨ c = hash ∨ c = carriageReturn) ∨
    value.getLast? = some space

/-- The quote that `write_pair` puts around the value. -/
def quoteOf (value : List UInt8) : List UInt8 := if needsQuote value then [doubleQuote] else []

def writePair (key value : List UInt8) (comment : Option (List UInt8)) (baselen : Nat) : List UInt8 :=
  tab :: key.drop (baselen + 1) ++ [space, equals, space] ++ quoteOf value ++ value.flatMap escapeChar ++
    quoteOf value ++ comment.getD [] ++ [newline]

/-- `git_config_prepare_comment_string`; nothing where it dies. -/
def prepareCommentString (comment : List UInt8) : Option (List UInt8) :=
  if newline ∈ comment then none
  else
    let blanks := comment.takeWhile fun c => c = space ∨ c = tab
    if blanks ≠ [] ∧ (comment.drop blanks.length).head? = some hash then some comment
    else if comment.head? = some hash then some (space :: comment)
    else some ([space, hash, space] ++ comment)

/-- The comments that a caller of `write_pair` can pass: none, or a prepared one. -/
inductive Prepared : Option (List UInt8) → Prop
  | absent : Prepared none
  | given {comment prepared : List UInt8} (h : prepareCommentString comment = some prepared) : Prepared (some prepared)

end GitCore.Config
