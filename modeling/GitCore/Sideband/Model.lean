import GitCore.Lib.Terminal

/-!
# Sideband messages

`sideband.c`: the text on bands 2 and 3 is coloured, masked and written to standard error line by
line. Every byte carries whether it is our own or the remote's.
-/

namespace GitCore.Sideband

open Terminal (isCntrl isDigit isParam escapeSequence tagged)

inductive Origin
  | own
  | remote
deriving DecidableEq

abbrev Strbuf := List (Origin × UInt8)

def own (s : List UInt8) : Strbuf := tagged .own s

def remote (s : List UInt8) : Strbuf := tagged .remote s

def ascii (s : String) : List UInt8 :=
  s.toList.map fun c => UInt8.ofNat c.toNat

structure AllowControlCharacters where
  ansiColorSequences : Bool
  ansiCursorMovements : Bool
  ansiErase : Bool
  allControlCharacters : Bool
deriving DecidableEq

def allowNoControlCharacters : AllowControlCharacters := ⟨false, false, false, false⟩

inductive Color
  | normal
  | ansi (params : List UInt8) (h : ∀ p ∈ params, isParam p)

def Color.bytes : Color → List UInt8
  | .normal => []
  | .ansi params _ => escapeSequence params 109

inductive Keyword
  | hint
  | warning
  | success
  | error
deriving DecidableEq

def Keyword.keyword : Keyword → List UInt8
  | .hint => ascii "hint"
  | .warning => ascii "warning"
  | .success => ascii "success"
  | .error => ascii "error"

def keywords : List Keyword := [.hint, .warning, .success, .error]

/-- `colors` is `want_color_stderr(use_sideband_colors())`, `ansi` that standard error is a
terminal that is not dumb. -/
structure Settings where
  allow : AllowControlCharacters
  colors : Bool
  color : Keyword → Color
  ansi : Bool

def strchr (s : List UInt8) (c : UInt8) : Bool := c = 0 || s.contains c

/-- The final letters that `handle_ansi_sequence` accepts. -/
def isFinal (allow : AllowControlCharacters) (c : UInt8) : Bool :=
  (allow.ansiColorSequences && c = 109) ||
  (allow.ansiCursorMovements && strchr (ascii "ABCDEFGHf") c) ||
  (allow.ansiErase && strchr (ascii "JKMPX") c)

/-- The loop of `handle_ansi_sequence` from index `i` on. -/
def findFinal (allow : AllowControlCharacters) : List UInt8 → Nat → Nat
  | [], _ => 0
  | c :: rest, i =>
    if isFinal allow c then i
    else if isDigit c || c = 59 then findFinal allow rest (i + 1)
    else 0

/-- The index of the last byte of the sequence at the start of `src`, 0 if there is none. -/
def handleAnsiSequence (allow : AllowControlCharacters) (dest : Strbuf) (src : List UInt8) : Strbuf × Nat :=
  if src.length < 3 ∨ src[0]? ≠ some 27 ∨ src[1]? ≠ some 91 then (dest, 0)
  else
    match findFinal allow (src.drop 2) 2 with
    | 0 => (dest, 0)
    | i => (dest ++ remote (src.take (i + 1)), i)

def addSanitized (allow : AllowControlCharacters) (dest : Strbuf) (src : List UInt8) : Strbuf :=
  match src with
  | [] => dest
  | c :: rest =>
    if c = 0 then dest
    else if ¬ isCntrl c ∨ c = 9 ∨ c = 10 then addSanitized allow (dest ++ remote [c]) rest
    else
      let handled := if allow ≠ allowNoControlCharacters then handleAnsiSequence allow dest (c :: rest)
        else (dest, 0)
      if handled.2 ≠ 0 then addSanitized allow handled.1 (rest.drop handled.2)
      else addSanitized allow (dest ++ remote [94, if c = 127 then 63 else 64 + c]) rest
termination_by src.length
decreasing_by all_goals simp [List.length_drop]

def strbufAddSanitized (allow : AllowControlCharacters) (dest : Strbuf) (src : List UInt8) : Strbuf :=
  if allow.allControlCharacters then dest ++ remote src else addSanitized allow dest src

def isSpace (c : UInt8) : Bool := c = 32 || c = 9 || c = 10 || c = 13

def isAlnum (c : UInt8) : Bool := (65 ≤ c && c ≤ 90) || (97 ≤ c && c ≤ 122) || isDigit c

def toLower (c : UInt8) : UInt8 := if 65 ≤ c ∧ c ≤ 90 then c + 32 else c

/-- The keyword is at the start of `src`, in any case, and not part of a longer word. -/
def Keyword.startsLine (p : Keyword) (src : List UInt8) : Bool :=
  p.keyword.length ≤ src.length &&
  (src.take p.keyword.length).map toLower = p.keyword.map toLower &&
  (src[p.keyword.length]?.map isAlnum).getD false = false

def gitColorReset : List UInt8 := escapeSequence [] 109

def maybeColorizeSideband (settings : Settings) (dest : Strbuf) (src : List UInt8) : Strbuf :=
  if ¬ settings.colors then strbufAddSanitized settings.allow dest src
  else
    let dest := dest ++ remote (src.takeWhile isSpace)
    let src := src.dropWhile isSpace
    match keywords.find? (·.startsLine src) with
    | some p =>
      let len := p.keyword.length
      let dest := dest ++ own (settings.color p).bytes ++ remote (src.take len) ++ own gitColorReset
      strbufAddSanitized settings.allow dest (src.drop len)
    | none => strbufAddSanitized settings.allow dest src

def ansiPrefix : List UInt8 := escapeSequence [] 75

def displayPrefix : List UInt8 := ascii "remote: "

def linePrefix (settings : Settings) : List UInt8 :=
  if settings.ansi then ansiPrefix ++ displayPrefix else displayPrefix

/-- `suffix` of `demultiplex_sideband`; `DUMB_SUFFIX` is eight spaces. -/
def lineSuffix (settings : Settings) : List UInt8 :=
  if settings.ansi then [] else ascii "        "

inductive PacketReadStatus
  | eof
  | normal
  | flush
  | delim
  | responseEnd
deriving DecidableEq

inductive SidebandType
  | protocolError
  | remoteError
  | flush
  | primary
deriving DecidableEq

structure ProgramName where
  bytes : List UInt8
  plain : ∀ c ∈ bytes, isCntrl c = false

/-- The arguments of one call; `buf` has the `len` bytes of the packet. -/
structure Call where
  me : ProgramName
  status : PacketReadStatus
  buf : List UInt8
  dieOnError : Bool

/-- What a call does: what it writes to standard error, one text for each write, what it leaves in
`scratch` and the type it returns with; a call that returns 0 has no type. -/
structure Outcome where
  written : List Strbuf
  scratch : Strbuf
  sidebandType : Option SidebandType
  died : Bool

/-- `vfreportf` of `usage.c` with the prefix of `die`: control characters are shown as `?`. -/
def dieMessage (message : Strbuf) : Strbuf :=
  let fatal := ascii "fatal: "
  let msg := (message.takeWhile (·.2 ≠ 0)).take (4096 - 1 - fatal.length)
  own fatal ++ msg.map (fun (o, c) => (o, if isCntrl c ∧ c ≠ 9 ∧ c ≠ 10 then 63 else c)) ++ own [10]

def cleanup (dieOnError : Bool) (type : SidebandType) (scratch : Strbuf) : Outcome :=
  if dieOnError ∧ type = .protocolError then ⟨[dieMessage scratch], scratch, some type, true⟩
  else if scratch ≠ [] then ⟨[scratch ++ own [10]], [], some type, false⟩
  else ⟨[], [], some type, false⟩

def isLineEnd (c : UInt8) : Bool := c = 10 || c = 13

/-- Band 2: every line is written, what is left of the last line stays in `scratch`. -/
def progressLines (settings : Settings) (scratch : Strbuf) (b : List UInt8) : List Strbuf × Strbuf :=
  match _h : b.dropWhile (fun c => ¬ isLineEnd c) with
  | [] =>
    if b ≠ [] then
      let scratch := if scratch = [] then own (linePrefix settings) else scratch
      ([], maybeColorizeSideband settings scratch b)
    else ([], scratch)
  | brk :: rest =>
    let line := b.takeWhile (fun c => ¬ isLineEnd c)
    let scratch := if scratch ≠ [] ∧ line = [] then scratch ++ own (lineSuffix settings) else scratch
    let scratch := if scratch = [] then own (linePrefix settings) else scratch
    let scratch :=
      if line ≠ [] then maybeColorizeSideband settings scratch line ++ own (lineSuffix settings) else scratch
    let more := progressLines settings [] rest
    ((scratch ++ remote [brk]) :: more.1, more.2)
termination_by b.length
decreasing_by
  have := congrArg List.length _h
  have := (List.dropWhile_suffix (l := b) (fun c => decide ¬ isLineEnd c)).length_le
  simp only [List.length_cons] at *
  omega

/-- `%d` of a byte -/
def decimal (n : UInt8) : List UInt8 :=
  if n = 0 then [48] else (Nat.digits 10 n.toNat).reverse.map fun d => UInt8.ofNat (48 + d)

def newLine (scratch : Strbuf) : Strbuf := if scratch ≠ [] then own [10] else []

def demultiplexSideband (settings : Settings) (scratch : Strbuf) (call : Call) : Outcome :=
  if call.status = .eof then
    let message := call.me.bytes ++ ascii ": unexpected disconnect while reading sideband packet"
    cleanup call.dieOnError .protocolError (scratch ++ newLine scratch ++ own message)
  else
    match call.buf with
    | [] =>
      if call.status = .normal then
        let message := call.me.bytes ++ ascii ": protocol error: missing sideband designator"
        cleanup call.dieOnError .protocolError (scratch ++ newLine scratch ++ own message)
      else cleanup call.dieOnError .flush scratch
    | band :: payload =>
      if band = 3 then
        if call.dieOnError then
          let message := own (ascii "remote error: ") ++ remote (payload.takeWhile (· ≠ 0))
          ⟨[dieMessage message], scratch, none, true⟩
        else
          let dest := scratch ++ newLine scratch ++ own (linePrefix settings)
          cleanup call.dieOnError .remoteError (maybeColorizeSideband settings dest payload)
      else if band = 2 then
        let lines := progressLines settings scratch (payload.takeWhile (· ≠ 0))
        ⟨lines.1, lines.2, none, false⟩
      else if band = 1 then ⟨[], scratch, some .primary, false⟩
      else
        let message := call.me.bytes ++ ascii ": protocol error: bad band #" ++ decimal band
        cleanup call.dieOnError .protocolError (scratch ++ newLine scratch ++ own message)

/-- The calls for a sequence of packets, with what they do; nothing is called after a `die`. -/
def receive (settings : Settings) : Strbuf → List Call → List (Call × Outcome)
  | _, [] => []
  | scratch, call :: calls =>
    let outcome := demultiplexSideband settings scratch call
    (call, outcome) :: if outcome.died then [] else receive settings outcome.scratch calls

end GitCore.Sideband
