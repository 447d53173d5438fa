import GitCore.Xdiff.Env

/-!
# Unified diff output

`xdl_emit_diff` of `xemit.c`. The hunks are returned in the order they are written; the
output callbacks do not fail.
-/

namespace GitCore.Xdiff

def saturatingAdd (a b : Nat) : Nat :=
  if a + b > longMax then longMax else a + b

/-- `find_func_t`: what is written to a buffer of the given size, if the line is a function line. -/
abbrev FindFunc := List UInt8 → Nat → Option (List UInt8)

structure XdEmitConf where
  ctxlen : Nat
  interhunkctxlen : Nat
  emitFuncnames : Bool
  emitFunccontext : Bool
  findFunc : Option FindFunc
  ctxlen_le : ctxlen ≤ longMax
  interhunkctxlen_le : interhunkctxlen ≤ longMax

def distance (xchp xch : XdChange) : Int := xch.i1 - (xchp.i1 + xchp.chg1)

/-- The first loop of `xdl_get_hunk` advances `xscr` past ignorable changes that are last or
too far before the next one. -/
def skipIgnorable (maxIgnorable : Nat) : List XdChange → List XdChange → List XdChange
  | xscr, [] => xscr
  | xscr, xchp :: rest =>
    if xchp.ignore then
      skipIgnorable maxIgnorable
        (if rest.head?.all (fun xch => distance xchp xch ≥ maxIgnorable) then rest else xscr) rest
    else xscr

/-- The second loop of `xdl_get_hunk`. `xchp` is the change number `at`, `lxch` the last one
of the hunk so far, number `last`. -/
def lastOfHunk (maxCommon maxIgnorable : Nat) (lxch : XdChange) (last : Nat) (ignored : Int) (xchp : XdChange)
    (i : Nat) : List XdChange → Nat
  | [] => last
  | xch :: rest =>
    if distance xchp xch > maxCommon then last
    else if distance xchp xch < maxIgnorable ∧ (¬ xch.ignore ∨ last = i) then
      lastOfHunk maxCommon maxIgnorable xch (i + 1) 0 xch (i + 1) rest
    else if distance xchp xch < maxIgnorable ∧ xch.ignore then
      lastOfHunk maxCommon maxIgnorable lxch last (ignored + xch.chg2) xch (i + 1) rest
    else if last ≠ i ∧ xch.i1 + ignored - (lxch.i1 + lxch.chg1) > maxCommon then last
    else if ¬ xch.ignore then lastOfHunk maxCommon maxIgnorable xch (i + 1) 0 xch (i + 1) rest
    else lastOfHunk maxCommon maxIgnorable lxch last (ignored + xch.chg2) xch (i + 1) rest

/-- A hunk that `xdl_get_hunk` found: the ignored changes in front of it that are discarded,
its changes `xch`, …, `xche`, and the rest of the script. -/
structure HunkSplit where
  discarded : List XdChange
  xch : XdChange
  others : List XdChange
  rest : List XdChange

def HunkSplit.xche (split : HunkSplit) : XdChange :=
  (split.xch :: split.others).getLast (by simp)

def maxCommon (xecfg : XdEmitConf) : Nat :=
  saturatingAdd (saturatingAdd xecfg.ctxlen xecfg.ctxlen) xecfg.interhunkctxlen

def getHunk (xecfg : XdEmitConf) (xscr : List XdChange) : Option HunkSplit :=
  match skipIgnorable xecfg.ctxlen xscr xscr with
  | [] => none
  | xch :: rest =>
    let last := lastOfHunk (maxCommon xecfg) xecfg.ctxlen xch 0 0 xch 0 rest
    some ⟨xscr.take (xscr.length - (xch :: rest).length), xch, rest.take last, rest.drop last⟩

def isSpace (c : UInt8) : Bool := c = 32 ∨ c = 9 ∨ c = 10 ∨ c = 13

def isAlpha (c : UInt8) : Bool := 65 ≤ c ∧ c ≤ 90 ∨ 97 ≤ c ∧ c ≤ 122

def defFf : FindFunc := fun rec sz =>
  match rec with
  | [] => none
  | c :: _ =>
    if isAlpha c ∨ c = 95 ∨ c = 36 then
      some ((rec.take sz).reverse.dropWhile isSpace).reverse
    else none

section Predicates

variable (xecfg : XdEmitConf) (xdf : XdFile)

def matchFuncRec (ri sz : Nat) : Option (List UInt8) :=
  match xdf.recs[ri]? with
  | some rec => (xecfg.findFunc.getD defFf) rec.ptr sz
  | none => none

def isFuncRec (ri : Nat) : Bool := (matchFuncRec xecfg xdf ri 1).isSome

def getFuncLineLoop (size : Nat) (step : Int) : Nat → Int → Option (Nat × List UInt8)
  | 0, _ => none
  | steps + 1, l =>
    if 0 ≤ l ∧ l < xdf.nrec then
      match matchFuncRec xecfg xdf l.toNat size with
      | some text => some (l.toNat, text)
      | none => getFuncLineLoop size step steps (l + step)
    else none

def getFuncLine (size : Nat) (start limit : Int) : Option (Nat × List UInt8) :=
  getFuncLineLoop xecfg xdf size (if start > limit then -1 else 1) (start - limit).natAbs start

def isEmptyRec (ri : Nat) : Bool :=
  match xdf.recs[ri]? with
  | some rec => rec.ptr.all isSpace
  | none => true

def climbComment : Nat → Nat
  | 0 => 0
  | fs1 + 1 =>
    if ¬ isEmptyRec xdf fs1 ∧ ¬ isFuncRec xecfg xdf fs1 then climbComment fs1 else fs1 + 1

def dropBlank : Nat → Nat
  | 0 => 0
  | fe1 + 1 => if isEmptyRec xdf fe1 then dropBlank fe1 else fe1 + 1

end Predicates

section Emit

variable (xe : XdfEnv) (xecfg : XdEmitConf)

def addsFunction (i2 : Nat) : Bool :=
  ((List.range xe.xdf2.nrec).drop i2).any (isFuncRec xecfg xe.xdf2)

/-- `fs1`: the start of the function in front of a change. At the end of the file the search
starts at its last line. -/
def funcContextStart (xch : XdChange) : Nat :=
  let i1 : Int := if xch.i1 ≥ xe.xdf1.nrec then xe.xdf1.nrec - 1 else xch.i1
  match getFuncLine xecfg xe.xdf1 1 i1 (-1) with
  | some (fs1, _) => climbComment xecfg xe.xdf1 fs1
  | none => 0

/-- From `pre_context_calculation` on: the start of the hunk, and whether the function context
moved it up. -/
def preContextCalculation (xch : XdChange) : (Nat × Nat) × Bool :=
  let s1 := xch.i1 - xecfg.ctxlen
  let s2 := xch.i2 - xecfg.ctxlen
  -- an appended chunk with a whole function needs no context
  if xecfg.emitFunccontext ∧ ¬ (xch.i1 ≥ xe.xdf1.nrec ∧ addsFunction xe xecfg xch.i2) then
    let fs1 := funcContextStart xe xecfg xch
    if fs1 < s1 then ((fs1, s2 - (s1 - fs1)), true) else ((s1, s2), false)
  else ((s1, s2), false)

/-- The start of the hunk, and the discarded changes that are shown after all because the
context extends into them. -/
def preContext (discarded : List XdChange) (xch : XdChange) : List XdChange × (Nat × Nat) :=
  match preContextCalculation xe xecfg xch with
  | (start, false) => ([], start)
  | (start, true) =>
    match discarded.dropWhile (fun xchp => xchp.end1 ≤ start.1 ∧ xchp.end2 ≤ start.2) with
    | [] => ([], start)
    | xchp :: others => (xchp :: others, (preContextCalculation xe xecfg xchp).1)

def funcContextEnd (xche : XdChange) : Nat :=
  match getFuncLine xecfg xe.xdf1 1 xche.end1 xe.xdf1.nrec with
  | some (fe1, _) => dropBlank xe.xdf1 fe1
  | none => xe.xdf1.nrec

def hunkEnd (xche : XdChange) : Nat × Nat :=
  let lctx := min (min xecfg.ctxlen (xe.xdf1.nrec - xche.end1)) (xe.xdf2.nrec - xche.end2)
  let e1 := xche.end1 + lctx
  let e2 := xche.end2 + lctx
  let fe1 := funcContextEnd xe xecfg xche
  if xecfg.emitFunccontext ∧ fe1 > e1 then (fe1, min (e2 + (fe1 - e1)) xe.xdf2.nrec) else (e1, e2)

/-- Does the hunk that ends at line `e1` take in the next change, too? -/
def overlapsNext (e1 : Nat) (next : XdChange) : Bool :=
  let l := min (next.i1 : Int) (xe.xdf1.nrec - 1)
  l - xecfg.ctxlen ≤ e1 ∨ getFuncLine xecfg xe.xdf1 1 l e1 = none

/-- From `post_context_calculation` on: the changes that the function context adds to the hunk,
its end, and the rest of the script. -/
def postContext (xche : XdChange) : List XdChange → List XdChange × (Nat × Nat) × List XdChange
  | [] => ([], hunkEnd xe xecfg xche, [])
  | next :: rest =>
    if xecfg.emitFunccontext ∧ overlapsNext xe xecfg (hunkEnd xe xecfg xche).1 next then
      let (merged, stop, script) := postContext next rest
      (next :: merged, stop, script)
    else ([], hunkEnd xe xecfg xche, next :: rest)

inductive HunkLine
  | context (rec : XRecord)
  | removed (rec : XRecord)
  | added (rec : XRecord)
deriving DecidableEq

/-- The arguments of `out_hunk` and the lines that follow. -/
structure Hunk where
  oldBegin : Nat
  oldNr : Nat
  newBegin : Nat
  newNr : Nat
  func : List UInt8
  lines : List HunkLine
deriving DecidableEq

/-- `xdl_emit_hunk_hdr`; an empty range begins at the line in front of it. -/
def emitHunkHdr (s1 c1 s2 c2 : Nat) (func : List UInt8) (lines : List HunkLine) : Hunk where
  oldBegin := if c1 = 0 then s1 - 1 else s1
  oldNr := c1
  newBegin := if c2 = 0 then s2 - 1 else s2
  newNr := c2
  func := func
  lines := lines

/-- The loop over the changes of a hunk, after line `s1` and line `s2`. -/
def emitChanges (s1 s2 : Nat) : List XdChange → List HunkLine
  | [] => []
  | xch :: rest =>
    (xe.xdf2.slice s2 (s2 + min (xch.i1 - s1) (xch.i2 - s2))).map .context ++
      (xe.xdf1.slice xch.i1 xch.end1).map .removed ++
      (xe.xdf2.slice xch.i2 xch.end2).map .added ++ emitChanges xch.end1 xch.end2 rest

/-- The lines of a hunk from line `s2` to line `e2` of the second file. -/
def hunkLines (s2 e2 : Nat) : List XdChange → List HunkLine
  | [] => []
  | xch :: rest =>
    (xe.xdf2.slice s2 xch.i2).map .context ++ emitChanges xe xch.i1 xch.i2 (xch :: rest) ++
      (xe.xdf2.slice ((xch :: rest).getLast (by simp)).end2 e2).map .context

/-- `funclineprev` and the last function line that was found. -/
structure FuncState where
  funclineprev : Int
  funcLine : List UInt8

/-- The function name of the header of a hunk that starts at line `s1`. -/
def nextFuncState (fs : FuncState) (s1 : Nat) : FuncState :=
  if xecfg.emitFuncnames then
    ⟨s1 - 1, match getFuncLine xecfg xe.xdf1 80 (s1 - 1) fs.funclineprev with
      | some (_, text) => text
      | none => fs.funcLine⟩
  else fs

variable {xecfg} in
lemma length_skipIgnorable (maxIgnorable : Nat) (xscr script : List XdChange) (h : script.length ≤ xscr.length) :
    (skipIgnorable maxIgnorable xscr script).length ≤ xscr.length := by
  induction script generalizing xscr with
  | nil => simp [skipIgnorable]
  | cons xchp rest ih =>
    rw [skipIgnorable]
    rw [List.length_cons] at h
    split_ifs
    · exact (ih _ le_rfl).trans (by omega)
    · exact ih _ (by omega)
    · exact le_rfl

variable {xecfg} in
lemma length_getHunk {xscr : List XdChange} {split : HunkSplit} (h : getHunk xecfg xscr = some split) :
    split.rest.length < xscr.length := by
  have hlen := length_skipIgnorable xecfg.ctxlen xscr xscr le_rfl
  unfold getHunk at h
  split at h
  · cases h
  · next xch rest hskip =>
    rw [hskip, List.length_cons] at hlen
    cases h
    simp only [List.length_drop]
    omega

lemma length_postContext (xche : XdChange) (script : List XdChange) :
    (postContext xe xecfg xche script).2.2.length ≤ script.length := by
  induction script generalizing xche with
  | nil => simp [postContext]
  | cons next rest ih =>
    rw [postContext]
    split_ifs
    · exact (ih next).trans (by simp)
    · simp

def emitDiffLoop (fs : FuncState) (script : List XdChange) : List Hunk :=
  match _hsplit : getHunk xecfg script with
  | none => []
  | some split =>
    let (shown, (s1, s2)) := preContext xe xecfg split.discarded split.xch
    let post := postContext xe xecfg split.xche split.rest
    let (e1, e2) := post.2.1
    let fs := nextFuncState xe xecfg fs s1
    let lines := hunkLines xe s2 e2 (shown ++ split.xch :: split.others ++ post.1)
    emitHunkHdr (s1 + 1) (e1 - s1) (s2 + 1) (e2 - s2) fs.funcLine lines ::
      emitDiffLoop fs post.2.2
termination_by script.length
decreasing_by exact (length_postContext xe xecfg split.xche split.rest).trans_lt (length_getHunk _hsplit)

def emitDiff (xscr : List XdChange) : List Hunk :=
  emitDiffLoop xe xecfg ⟨-1, []⟩ xscr

end Emit

end GitCore.Xdiff
