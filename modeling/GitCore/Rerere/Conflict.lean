import GitCore.Lib.Bytes

/-!
# Conflicts in a file

`handle_conflict` and `handle_path` of `rerere.c`. The lines that `getline` reads are taken apart before, and the
context of the hash is the bytes that it was given.
-/

namespace GitCore.Rerere

abbrev Strbuf := List UInt8

abbrev Line := List UInt8

def newline : UInt8 := 0x0a

def space : UInt8 := 0x20

def isspace (ch : UInt8) : Bool := ch = space ∨ ch = newline ∨ ch = 0x09 ∨ ch = 0x0d

/-- The lines that `strbuf_getwholeline` reads one after another. -/
def getlines : List UInt8 → List Line
  | [] => []
  | c :: input =>
    if c = newline then [c] :: getlines input
    else
      match getlines input with
      | [] => [[c]]
      | line :: lines => (c :: line) :: lines

def isCmarker (buf : Line) (markerChar : UInt8) (markerSize : Nat) : Bool :=
  let wantSp := markerChar = 0x3c ∨ markerChar = 0x3e
  let behind := (buf.drop markerSize).headD 0
  buf.take markerSize = List.replicate markerSize markerChar ∧ ¬(wantSp ∧ behind ≠ space) ∧ isspace behind

/-- The marker lines in the order in which `handle_conflict` looks for them. -/
inductive Marker
  | start
  | original
  | middle
  | stop
  deriving DecidableEq

def markerOf (markerSize : Nat) (buf : Line) : Option Marker :=
  if isCmarker buf 0x3c markerSize then some .start
  else if isCmarker buf 0x7c markerSize then some .original
  else if isCmarker buf 0x3d markerSize then some .middle
  else if isCmarker buf 0x3e markerSize then some .stop
  else none

inductive Hunk
  | rrSide1
  | rrSide2
  | rrOriginal
  deriving DecidableEq

structure Sides where
  one : Strbuf
  two : Strbuf
  deriving DecidableEq

/-- The sides, swapped if `strbuf_cmp(&one, &two) > 0`. -/
def Sides.ordered (sides : Sides) : Sides := if sides.two < sides.one then ⟨sides.two, sides.one⟩ else sides

def putconflict (ch : UInt8) (size : Nat) : Strbuf := List.replicate size ch ++ [newline]

def Sides.out (markerSize : Nat) (sides : Sides) : Strbuf :=
  putconflict 0x3c markerSize ++ sides.one ++ putconflict 0x3d markerSize ++ sides.two ++ putconflict 0x3e markerSize

/-- What `handle_conflict` adds to `ctx`. -/
def Sides.hashed (sides : Sides) : List UInt8 := sides.one ++ [0] ++ sides.two ++ [0]

structure ConflictState where
  hunk : Hunk
  sides : Sides
  deriving DecidableEq

def ConflictState.initial : ConflictState := ⟨.rrSide1, [], []⟩

def ConflictState.addConflict (st : ConflictState) (conflict : Strbuf) : ConflictState :=
  if st.hunk = .rrSide1 then { st with sides := { st.sides with one := st.sides.one ++ conflict } }
  else { st with sides := { st.sides with two := st.sides.two ++ conflict } }

def ConflictState.addLine (st : ConflictState) (buf : Line) : ConflictState :=
  match st.hunk with
  | .rrSide1 => { st with sides := { st.sides with one := st.sides.one ++ buf } }
  | .rrOriginal => st
  | .rrSide2 => { st with sides := { st.sides with two := st.sides.two ++ buf } }

/-- The loop of `handle_conflict`: the ordered sides and the lines that were not read, or nothing for -1. -/
def conflictLoop (markerSize : Nat) (st : ConflictState) (io : List Line) :
    Option { read : Sides × List Line // read.2.length < io.length } :=
  match io with
  | [] => none
  | buf :: io =>
    match markerOf markerSize buf with
    | some .start =>
      match conflictLoop markerSize .initial io with
      | none => none
      | some ⟨(conflict, rest), hrest⟩ =>
        match conflictLoop markerSize (st.addConflict (conflict.out markerSize)) rest with
        | none => none
        | some ⟨read, hread⟩ => some ⟨read, (hread.trans hrest).trans (Nat.lt_succ_self _)⟩
    | some .original =>
      if st.hunk ≠ .rrSide1 then none
      else (conflictLoop markerSize { st with hunk := .rrOriginal } io).map fun read =>
        ⟨read.1, read.2.trans (Nat.lt_succ_self _)⟩
    | some .middle =>
      if st.hunk ≠ .rrSide1 ∧ st.hunk ≠ .rrOriginal then none
      else (conflictLoop markerSize { st with hunk := .rrSide2 } io).map fun read =>
        ⟨read.1, read.2.trans (Nat.lt_succ_self _)⟩
    | some .stop =>
      if st.hunk ≠ .rrSide2 then none else some ⟨(st.sides.ordered, io), Nat.lt_succ_self _⟩
    | none =>
      (conflictLoop markerSize (st.addLine buf) io).map fun read => ⟨read.1, read.2.trans (Nat.lt_succ_self _)⟩
termination_by io.length
decreasing_by
  all_goals simp only [List.length_cons]
  all_goals first | exact Nat.lt_succ_self _ | exact hrest.trans (Nat.lt_succ_self _)

def handleConflict (markerSize : Nat) (io : List Line) :
    Option { read : Sides × List Line // read.2.length < io.length } := conflictLoop markerSize .initial io

/-- What `handle_path` returns, the bytes of the id and what it writes. -/
structure PathState where
  hasConflicts : Int
  hashed : List UInt8
  written : List UInt8
  deriving DecidableEq

/-- `rerere_io_putstr` writes a line up to its first NUL. -/
def putstr (buf : Line) : List UInt8 := buf.takeWhile (· ≠ 0)

def pathLoop (markerSize : Nat) (st : PathState) (io : List Line) : PathState :=
  match io with
  | [] => st
  | buf :: io =>
    if isCmarker buf 0x3c markerSize then
      match handleConflict markerSize io with
      | none => { st with hasConflicts := -1 }
      | some ⟨(sides, rest), _hrest⟩ =>
        pathLoop markerSize
          { hasConflicts := 1
            hashed := st.hashed ++ sides.hashed
            written := st.written ++ sides.out markerSize } rest
    else pathLoop markerSize { st with written := st.written ++ putstr buf } io
termination_by io.length
decreasing_by
  all_goals simp only [List.length_cons]
  all_goals first | exact Nat.lt_succ_self _ | exact _hrest.trans (Nat.lt_succ_self _)

structure HandledPath (Hash : Type) where
  hasConflicts : Int
  hash : Hash
  output : List UInt8

def handlePath {Hash : Type} (hashAlgo : List UInt8 → Hash) (input : List UInt8) (markerSize : Nat) :
    HandledPath Hash :=
  let st := pathLoop markerSize ⟨0, [], []⟩ (getlines input)
  { hasConflicts := st.hasConflicts, hash := hashAlgo st.hashed, output := st.written }

end GitCore.Rerere

/-!
# The id of the conflicts in a file

A file with well-formed markers is read as the tree of its conflicts. The id and the output do not depend on the
order of the sides, nor on the common ancestors where no ancestor has a conflict of its own: such a conflict is added
to the second side.
-/

namespace GitCore.Rerere

variable {markerSize : Nat} {st : ConflictState} {buf : Line} {io : List Line}

def readConflict (markerSize : Nat) (st : ConflictState) (io : List Line) : Option (Sides × List Line) :=
  (conflictLoop markerSize st io).map Subtype.val

lemma readConflict_start (h : markerOf markerSize buf = some .start) :
    readConflict markerSize st (buf :: io) = (readConflict markerSize .initial io).bind fun read =>
      readConflict markerSize (st.addConflict (read.1.out markerSize)) read.2 := by
  rw [readConflict, conflictLoop]
  simp only [h]
  rw [readConflict]
  cases conflictLoop markerSize .initial io with
  | none => rfl
  | some read =>
    obtain ⟨⟨conflict, rest⟩, hrest⟩ := read
    dsimp only [Option.map_some, Option.bind_some]
    rw [readConflict]
    cases conflictLoop markerSize (st.addConflict (conflict.out markerSize)) rest <;> rfl

lemma readConflict_original (h : markerOf markerSize buf = some .original) (hhunk : st.hunk = .rrSide1) :
    readConflict markerSize st (buf :: io) = readConflict markerSize { st with hunk := .rrOriginal } io := by
  rw [readConflict, conflictLoop]
  simp only [h]
  rw [if_neg (not_not.mpr hhunk), Option.map_map]
  rfl

lemma readConflict_middle (h : markerOf markerSize buf = some .middle) (hhunk : st.hunk ≠ .rrSide2) :
    readConflict markerSize st (buf :: io) = readConflict markerSize { st with hunk := .rrSide2 } io := by
  have hside : ¬(st.hunk ≠ .rrSide1 ∧ st.hunk ≠ .rrOriginal) := by
    cases hcase : st.hunk with
    | rrSide1 => simp
    | rrSide2 => exact absurd hcase hhunk
    | rrOriginal => simp
  rw [readConflict, conflictLoop]
  simp only [h]
  rw [if_neg hside, Option.map_map]
  rfl

lemma readConflict_stop (h : markerOf markerSize buf = some .stop) (hhunk : st.hunk = .rrSide2) :
    readConflict markerSize st (buf :: io) = some (st.sides.ordered, io) := by
  rw [readConflict, conflictLoop]
  simp only [h]
  rw [if_neg (not_not.mpr hhunk)]
  rfl

lemma readConflict_line (h : markerOf markerSize buf = none) :
    readConflict markerSize st (buf :: io) = readConflict markerSize (st.addLine buf) io := by
  rw [readConflict, conflictLoop]
  simp only [h]
  rw [Option.map_map]
  rfl

/-- Lines and conflicts. A conflict has the two sides and may have the common ancestor behind a marker of its own. -/
inductive MarkedText
  | nil
  | line (buf : Line) (rest : MarkedText)
  | conflict (start : Line) (one : MarkedText) (ancestor : Option Line) (original : MarkedText) (middle : Line)
      (two : MarkedText) (stop : Line) (rest : MarkedText)

namespace MarkedText

def lines : MarkedText → List Line
  | nil => []
  | line buf rest => buf :: rest.lines
  | conflict start one ancestor original middle two stop rest =>
    start :: (one.lines ++ (ancestor.toList ++ original.lines ++ middle :: (two.lines ++ stop :: rest.lines)))

def bytes (t : MarkedText) : List UInt8 := t.lines.flatten

def IsLine (buf : Line) : Prop := ∃ content, newline ∉ content ∧ buf = content ++ [newline]

def IsLastLine (buf : Line) (rest : MarkedText) : Prop := IsLine buf ∨ (rest = nil ∧ newline ∉ buf ∧ buf ≠ [])

def Inside (markerSize : Nat) : MarkedText → Prop
  | nil => True
  | line buf rest => IsLine buf ∧ markerOf markerSize buf = none ∧ rest.Inside markerSize
  | conflict start one ancestor original middle two stop rest =>
    (IsLine start ∧ markerOf markerSize start = some .start) ∧ one.Inside markerSize ∧
      ((ancestor = none ∧ original = nil) ∨
        ∃ marker, ancestor = some marker ∧ IsLine marker ∧ markerOf markerSize marker = some .original) ∧
      original.Inside markerSize ∧ (IsLine middle ∧ markerOf markerSize middle = some .middle) ∧
      two.Inside markerSize ∧ (IsLine stop ∧ markerOf markerSize stop = some .stop) ∧ rest.Inside markerSize

/-- A file with well-formed conflict markers. Outside of conflicts only the start of a conflict is a marker. -/
def WellFormed (markerSize : Nat) : MarkedText → Prop
  | nil => True
  | line buf rest => IsLastLine buf rest ∧ markerOf markerSize buf ≠ some .start ∧ rest.WellFormed markerSize
  | conflict start one ancestor original middle two stop rest =>
    (IsLine start ∧ markerOf markerSize start = some .start) ∧ one.Inside markerSize ∧
      ((ancestor = none ∧ original = nil) ∨
        ∃ marker, ancestor = some marker ∧ IsLine marker ∧ markerOf markerSize marker = some .original) ∧
      original.Inside markerSize ∧ (IsLine middle ∧ markerOf markerSize middle = some .middle) ∧
      two.Inside markerSize ∧ (IsLastLine stop rest ∧ markerOf markerSize stop = some .stop) ∧
      rest.WellFormed markerSize

/-- What a side has after this text, or what an ancestor leaves of it: the conflicts, and the lines if they are kept. -/
def accumulated (markerSize : Nat) (keepLines : Bool) : MarkedText → Strbuf
  | nil => []
  | line buf rest => (if keepLines then buf else []) ++ rest.accumulated markerSize keepLines
  | conflict _ one _ original _ two _ rest =>
    (Sides.ordered ⟨one.accumulated markerSize true,
      original.accumulated markerSize false ++ two.accumulated markerSize true⟩).out markerSize ++
      rest.accumulated markerSize keepLines

def sides (markerSize : Nat) (one original two : MarkedText) : Sides :=
  ⟨one.accumulated markerSize true, original.accumulated markerSize false ++ two.accumulated markerSize true⟩

end MarkedText

open MarkedText

def ConflictState.behind (markerSize : Nat) (st : ConflictState) (t : MarkedText) : ConflictState :=
  match st.hunk with
  | .rrSide1 => ⟨.rrSide1, st.sides.one ++ t.accumulated markerSize true, st.sides.two⟩
  | .rrOriginal => ⟨.rrOriginal, st.sides.one, st.sides.two ++ t.accumulated markerSize false⟩
  | .rrSide2 => ⟨.rrSide2, st.sides.one, st.sides.two ++ t.accumulated markerSize true⟩

lemma behind_line (rest : MarkedText) :
    st.behind markerSize (.line buf rest) = (st.addLine buf).behind markerSize rest := by
  obtain ⟨hunk, sides⟩ := st
  cases hunk <;>
    simp [ConflictState.behind, ConflictState.addLine, accumulated]

lemma behind_conflict (start middle stop : Line) (ancestor : Option Line) (one original two rest : MarkedText) :
    st.behind markerSize (.conflict start one ancestor original middle two stop rest) =
      (st.addConflict ((sides markerSize one original two).ordered.out markerSize)).behind markerSize rest := by
  obtain ⟨hunk, sides⟩ := st
  cases hunk <;>
    simp [ConflictState.behind, ConflictState.addConflict, accumulated, MarkedText.sides]

def ReadsThrough (markerSize : Nat) (t : MarkedText) : Prop :=
  ∀ st io, readConflict markerSize st (t.lines ++ io) = readConflict markerSize (st.behind markerSize t) io

lemma readConflict_body {ancestor : Option Line} {one original two : MarkedText} {middle stop : Line}
    (hone : ReadsThrough markerSize one) (horiginal : ReadsThrough markerSize original)
    (htwo : ReadsThrough markerSize two)
    (hancestor : (ancestor = none ∧ original = nil) ∨
      ∃ marker, ancestor = some marker ∧ IsLine marker ∧ markerOf markerSize marker = some .original)
    (hmiddle : markerOf markerSize middle = some .middle) (hstop : markerOf markerSize stop = some .stop) :
    readConflict markerSize .initial
        (one.lines ++ (ancestor.toList ++ original.lines ++ middle :: (two.lines ++ stop :: io))) =
      some ((sides markerSize one original two).ordered, io) := by
  have hend : ∀ hunk : Hunk, hunk ≠ .rrSide2 →
      readConflict markerSize
          ⟨hunk, one.accumulated markerSize true, original.accumulated markerSize false⟩
          (middle :: (two.lines ++ stop :: io)) =
        some ((sides markerSize one original two).ordered, io) := by
    intro hunk hhunk
    rw [readConflict_middle hmiddle hhunk, htwo, readConflict_stop hstop rfl]
    rfl
  rw [hone]
  obtain ⟨rfl, rfl⟩ | ⟨marker, rfl, -, hmarker⟩ := hancestor
  · exact hend .rrSide1 (by decide)
  · rw [Option.toList_some, List.append_assoc, List.singleton_append, readConflict_original hmarker rfl, horiginal]
    exact hend .rrOriginal (by decide)

lemma readsThrough_of_inside (t : MarkedText) (ht : t.Inside markerSize) : ReadsThrough markerSize t := by
  induction t with
  | nil =>
    intro st io
    have hbehind : st.behind markerSize .nil = st := by
      obtain ⟨hunk, sides⟩ := st
      cases hunk <;> simp [ConflictState.behind, accumulated]
    rw [hbehind, lines, List.nil_append]
  | line buf rest ih =>
    obtain ⟨-, hmarker, hrest⟩ := ht
    intro st io
    rw [lines, List.cons_append, readConflict_line hmarker, ih hrest, behind_line]
  | conflict start one ancestor original middle two stop rest ihOne ihOriginal ihTwo ihRest =>
    obtain ⟨⟨-, hstart⟩, hone, hancestor, horiginal, ⟨-, hmiddle⟩, htwo, ⟨-, hstop⟩, hrest⟩ := ht
    intro st io
    have hbody := @readConflict_body _ (rest.lines ++ io) _ _ _ _ _ _ (ihOne hone) (ihOriginal horiginal) (ihTwo htwo) hancestor
      hmiddle hstop
    have hlines : (MarkedText.conflict start one ancestor original middle two stop rest).lines ++ io =
        start :: (one.lines ++
          (ancestor.toList ++ original.lines ++ middle :: (two.lines ++ stop :: (rest.lines ++ io)))) := by
      simp only [lines, List.cons_append, List.append_assoc]
    rw [hlines, readConflict_start hstart, hbody, Option.bind_some, ihRest hrest, behind_conflict]

def hashedOf (markerSize : Nat) : MarkedText → List UInt8
  | nil => []
  | line _ rest => hashedOf markerSize rest
  | conflict _ one _ original _ two _ rest =>
    (sides markerSize one original two).ordered.hashed ++ hashedOf markerSize rest

def writtenOf (markerSize : Nat) : MarkedText → List UInt8
  | nil => []
  | line buf rest => putstr buf ++ writtenOf markerSize rest
  | conflict _ one _ original _ two _ rest =>
    (sides markerSize one original two).ordered.out markerSize ++ writtenOf markerSize rest

def hasConflictsOf (hasConflicts : Int) : MarkedText → Int
  | nil => hasConflicts
  | line _ rest => hasConflictsOf hasConflicts rest
  | conflict _ _ _ _ _ _ _ rest => hasConflictsOf 1 rest

lemma isCmarker_start : isCmarker buf 0x3c markerSize = true ↔ markerOf markerSize buf = some .start := by
  rw [markerOf]
  split_ifs with hstart <;> simp [hstart]

lemma pathLoop_lines (t : MarkedText) (ht : t.WellFormed markerSize) (st : PathState) :
    pathLoop markerSize st t.lines =
      ⟨hasConflictsOf st.hasConflicts t, st.hashed ++ hashedOf markerSize t, st.written ++ writtenOf markerSize t⟩ := by
  induction t generalizing st with
  | nil =>
    rw [lines, pathLoop]
    simp [hasConflictsOf, hashedOf, writtenOf]
  | line buf rest ih =>
    obtain ⟨-, hmarker, hrest⟩ := ht
    rw [lines, pathLoop, if_neg (isCmarker_start.not.mpr hmarker), ih hrest]
    simp [hasConflictsOf, hashedOf, writtenOf]
  | conflict start one ancestor original middle two stop rest ihOne ihOriginal ihTwo ihRest =>
    obtain ⟨⟨-, hstart⟩, hone, hancestor, horiginal, ⟨-, hmiddle⟩, htwo, ⟨-, hstop⟩, hrest⟩ := ht
    have hbody := @readConflict_body _ rest.lines _ _ _ _ _ _ (readsThrough_of_inside one hone)
      (readsThrough_of_inside original horiginal) (readsThrough_of_inside two htwo) hancestor hmiddle hstop
    rw [lines, pathLoop, if_pos (isCmarker_start.mpr hstart), handleConflict]
    rw [readConflict] at hbody
    cases hread : conflictLoop markerSize .initial
        (one.lines ++ (ancestor.toList ++ original.lines ++ middle :: (two.lines ++ stop :: rest.lines))) with
    | none =>
      rw [hread] at hbody
      cases hbody
    | some read =>
      obtain ⟨⟨found, rest'⟩, hlt⟩ := read
      rw [hread] at hbody
      obtain ⟨rfl, rfl⟩ := Prod.mk.inj (Option.some.inj hbody)
      dsimp only
      rw [ihRest hrest]
      simp [hasConflictsOf, hashedOf, writtenOf]

lemma getlines_line {content : List UInt8} (h : newline ∉ content) (input : List UInt8) :
    getlines (content ++ [newline] ++ input) = (content ++ [newline]) :: getlines input := by
  induction content with
  | nil => rw [List.nil_append, List.singleton_append, getlines, if_pos rfl]
  | cons c content ih =>
    obtain ⟨hc, hcontent⟩ := not_or.mp (List.mem_cons.not.mp h)
    rw [List.cons_append, List.cons_append, getlines, if_neg (Ne.symm hc), ih hcontent]

lemma getlines_last {content : List UInt8} (h : newline ∉ content) (hne : content ≠ []) :
    getlines content = [content] := by
  induction content with
  | nil => exact absurd rfl hne
  | cons c content ih =>
    obtain ⟨hc, hcontent⟩ := not_or.mp (List.mem_cons.not.mp h)
    rw [getlines, if_neg (Ne.symm hc)]
    cases content with
    | nil => rfl
    | cons d content => rw [ih hcontent (List.cons_ne_nil _ _)]

lemma getlines_isLine (h : IsLine buf) (input : List UInt8) : getlines (buf ++ input) = buf :: getlines input := by
  obtain ⟨content, hcontent, rfl⟩ := h
  exact getlines_line hcontent input

lemma getlines_isLastLine {rest : MarkedText} (h : IsLastLine buf rest) :
    getlines (buf ++ rest.bytes) = buf :: getlines rest.bytes := by
  obtain hline | ⟨rfl, hcontent, hne⟩ := h
  · exact getlines_isLine hline _
  · have hnil : (MarkedText.nil).bytes = [] := rfl
    rw [hnil, List.append_nil, getlines_last hcontent hne]
    rfl

lemma getlines_inside (t : MarkedText) (ht : t.Inside markerSize) (input : List UInt8) :
    getlines (t.lines.flatten ++ input) = t.lines ++ getlines input := by
  induction t generalizing input with
  | nil => rfl
  | line buf rest ih =>
    obtain ⟨hline, -, hrest⟩ := ht
    rw [lines, List.flatten_cons, List.append_assoc, getlines_isLine hline, ih hrest]
    rfl
  | conflict start one ancestor original middle two stop rest ihOne ihOriginal ihTwo ihRest =>
    obtain ⟨⟨hstart, -⟩, hone, hancestor, horiginal, ⟨hmiddle, -⟩, htwo, ⟨hstop, -⟩, hrest⟩ := ht
    have hmarker : ∀ input, getlines (ancestor.toList.flatten ++ input) = ancestor.toList ++ getlines input := by
      intro input
      obtain ⟨rfl, -⟩ | ⟨marker, rfl, hmarker, -⟩ := hancestor
      · rfl
      · rw [Option.toList_some, List.flatten_singleton, getlines_isLine hmarker]
        rfl
    simp only [lines, List.flatten_cons, List.flatten_append, List.append_assoc, List.cons_append]
    rw [getlines_isLine hstart, ihOne hone, hmarker, ihOriginal horiginal, getlines_isLine hmiddle, ihTwo htwo,
      getlines_isLine hstop, ihRest hrest]

lemma getlines_bytes (t : MarkedText) (ht : t.WellFormed markerSize) : getlines t.bytes = t.lines := by
  induction t with
  | nil => rfl
  | line buf rest ih =>
    obtain ⟨hline, -, hrest⟩ := ht
    rw [bytes, lines, List.flatten_cons]
    exact (getlines_isLastLine hline).trans (by rw [ih hrest])
  | conflict start one ancestor original middle two stop rest ihOne ihOriginal ihTwo ihRest =>
    obtain ⟨⟨hstart, -⟩, hone, hancestor, horiginal, ⟨hmiddle, -⟩, htwo, ⟨hstop, -⟩, hrest⟩ := ht
    have hmarker : ∀ input, getlines (ancestor.toList.flatten ++ input) = ancestor.toList ++ getlines input := by
      intro input
      obtain ⟨rfl, -⟩ | ⟨marker, rfl, hmarker, -⟩ := hancestor
      · rfl
      · rw [Option.toList_some, List.flatten_singleton, getlines_isLine hmarker]
        rfl
    simp only [bytes, lines, List.flatten_cons, List.flatten_append, List.append_assoc]
    rw [getlines_isLine hstart, getlines_inside one hone, hmarker, getlines_inside original horiginal,
      getlines_isLine hmiddle, getlines_inside two htwo]
    have hlast := (getlines_isLastLine hstop).trans (by rw [ihRest hrest])
    rw [bytes] at hlast
    rw [hlast]

theorem handlePath_bytes {Hash : Type} (hashAlgo : List UInt8 → Hash) {t : MarkedText} (ht : t.WellFormed markerSize) :
    handlePath hashAlgo t.bytes markerSize =
      ⟨hasConflictsOf 0 t, hashAlgo (hashedOf markerSize t), writtenOf markerSize t⟩ := by
  rw [handlePath, getlines_bytes t ht, pathLoop_lines t ht]
  rfl

namespace MarkedText

def NoConflict : MarkedText → Prop
  | nil => True
  | line _ rest => rest.NoConflict
  | conflict .. => False

def PlainAncestors : MarkedText → Prop
  | nil => True
  | line _ rest => rest.PlainAncestors
  | conflict _ one _ original _ two _ rest =>
    one.PlainAncestors ∧ original.NoConflict ∧ two.PlainAncestors ∧ rest.PlainAncestors

/-- The sides of some conflicts, nested ones too, are exchanged, and common ancestors are removed or replaced. -/
inductive Variant : MarkedText → MarkedText → Prop
  | nil : Variant nil nil
  | line {buf rest rest'} (hrest : Variant rest rest') : Variant (line buf rest) (line buf rest')
  | keep {start start' one one' ancestor ancestor' original original' middle middle' two two' stop stop' rest rest'}
      (hone : Variant one one') (htwo : Variant two two') (hrest : Variant rest rest') :
      Variant (conflict start one ancestor original middle two stop rest)
        (conflict start' one' ancestor' original' middle' two' stop' rest')
  | exchange {start start' one one' ancestor ancestor' original original' middle middle' two two' stop stop' rest rest'}
      (hone : Variant one one') (htwo : Variant two two') (hrest : Variant rest rest') :
      Variant (conflict start one ancestor original middle two stop rest)
        (conflict start' two' ancestor' original' middle' one' stop' rest')

end MarkedText

lemma ordered_swap (one two : Strbuf) : Sides.ordered ⟨one, two⟩ = Sides.ordered ⟨two, one⟩ := by
  rw [Sides.ordered, Sides.ordered]
  dsimp only
  obtain hlt | rfl | hgt := lt_trichotomy one two
  · rw [if_neg hlt.not_gt, if_pos hlt]
  · rfl
  · rw [if_pos hgt, if_neg hgt.not_gt]

lemma accumulated_of_noConflict {t : MarkedText} (h : t.NoConflict) : t.accumulated markerSize false = [] := by
  induction t with
  | nil => rfl
  | line buf rest ih =>
    rw [accumulated, ih h]
    rfl
  | conflict => exact h.elim

lemma accumulated_variant {t t' : MarkedText} (h : Variant t t') (ht : t.PlainAncestors) (ht' : t'.PlainAncestors)
    (keepLines : Bool) : t'.accumulated markerSize keepLines = t.accumulated markerSize keepLines := by
  induction h generalizing keepLines with
  | nil => rfl
  | line _ ih => rw [accumulated, accumulated, ih ht ht']
  | keep _ _ _ ihOne ihTwo ihRest =>
    obtain ⟨hone, horiginal, htwo, hrest⟩ := ht
    obtain ⟨hone', horiginal', htwo', hrest'⟩ := ht'
    rw [accumulated, accumulated, accumulated_of_noConflict horiginal, accumulated_of_noConflict horiginal',
      ihOne hone hone', ihTwo htwo htwo', ihRest hrest hrest']
  | exchange _ _ _ ihOne ihTwo ihRest =>
    obtain ⟨hone, horiginal, htwo, hrest⟩ := ht
    obtain ⟨hone', horiginal', htwo', hrest'⟩ := ht'
    rw [accumulated, accumulated, accumulated_of_noConflict horiginal, accumulated_of_noConflict horiginal',
      ihOne hone htwo', ihTwo htwo hone', ihRest hrest hrest', List.nil_append, List.nil_append, ordered_swap]

lemma ordered_variant {one one' original original' two two' : MarkedText} (hone : Variant one one')
    (htwo : Variant two two') (hplain : one.PlainAncestors ∧ original.NoConflict ∧ two.PlainAncestors)
    (hplain' : one'.PlainAncestors ∧ original'.NoConflict ∧ two'.PlainAncestors) :
    (sides markerSize one' original' two').ordered = (sides markerSize one original two).ordered ∧
      (sides markerSize two' original' one').ordered = (sides markerSize one original two).ordered := by
  have hkeep : sides markerSize one' original' two' = sides markerSize one original two := by
    rw [sides, sides, accumulated_of_noConflict hplain.2.1, accumulated_of_noConflict hplain'.2.1,
      accumulated_variant hone hplain.1 hplain'.1, accumulated_variant htwo hplain.2.2 hplain'.2.2]
  refine ⟨congrArg Sides.ordered hkeep, ?_⟩
  rw [← hkeep, sides, sides, accumulated_of_noConflict hplain'.2.1, List.nil_append, List.nil_append, ordered_swap]

lemma handled_variant {t t' : MarkedText} (h : Variant t t') (ht : t.PlainAncestors) (ht' : t'.PlainAncestors)
    (hasConflicts : Int) :
    hasConflictsOf hasConflicts t' = hasConflictsOf hasConflicts t ∧
      hashedOf markerSize t' = hashedOf markerSize t ∧ writtenOf markerSize t' = writtenOf markerSize t := by
  induction h generalizing hasConflicts with
  | nil => exact ⟨rfl, rfl, rfl⟩
  | line _ ih =>
    obtain ⟨hhas, hhashed, hwritten⟩ := ih ht ht' hasConflicts
    exact ⟨hhas, hhashed, by rw [writtenOf, writtenOf, hwritten]⟩
  | keep hone htwo _ _ _ ihRest =>
    obtain ⟨hplain, horiginal, hplainTwo, hrest⟩ := ht
    obtain ⟨hplain', horiginal', hplainTwo', hrest'⟩ := ht'
    obtain ⟨hhas, hhashed, hwritten⟩ := ihRest hrest hrest' 1
    have hordered := (@ordered_variant markerSize _ _ _ _ _ _ hone htwo ⟨hplain, horiginal, hplainTwo⟩
      ⟨hplain', horiginal', hplainTwo'⟩).1
    exact ⟨hhas, by rw [hashedOf, hashedOf, hordered, hhashed], by rw [writtenOf, writtenOf, hordered, hwritten]⟩
  | exchange hone htwo _ _ _ ihRest =>
    obtain ⟨hplain, horiginal, hplainTwo, hrest⟩ := ht
    obtain ⟨hplainTwo', horiginal', hplain', hrest'⟩ := ht'
    obtain ⟨hhas, hhashed, hwritten⟩ := ihRest hrest hrest' 1
    have hordered := (@ordered_variant markerSize _ _ _ _ _ _ hone htwo ⟨hplain, horiginal, hplainTwo⟩
      ⟨hplain', horiginal', hplainTwo'⟩).2
    exact ⟨hhas, by rw [hashedOf, hashedOf, hordered, hhashed], by rw [writtenOf, writtenOf, hordered, hwritten]⟩

def MarkedText.withoutAncestors : MarkedText → MarkedText
  | nil => nil
  | line buf rest => line buf rest.withoutAncestors
  | conflict start one _ _ middle two stop rest =>
    conflict start one.withoutAncestors none nil middle two.withoutAncestors stop rest.withoutAncestors

lemma variant_withoutAncestors (t : MarkedText) : Variant t t.withoutAncestors := by
  induction t with
  | nil => exact .nil
  | line buf rest ih => exact .line ih
  | conflict start one ancestor original middle two stop rest ihOne _ ihTwo ihRest => exact .keep ihOne ihTwo ihRest

lemma plainAncestors_withoutAncestors (t : MarkedText) : t.withoutAncestors.PlainAncestors := by
  induction t with
  | nil => trivial
  | line buf rest ih => exact ih
  | conflict start one ancestor original middle two stop rest ihOne _ ihTwo ihRest =>
    exact ⟨ihOne, trivial, ihTwo, ihRest⟩

lemma inside_withoutAncestors (t : MarkedText) (h : t.Inside markerSize) : t.withoutAncestors.Inside markerSize := by
  induction t with
  | nil => trivial
  | line buf rest ih => exact ⟨h.1, h.2.1, ih h.2.2⟩
  | conflict start one ancestor original middle two stop rest ihOne _ ihTwo ihRest =>
    obtain ⟨hstart, hone, -, -, hmiddle, htwo, hstop, hrest⟩ := h
    exact ⟨hstart, ihOne hone, .inl ⟨rfl, rfl⟩, trivial, hmiddle, ihTwo htwo, hstop, ihRest hrest⟩

lemma isLastLine_withoutAncestors {rest : MarkedText} (h : IsLastLine buf rest) :
    IsLastLine buf rest.withoutAncestors := by
  obtain hline | ⟨rfl, hlast⟩ := h
  · exact .inl hline
  · exact .inr ⟨rfl, hlast⟩

lemma wellFormed_withoutAncestors (t : MarkedText) (h : t.WellFormed markerSize) :
    t.withoutAncestors.WellFormed markerSize := by
  induction t with
  | nil => trivial
  | line buf rest ih => exact ⟨isLastLine_withoutAncestors h.1, h.2.1, ih h.2.2⟩
  | conflict start one ancestor original middle two stop rest _ _ _ ihRest =>
    obtain ⟨hstart, hone, -, -, hmiddle, htwo, hstop, hrest⟩ := h
    exact ⟨hstart, inside_withoutAncestors one hone, .inl ⟨rfl, rfl⟩, trivial, hmiddle,
      inside_withoutAncestors two htwo, ⟨isLastLine_withoutAncestors hstop.1, hstop.2⟩, ihRest hrest⟩

lemma length_ordered_out (sides : Sides) :
    (sides.ordered.out markerSize).length = 3 * (markerSize + 1) + sides.one.length + sides.two.length := by
  rw [Sides.ordered]
  split_ifs <;> simp only [Sides.out, putconflict, List.length_append, List.length_replicate,
    List.length_singleton] <;> omega

lemma length_accumulated_pos {t : MarkedText} (h : ¬t.NoConflict) (keepLines : Bool) :
    0 < (t.accumulated markerSize keepLines).length := by
  induction t with
  | nil => exact absurd trivial h
  | line buf rest ih =>
    rw [accumulated, List.length_append]
    exact Nat.add_pos_right _ (ih h)
  | conflict start one ancestor original middle two stop rest =>
    rw [accumulated, List.length_append, length_ordered_out]
    omega

lemma length_accumulated_withoutAncestors (t : MarkedText) (keepLines : Bool) :
    (t.withoutAncestors.accumulated markerSize keepLines).length ≤ (t.accumulated markerSize keepLines).length ∧
      (¬t.PlainAncestors → (t.withoutAncestors.accumulated markerSize keepLines).length <
        (t.accumulated markerSize keepLines).length) := by
  induction t generalizing keepLines with
  | nil => exact ⟨le_refl _, fun h => absurd trivial h⟩
  | line buf rest ih =>
    obtain ⟨hle, hlt⟩ := ih keepLines
    simp only [withoutAncestors, accumulated, List.length_append]
    exact ⟨Nat.add_le_add_left hle _, fun h => Nat.add_lt_add_left (hlt h) _⟩
  | conflict start one ancestor original middle two stop rest ihOne _ ihTwo ihRest =>
    obtain ⟨hleOne, hltOne⟩ := ihOne true
    obtain ⟨hleTwo, hltTwo⟩ := ihTwo true
    obtain ⟨hleRest, hltRest⟩ := ihRest keepLines
    have hnil : (nil.accumulated markerSize false).length = 0 := rfl
    simp only [withoutAncestors, accumulated, List.length_append, length_ordered_out] at hnil ⊢
    refine ⟨by omega, fun h => ?_⟩
    obtain hone | hone := not_and_or.mp h
    · have := hltOne hone
      omega
    · obtain horiginal | htwo := not_and_or.mp hone
      · have := @length_accumulated_pos markerSize _ horiginal false
        omega
      · obtain htwo | hrest := not_and_or.mp htwo
        · have := hltTwo htwo
          omega
        · have := hltRest hrest
          omega

lemma length_writtenOf_withoutAncestors (t : MarkedText) :
    (writtenOf markerSize t.withoutAncestors).length ≤ (writtenOf markerSize t).length ∧
      (¬t.PlainAncestors → (writtenOf markerSize t.withoutAncestors).length < (writtenOf markerSize t).length) := by
  induction t with
  | nil => exact ⟨le_refl _, fun h => absurd trivial h⟩
  | line buf rest ih =>
    obtain ⟨hle, hlt⟩ := ih
    simp only [withoutAncestors, writtenOf, List.length_append]
    exact ⟨Nat.add_le_add_left hle _, fun h => Nat.add_lt_add_left (hlt h) _⟩
  | conflict start one ancestor original middle two stop rest _ _ _ ihRest =>
    obtain ⟨hleRest, hltRest⟩ := ihRest
    obtain ⟨hleConflict, hltConflict⟩ := @length_accumulated_withoutAncestors markerSize
      (conflict start one ancestor original middle two stop nil) true
    simp only [withoutAncestors, accumulated, List.append_nil] at hleConflict hltConflict
    simp only [withoutAncestors, writtenOf, sides, List.length_append]
    refine ⟨Nat.add_le_add hleConflict hleRest, fun h => ?_⟩
    by_cases hrest : rest.PlainAncestors
    · have hplain : ¬(conflict start one ancestor original middle two stop nil).PlainAncestors :=
        fun hno => h ⟨hno.1, hno.2.1, hno.2.2.1, hrest⟩
      exact Nat.add_lt_add_of_lt_of_le (hltConflict hplain) hleRest
    · exact Nat.add_lt_add_of_le_of_lt hleConflict (hltRest hrest)

/-- Among the files that differ by exchanged sides and by common ancestors without conflicts, a file has the id and
the output of the others if no common ancestor has a conflict in it either, and only then. -/
theorem handlePath_variant {Hash : Type} (hashAlgo : List UInt8 → Hash) (markerSize : Nat) (t : MarkedText)
    (ht : t.WellFormed markerSize) :
    (∀ t', Variant t t' → t'.WellFormed markerSize → t'.PlainAncestors →
      handlePath hashAlgo t'.bytes markerSize = handlePath hashAlgo t.bytes markerSize) ↔ t.PlainAncestors := by
  constructor
  · intro hsame
    by_contra hplain
    have hstripped := hsame t.withoutAncestors (variant_withoutAncestors t) (wellFormed_withoutAncestors t ht)
      (plainAncestors_withoutAncestors t)
    rw [handlePath_bytes hashAlgo ht, handlePath_bytes hashAlgo (wellFormed_withoutAncestors t ht)] at hstripped
    have hlt := (@length_writtenOf_withoutAncestors markerSize t).2 hplain
    have hwritten : writtenOf markerSize t.withoutAncestors = writtenOf markerSize t :=
      congrArg HandledPath.output hstripped
    rw [hwritten] at hlt
    exact lt_irrefl _ hlt
  · intro hplain t' hvariant ht' hplain'
    obtain ⟨hhas, hhashed, hwritten⟩ := @handled_variant markerSize _ _ hvariant hplain hplain' 0
    rw [handlePath_bytes hashAlgo ht, handlePath_bytes hashAlgo ht', hhas, hhashed, hwritten]

def asciiLine (s : String) : Line := s.toList.map (fun c => UInt8.ofNat c.toNat) ++ [newline]

lemma isLine_asciiLine {s : String} (h : newline ∉ s.toList.map fun c => UInt8.ofNat c.toNat) : IsLine (asciiLine s) :=
  ⟨_, h, rfl⟩

def threeWay (original : MarkedText) : MarkedText :=
  .conflict (asciiLine "<<<<<<< ours") (.line (asciiLine "x") .nil) (some (asciiLine "||||||| base")) original
    (asciiLine "=======") (.line (asciiLine "w") .nil) (asciiLine ">>>>>>> theirs") .nil

def nestedConflict : MarkedText :=
  .conflict (asciiLine "<<<<<<< a") (.line (asciiLine "y") .nil) none .nil (asciiLine "=======")
    (.line (asciiLine "z") .nil) (asciiLine ">>>>>>> b") .nil

lemma wellFormed_threeWay {original : MarkedText} (h : original.Inside 7) : (threeWay original).WellFormed 7 :=
  ⟨⟨isLine_asciiLine (by decide), by decide⟩, ⟨isLine_asciiLine (by decide), by decide, trivial⟩,
    .inr ⟨_, rfl, isLine_asciiLine (by decide), by decide⟩, h, ⟨isLine_asciiLine (by decide), by decide⟩,
    ⟨isLine_asciiLine (by decide), by decide, trivial⟩, ⟨.inl (isLine_asciiLine (by decide)), by decide⟩, trivial⟩

lemma inside_nestedConflict : nestedConflict.Inside 7 :=
  ⟨⟨isLine_asciiLine (by decide), by decide⟩, ⟨isLine_asciiLine (by decide), by decide, trivial⟩,
    .inl ⟨rfl, rfl⟩, trivial, ⟨isLine_asciiLine (by decide), by decide⟩,
    ⟨isLine_asciiLine (by decide), by decide, trivial⟩, ⟨isLine_asciiLine (by decide), by decide⟩, trivial⟩

theorem handlePath_variant_threeWay :
    (∀ t', Variant (threeWay (.line (asciiLine "y") .nil)) t' → t'.WellFormed 7 → t'.PlainAncestors →
      handlePath id t'.bytes 7 = handlePath id (threeWay (.line (asciiLine "y") .nil)).bytes 7) ↔
      (threeWay (.line (asciiLine "y") .nil)).PlainAncestors :=
  handlePath_variant id 7 _ (wellFormed_threeWay ⟨isLine_asciiLine (by decide), by decide, trivial⟩)

/-- An ancestor with a conflict changes the id and the output. -/
theorem handlePath_nestedConflict :
    ¬∀ (hashAlgo : List UInt8 → List UInt8) (markerSize : Nat) (t t' : MarkedText), t.WellFormed markerSize →
      t'.WellFormed markerSize → Variant t t' →
      (handlePath hashAlgo t'.bytes markerSize).hash = (handlePath hashAlgo t.bytes markerSize).hash ∧
        (handlePath hashAlgo t'.bytes markerSize).output = (handlePath hashAlgo t.bytes markerSize).output := by
  intro hclaim
  have hnested : (threeWay nestedConflict).WellFormed 7 := wellFormed_threeWay inside_nestedConflict
  have hsame := hclaim id 7 _ _ hnested (wellFormed_withoutAncestors _ hnested) (variant_withoutAncestors _)
  rw [handlePath_bytes id hnested, handlePath_bytes id (wellFormed_withoutAncestors _ hnested)] at hsame
  exact absurd hsame.1 (by decide)

end GitCore.Rerere
