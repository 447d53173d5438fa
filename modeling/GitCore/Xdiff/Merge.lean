import GitCore.Lib.Bytes
import GitCore.Xdiff.Compact

/-!
# Three-way merges

`xdl_do_merge` of `xmerge.c` up to the level `XDL_MERGE_EAGER`: the hunks of two edit scripts of one
base, and the result that is made from them. The lines of the files may be anything that `recmatch`
compares; no number of lines comes near the bounds of an `int`.
-/

namespace GitCore.Xdiff

def XDL_MERGE_MINIMAL : Nat := 0

def XDL_MERGE_EAGER : Nat := 1

def XDL_MERGE_DIFF3 : Nat := 1

def XDL_MERGE_ZEALOUS_DIFF3 : Nat := 2

def DEFAULT_CONFLICT_MARKER_SIZE : Nat := 7

/-- `xdmerge_t`: the mode is 0 for a conflict, 1 for the first side, 2 for the second. -/
structure XdMerge where
  mode : Nat
  i0 : Int
  chg0 : Int
  i1 : Int
  chg1 : Int
  i2 : Int
  chg2 : Int
  deriving DecidableEq

/-- `xdl_append_merge`; the last hunk is the first of the list. -/
def appendMerge (merge : List XdMerge) (mode : Nat) (i0 chg0 i1 chg1 i2 chg2 : Int) : List XdMerge :=
  match merge with
  | [] => [⟨mode, i0, chg0, i1, chg1, i2, chg2⟩]
  | m :: rest =>
    if i1 ≤ m.i1 + m.chg1 ∨ i2 ≤ m.i2 + m.chg2 then
      { m with
        mode := if mode ≠ m.mode then 0 else m.mode
        chg0 := i0 + chg0 - m.i0
        chg1 := i1 + chg1 - m.i1
        chg2 := i2 + chg2 - m.i2 } :: rest
    else ⟨mode, i0, chg0, i1, chg1, i2, chg2⟩ :: m :: rest

section

variable {α : Type*} (recmatch : α → α → Prop) [DecidableRel recmatch]

def lineMatch : Option α → Option α → Prop
  | some rec1, some rec2 => recmatch rec1 rec2
  | _, _ => False

instance decidableLineMatch : (rec1 rec2 : Option α) → Decidable (lineMatch recmatch rec1 rec2)
  | some _, some _ => inferInstanceAs (Decidable (recmatch _ _))
  | none, _ => isFalse id
  | some _, none => isFalse id

variable (base side1 side2 : List α)

def mergeCmpLines (i1 i2 lineCount : Nat) : Prop :=
  ∀ i, i < lineCount → lineMatch recmatch (side1[i1 + i]?) (side2[i2 + i]?)

instance decidableMergeCmpLines (i1 i2 lineCount : Nat) :
    Decidable (mergeCmpLines recmatch side1 side2 i1 i2 lineCount) :=
  Nat.decidableBallLT lineCount _

def SameChange (xscr1 xscr2 : XdChange) : Prop :=
  xscr1.i1 = xscr2.i1 ∧ xscr1.chg1 = xscr2.chg1 ∧ xscr1.chg2 = xscr2.chg2 ∧
    mergeCmpLines recmatch side1 side2 xscr1.i2 xscr2.i2 xscr1.chg2

instance decidableSameChange (xscr1 xscr2 : XdChange) :
    Decidable (SameChange recmatch side1 side2 xscr1 xscr2) :=
  inferInstanceAs (Decidable (_ ∧ _))

def appendConflict (xscr1 xscr2 : XdChange) (c : List XdMerge) : List XdMerge :=
  let off : Int := (xscr1.i1 : Int) - xscr2.i1
  let ffo : Int := off + xscr1.chg1 - xscr2.chg1
  let i0 : Int := if 0 < off then xscr1.i1 - off else xscr1.i1
  let i1 : Int := if 0 < off then xscr1.i2 - off else xscr1.i2
  let i2 : Int := if 0 < off then xscr2.i2 else xscr2.i2 + off
  let chg0 : Int := xscr1.i1 + xscr1.chg1 - i0
  let chg1 : Int := xscr1.i2 + xscr1.chg2 - i1
  let chg2 : Int := xscr2.i2 + xscr2.chg2 - i2
  if ffo < 0 then appendMerge c 0 i0 (chg0 - ffo) i1 (chg1 - ffo) i2 chg2
  else appendMerge c 0 i0 chg0 i1 chg1 i2 (chg2 + ffo)

/-- The loops of `xdl_do_merge` over the two scripts. -/
def mergeLoop (level : Nat) : List XdChange → List XdChange → List XdMerge → List XdMerge
  | [], [], c => c
  | xscr1 :: next1, [], c =>
    mergeLoop level next1 [] (appendMerge c 1 xscr1.i1 xscr1.chg1 xscr1.i2 xscr1.chg2
      ((xscr1.i1 : Int) + side2.length - base.length) xscr1.chg1)
  | [], xscr2 :: next2, c =>
    mergeLoop level [] next2 (appendMerge c 2 xscr2.i1 xscr2.chg1
      ((xscr2.i1 : Int) + side1.length - base.length) xscr2.chg1 xscr2.i2 xscr2.chg2)
  | xscr1 :: next1, xscr2 :: next2, c =>
    if xscr1.i1 + xscr1.chg1 < xscr2.i1 then
      mergeLoop level next1 (xscr2 :: next2) (appendMerge c 1 xscr1.i1 xscr1.chg1 xscr1.i2 xscr1.chg2
        ((xscr2.i2 : Int) - xscr2.i1 + xscr1.i1) xscr1.chg1)
    else if xscr2.i1 + xscr2.chg1 < xscr1.i1 then
      mergeLoop level (xscr1 :: next1) next2 (appendMerge c 2 xscr2.i1 xscr2.chg1
        ((xscr1.i2 : Int) - xscr1.i1 + xscr2.i1) xscr2.chg1 xscr2.i2 xscr2.chg2)
    else
      let c :=
        if level = XDL_MERGE_MINIMAL ∨ ¬SameChange recmatch side1 side2 xscr1 xscr2 then appendConflict xscr1 xscr2 c
        else c
      if xscr2.i1 + xscr2.chg1 < xscr1.i1 + xscr1.chg1 then mergeLoop level (xscr1 :: next1) next2 c
      else if xscr1.i1 + xscr1.chg1 < xscr2.i1 + xscr2.chg1 then mergeLoop level next1 (xscr2 :: next2) c
      else mergeLoop level next1 next2 c
termination_by next1 next2 => next1.length + next2.length

def trimStart : Nat → XdMerge → XdMerge
  | 0, m => m
  | n + 1, m =>
    if m.chg1 ≠ 0 ∧ m.chg2 ≠ 0 ∧ lineMatch recmatch (side1[m.i1.toNat]?) (side2[m.i2.toNat]?) then
      trimStart n { m with i1 := m.i1 + 1, chg1 := m.chg1 - 1, i2 := m.i2 + 1, chg2 := m.chg2 - 1 }
    else m

def trimEnd : Nat → XdMerge → XdMerge
  | 0, m => m
  | n + 1, m =>
    if m.chg1 ≠ 0 ∧ m.chg2 ≠ 0 ∧
        lineMatch recmatch (side1[(m.i1 + m.chg1 - 1).toNat]?) (side2[(m.i2 + m.chg2 - 1).toNat]?) then
      trimEnd n { m with chg1 := m.chg1 - 1, chg2 := m.chg2 - 1 }
    else m

/-- `xdl_refine_zdiff3_conflicts` for one hunk; each loop runs at most once for each line. -/
def refineZdiff3 (m : XdMerge) : XdMerge :=
  if m.mode ≠ 0 then m
  else
    let m := trimStart recmatch side1 side2 m.chg1.toNat m
    trimEnd recmatch side1 side2 m.chg1.toNat m

def mergeHunks (level style : Nat) (xscr1 xscr2 : List XdChange) : List XdMerge :=
  let changes := (mergeLoop recmatch base side1 side2 level xscr1 xscr2 []).reverse
  if style = XDL_MERGE_ZEALOUS_DIFF3 then changes.map (refineZdiff3 recmatch side1 side2) else changes

end

section

variable (base side1 side2 : List (List UInt8))

def recsCopy (recs : List (List UInt8)) (i count : Int) (needsCr addNl : Bool) : List UInt8 :=
  if count < 1 then []
  else
    let lines := (recs.drop i.toNat).take count.toNat
    let last := lines.getLast?.getD []
    lines.flatten ++
      if addNl ∧ last.getLast? ≠ some 0x0a then (if needsCr then [0x0d] else []) ++ [0x0a] else []

def hasCr (line : List UInt8) : Int :=
  if 1 < line.length ∧ line.getD (line.length - 2) 0 = 0x0d then 1 else 0

def isEolCrlf (recs : List (List UInt8)) (i : Int) : Int :=
  if i < (recs.length : Int) - 1 then hasCr (recs.getD i.toNat [])
  else if recs.length = 0 then -1
  else if (recs.getD i.toNat []).getLast? = some 0x0a then hasCr (recs.getD i.toNat [])
  else if i = 0 then -1
  else hasCr (recs.getD (i - 1).toNat [])

def isCrNeeded (m : XdMerge) : Bool :=
  let needsCr := isEolCrlf side1 (if m.i1 ≠ 0 then m.i1 - 1 else 0)
  let needsCr := if needsCr ≠ 0 then isEolCrlf side2 (if m.i2 ≠ 0 then m.i2 - 1 else 0) else needsCr
  let needsCr := if needsCr ≠ 0 then isEolCrlf base 0 else needsCr
  0 < needsCr

/-- `xmparam_t` but for the options of the diff. -/
structure XmParam where
  markerSize : Int
  level : Nat
  favor : Nat
  style : Nat
  ancestor : List UInt8
  file1 : List UInt8
  file2 : List UInt8

def markerLine (c : UInt8) (markerSize : Nat) (name : List UInt8) (needsCr : Bool) : List UInt8 :=
  List.replicate markerSize c ++ ((if name = [] then [] else 0x20 :: name) ++
    ((if needsCr then [0x0d] else []) ++ [0x0a]))

/-- `fill_conflict_hunk` behind line `i` of the first side. -/
def fillConflictHunk (xmp : XmParam) (i : Int) (m : XdMerge) : List UInt8 :=
  let needsCr := isCrNeeded base side1 side2 m
  let markerSize := if xmp.markerSize ≤ 0 then DEFAULT_CONFLICT_MARKER_SIZE else xmp.markerSize.toNat
  recsCopy side1 i (m.i1 - i) false false ++
    (markerLine 0x3c markerSize xmp.file1 needsCr ++
    (recsCopy side1 m.i1 m.chg1 needsCr true ++
    ((if xmp.style = XDL_MERGE_DIFF3 ∨ xmp.style = XDL_MERGE_ZEALOUS_DIFF3 then
        markerLine 0x7c markerSize xmp.ancestor needsCr ++ recsCopy base m.i0 m.chg0 needsCr true
      else []) ++
    (markerLine 0x3d markerSize [] needsCr ++
    (recsCopy side2 m.i2 m.chg2 needsCr true ++ markerLine 0x3e markerSize xmp.file2 needsCr)))))

def favorMode (favor : Nat) (m : XdMerge) : XdMerge :=
  if favor ≠ 0 ∧ m.mode = 0 then { m with mode := favor } else m

/-- `xdl_fill_merge_buffer` behind line `i` of the first side. -/
def fillMergeBuffer (xmp : XmParam) : Int → List XdMerge → List UInt8
  | i, [] => recsCopy side1 i (side1.length - i) false false
  | i, m :: rest =>
    let m := favorMode xmp.favor m
    if m.mode = 0 then
      fillConflictHunk base side1 side2 xmp i m ++ fillMergeBuffer xmp (m.i1 + m.chg1) rest
    else if m.mode % 4 ≠ 0 then
      recsCopy side1 i (m.i1 - i) false false ++
        ((if m.mode % 2 ≠ 0 then
            recsCopy side1 m.i1 m.chg1 (isCrNeeded base side1 side2 m) (m.mode / 2 % 2 ≠ 0)
          else []) ++
        ((if m.mode / 2 % 2 ≠ 0 then recsCopy side2 m.i2 m.chg2 false false else []) ++
        fillMergeBuffer xmp (m.i1 + m.chg1) rest))
    else fillMergeBuffer xmp i rest

/-- `xdl_do_merge`: the result and the number of conflicts that are left in it. -/
def doMerge (recmatch : List UInt8 → List UInt8 → Prop) [DecidableRel recmatch] (xmp : XmParam)
    (xscr1 xscr2 : List XdChange) : List UInt8 × Nat :=
  let changes := mergeHunks recmatch base side1 side2 xmp.level xmp.style xscr1 xscr2
  (fillMergeBuffer base side1 side2 xmp 0 changes,
    (changes.map (favorMode xmp.favor)).countP (fun m => m.mode = 0))

end

end GitCore.Xdiff

/-!
# Refining conflicts

What `xdl_do_merge` does to the hunks before the output: `xdl_refine_conflicts`, which diffs both
sides of a conflict, `xdl_simplify_non_conflicts` and `xdl_refine_zdiff3_conflicts`. No whitespace
option is set, so lines match if their bytes are the same.
-/

namespace GitCore.Xdiff

def XDL_MERGE_ZEALOUS : Nat := 2

def XDL_MERGE_FAVOR_OURS : Nat := 1

def XDL_MERGE_FAVOR_THEIRS : Nat := 2

structure MmFile where
  lines : List (List UInt8)
  length_le : lines.length ≤ longMax

namespace XdFile

def lines (xdf : XdFile) : List (List UInt8) := xdf.recs.map (·.ptr)

lemma length_lines (xdf : XdFile) : xdf.lines.length = xdf.nrec := List.length_map _

lemma length_subfile_le (xdf : XdFile) (i chg : Int) : ((xdf.lines.drop i.toNat).take chg.toNat).length ≤ longMax := by
  have hle := xdf.nrec_le
  have hlines := xdf.length_lines
  rw [nrec] at hlines
  rw [List.length_take, List.length_drop]
  omega

/-- The text of `chg` lines from line `i` on. -/
def subfile (xdf : XdFile) (i chg : Int) : MmFile where
  lines := (xdf.lines.drop i.toNat).take chg.toNat
  length_le := length_subfile_le xdf i chg

end XdFile

/-- `xdl_classify_record` for the lines of a file: known classes have numbers in the order of their first lines. -/
def classifyRecords (classes : List (List UInt8)) : List (List UInt8) → List XRecord × List (List UInt8)
  | [] => ([], classes)
  | line :: lines =>
    let classes := if line ∈ classes then classes else classes ++ [line]
    let rest := classifyRecords classes lines
    (⟨line, classes.idxOf line⟩ :: rest.1, rest.2)

lemma length_classifyRecords (classes lines : List (List UInt8)) :
    (classifyRecords classes lines).1.length = lines.length := by
  induction lines generalizing classes with
  | nil => rfl
  | cons line lines ih => exact congrArg Nat.succ (ih _)

def markedFile (recs : List XRecord) (h : recs.length ≤ longMax) (flags : List Bool) : XdFile where
  recs := recs
  changed := recs.mapIdx fun i _ => flags.getD i false
  changed_length := List.length_mapIdx
  nrec_le := h

section

variable (doDiff : UInt64 → List XRecord → List XRecord → Option (List Bool × List Bool)) (flags : UInt64)

/-- `xdl_do_diff`: both files have the same classes. -/
def doDiffEnv (mf1 mf2 : MmFile) : Option XdfEnv :=
  let first := classifyRecords [] mf1.lines
  let second := classifyRecords first.2 mf2.lines
  (doDiff flags first.1 second.1).map fun changed =>
    ⟨markedFile first.1 ((length_classifyRecords _ _).trans_le mf1.length_le) changed.1,
      markedFile second.1 ((length_classifyRecords _ _).trans_le mf2.length_le) changed.2⟩

/-- `xdl_change_compact` with rounds enough. -/
def compactFile (xdf xdfo : XdFile) : Option (Except CompactBug Compacted) :=
  changeCompact doDiff flags ((xdf.nrec + 1) * (xdf.nrec + 1)) xdf xdfo

/-- `xdl_do_diff`, `xdl_change_compact` for both files and `xdl_build_script`; `none` if one of them fails. -/
def diffScript (mf1 mf2 : MmFile) : Option (List XdChange) :=
  match doDiffEnv doDiff flags mf1 mf2 with
  | none => none
  | some xe =>
    match compactFile doDiff flags xe.xdf1 xe.xdf2 with
    | some (.ok first) =>
      if first.ret < 0 then none
      else
        match compactFile doDiff flags first.xdfo first.xdf with
        | some (.ok second) => if second.ret < 0 then none else some (buildScript ⟨second.xdfo, second.xdf⟩)
        | _ => none
    | _ => none

variable (xdf1 xdf2 : XdFile)

/-- The hunks of the differences between the sides of a conflict. The base of the hunks behind the first one is not
set, and not read. -/
def splitConflict (m : XdMerge) : List XdChange → List XdMerge
  | [] => [{ m with mode := 4 }]
  | xscr :: rest =>
    { m with i1 := xscr.i1 + m.i1, chg1 := xscr.chg1, i2 := xscr.i2 + m.i2, chg2 := xscr.chg2 } ::
      rest.map fun xscr => ⟨0, 0, 0, xscr.i1 + m.i1, xscr.chg1, xscr.i2 + m.i2, xscr.chg2⟩

def refineConflict (m : XdMerge) : Option (List XdMerge) :=
  if m.mode ≠ 0 then some [m]
  else if m.chg1 = 0 ∨ m.chg2 = 0 then some [m]
  else (diffScript doDiff flags (xdf1.subfile m.i1 m.chg1) (xdf2.subfile m.i2 m.chg2)).map (splitConflict m)

def refineConflicts : List XdMerge → Option (List XdMerge)
  | [] => some []
  | m :: rest =>
    (refineConflict doDiff flags xdf1 xdf2 m).bind fun hunks => (refineConflicts rest).map (hunks ++ ·)

def linesContainAlnum (i chg : Int) : Bool :=
  ((xdf1.lines.drop i.toNat).take chg.toNat).any (·.any Config.isalnum)

def mergeTwoConflicts (m next : XdMerge) : XdMerge :=
  { m with chg1 := next.i1 + next.chg1 - m.i1, chg2 := next.i2 + next.chg2 - m.i2 }

def simplifies (simplifyIfNoAlnum : Bool) (m next : XdMerge) : Prop :=
  ¬ (m.mode ≠ 0 ∨ next.mode ≠ 0 ∨
    3 < next.i1 - (m.i1 + m.chg1) ∧
      (¬ simplifyIfNoAlnum ∨ linesContainAlnum xdf1 (m.i1 + m.chg1) (next.i1 - (m.i1 + m.chg1))))

instance (simplifyIfNoAlnum : Bool) (m next : XdMerge) : Decidable (simplifies xdf1 simplifyIfNoAlnum m next) :=
  inferInstanceAs (Decidable (¬ _))

/-- The loop of `xdl_simplify_non_conflicts`. -/
def simplifyFrom (simplifyIfNoAlnum : Bool) (m : XdMerge) : List XdMerge → List XdMerge
  | [] => [m]
  | next :: rest =>
    if simplifies xdf1 simplifyIfNoAlnum m next then simplifyFrom simplifyIfNoAlnum (mergeTwoConflicts m next) rest
    else m :: simplifyFrom simplifyIfNoAlnum next rest

def simplifyNonConflicts (simplifyIfNoAlnum : Bool) : List XdMerge → List XdMerge
  | [] => []
  | m :: rest => simplifyFrom xdf1 simplifyIfNoAlnum m rest

variable (base : List (List UInt8)) (xmp : XmParam) (xscr1 xscr2 : List XdChange)

/-- The level that `xdl_do_merge` goes by. -/
def effectiveLevel (xmp : XmParam) : Nat :=
  if (xmp.style = XDL_MERGE_DIFF3 ∨ xmp.style = XDL_MERGE_ZEALOUS_DIFF3) ∧ XDL_MERGE_EAGER < xmp.level then
    XDL_MERGE_EAGER
  else xmp.level

/-- The hunks of `xdl_do_merge` before conflicts are refined. -/
def unrefinedHunks : List XdMerge :=
  (mergeLoop Eq base xdf1.lines xdf2.lines (effectiveLevel xmp) xscr1 xscr2 []).reverse

/-- The hunks of `xdl_do_merge` before the output; `none` if a conflict cannot be refined. -/
def refinedHunks : Option (List XdMerge) :=
  let changes := unrefinedHunks xdf1 xdf2 base xmp xscr1 xscr2
  if xmp.style = XDL_MERGE_ZEALOUS_DIFF3 then some (changes.map (refineZdiff3 Eq xdf1.lines xdf2.lines))
  else if XDL_MERGE_ZEALOUS ≤ effectiveLevel xmp then
    (refineConflicts doDiff flags xdf1 xdf2 changes).map
      (simplifyNonConflicts xdf1 (decide (XDL_MERGE_ZEALOUS < effectiveLevel xmp)))
  else some changes

end

end GitCore.Xdiff
