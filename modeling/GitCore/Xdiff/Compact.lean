import GitCore.Config.Parse
import GitCore.Lib.Loop
import GitCore.Xdiff.Groups

/-!
# Sliding groups of changed lines

`xdl_change_compact` with the indent heuristic and the second diff of merged groups. `xdl_do_diff`
is a parameter: it gets the flags and the lines of two files and returns their change flags, or
fails.
-/

namespace GitCore.Xdiff

def xdfNeedMinimal : UInt64 := (1 : UInt64) <<< 0

def xdfPatienceDiff : UInt64 := (1 : UInt64) <<< 14

def xdfHistogramDiff : UInt64 := (1 : UInt64) <<< 15

def xdfDiffAlgorithmMask : UInt64 := xdfPatienceDiff ||| xdfHistogramDiff ||| xdfNeedMinimal

def xdfDiffAlg (flags : UInt64) : UInt64 := flags &&& xdfDiffAlgorithmMask

def xdfIndentHeuristic : UInt64 := (1 : UInt64) <<< 23

section Indent

def maxIndent : Int := 200

def getIndentLoop (ret : Int) : List UInt8 → Int
  | [] => -1
  | c :: cs =>
    if ¬ Config.isspace c then ret
    else
      let ret := if c = Config.space then ret + 1 else if c = Config.tab then ret + (8 - ret % 8) else ret
      if maxIndent ≤ ret then maxIndent else getIndentLoop ret cs

def getIndent (record : XRecord) : Int := getIndentLoop 0 record.ptr

def maxBlanks : Int := 20

structure SplitMeasurement where
  endOfFile : Bool
  indent : Int
  preBlank : Int
  preIndent : Int
  postBlank : Int
  postIndent : Int
deriving DecidableEq

structure SplitScore where
  effectiveIndent : Int
  penalty : Int
deriving DecidableEq

/-- Both loops of `measure_split`: the blank lines in front, and the indent of the line behind them. -/
def skipBlanks (blank : Int) : List XRecord → Int × Int
  | [] => (blank, -1)
  | record :: records =>
    if getIndent record ≠ -1 then (blank, getIndent record)
    else if blank + 1 = maxBlanks then (blank + 1, 0)
    else skipBlanks (blank + 1) records

def measureSplit (xdf : XdFile) (split : Nat) : SplitMeasurement :=
  let pre := skipBlanks 0 (xdf.recs.take split).reverse
  let post := skipBlanks 0 (xdf.recs.drop (split + 1))
  { endOfFile := decide (xdf.nrec ≤ split)
    indent := if xdf.nrec ≤ split then -1 else getIndent (xdf.line split)
    preBlank := pre.1
    preIndent := pre.2
    postBlank := post.1
    postIndent := post.2 }

def startOfFilePenalty : Int := 1

def endOfFilePenalty : Int := 21

def totalBlankWeight : Int := -30

def postBlankWeight : Int := 6

def relativeIndentPenalty : Int := -4

def relativeIndentWithBlankPenalty : Int := 10

def relativeOutdentPenalty : Int := 24

def relativeOutdentWithBlankPenalty : Int := 17

def relativeDedentPenalty : Int := 23

def relativeDedentWithBlankPenalty : Int := 17

def indentWeight : Int := 60

def indentHeuristicMaxSliding : Nat := 100

def scoreAddSplit (m : SplitMeasurement) (s : SplitScore) : SplitScore :=
  let postBlank := if m.indent = -1 then 1 + m.postBlank else 0
  let totalBlank := m.preBlank + postBlank
  let indent := if m.indent ≠ -1 then m.indent else m.postIndent
  let anyBlanks := totalBlank ≠ 0
  let relative :=
    if indent = -1 then 0
    else if m.preIndent = -1 then 0
    else if m.preIndent < indent then
      if anyBlanks then relativeIndentWithBlankPenalty else relativeIndentPenalty
    else if indent = m.preIndent then 0
    else if m.postIndent ≠ -1 ∧ indent < m.postIndent then
      if anyBlanks then relativeOutdentWithBlankPenalty else relativeOutdentPenalty
    else
      if anyBlanks then relativeDedentWithBlankPenalty else relativeDedentPenalty
  { effectiveIndent := s.effectiveIndent + indent
    penalty := s.penalty + (if m.preIndent = -1 ∧ m.preBlank = 0 then startOfFilePenalty else 0) +
      (if m.endOfFile then endOfFilePenalty else 0) + totalBlankWeight * totalBlank +
      postBlankWeight * postBlank + relative }

def scoreCmp (s1 s2 : SplitScore) : Int :=
  let cmpIndents := (if s2.effectiveIndent < s1.effectiveIndent then 1 else 0) -
    (if s1.effectiveIndent < s2.effectiveIndent then 1 else 0)
  indentWeight * cmpIndents + (s1.penalty - s2.penalty)

def shiftScore (xdf : XdFile) (groupsize shift : Nat) : SplitScore :=
  scoreAddSplit (measureSplit xdf (shift - groupsize)) (scoreAddSplit (measureSplit xdf shift) ⟨0, 0⟩)

/-- A round of the loop over the shifts; `best` is `best_shift`, `-1` at first, and `best_score`. -/
def betterShift (xdf : XdFile) (groupsize : Nat) (best : Int × SplitScore) (shift : Nat) : Int × SplitScore :=
  let score := shiftScore xdf groupsize shift
  if best.1 = -1 ∨ scoreCmp score best.2 ≤ 0 then (shift, score) else best

end Indent

inductive CompactBug
  | slidingUp
  | slidingDown
  | matchDisappeared
  | slidingToMatch
  | bestShiftUnreached
  | slidingToBlankLine
  | movingToNextGroup
  | atEndOfFile
deriving DecidableEq

def CompactBug.text : CompactBug → String
  | slidingUp => "group sync broken sliding up"
  | slidingDown => "group sync broken sliding down"
  | matchDisappeared => "match disappeared"
  | slidingToMatch => "group sync broken sliding to match"
  | bestShiftUnreached => "best shift unreached"
  | slidingToBlankLine => "group sync broken sliding to blank line"
  | movingToNextGroup => "group sync broken moving to next group"
  | atEndOfFile => "group sync broken at end of file"

structure Cursors where
  xdf : XdFile
  g : XdlGroup
  xdfo : XdFile
  go : XdlGroup

namespace Cursors

/-- Slides the group up and takes the other file's cursor along; `some none` if that has no group left. -/
def slideUp (s : Cursors) : Option (Option Cursors) :=
  (groupSlideUp s.xdf s.g).map fun slid =>
    (groupPrevious s.xdfo s.go).map fun go => { s with xdf := slid.1, g := slid.2, go := go }

/-- Slides the group down and takes the other file's cursor along; `some none` if that has no group left. -/
def slideDown (s : Cursors) : Option (Option Cursors) :=
  (groupSlideDown s.xdf s.g).map fun slid =>
    (groupNext s.xdfo s.go).map fun go => { s with xdf := slid.1, g := slid.2, go := go }

end Cursors

namespace Cursors

def size (s : Cursors) : Nat := s.g.size

variable {s s' : Cursors}

lemma slideUp_eq (h : s.slideUp = some (some s')) :
    groupSlideUp s.xdf s.g = some (s'.xdf, s'.g) ∧ groupPrevious s.xdfo s.go = some s'.go ∧ s'.xdfo = s.xdfo := by
  rw [slideUp, Option.map_eq_some_iff] at h
  obtain ⟨slid, hslid, h⟩ := h
  obtain ⟨go, hgo, rfl⟩ := Option.map_eq_some_iff.mp h
  exact ⟨hslid, hgo, rfl⟩

lemma slideDown_eq (h : s.slideDown = some (some s')) :
    groupSlideDown s.xdf s.g = some (s'.xdf, s'.g) ∧ groupNext s.xdfo s.go = some s'.go ∧ s'.xdfo = s.xdfo := by
  rw [slideDown, Option.map_eq_some_iff] at h
  obtain ⟨slid, hslid, h⟩ := h
  obtain ⟨go, hgo, rfl⟩ := Option.map_eq_some_iff.mp h
  exact ⟨hslid, hgo, rfl⟩

def upStep (s : Cursors) : Cursors ⊕ Except CompactBug Cursors :=
  match s.slideUp with
  | none => .inr (.ok s)
  | some none => .inr (.error .slidingUp)
  | some (some s') => .inl s'

/-- `end_matching_other = g.end` where the other file's group is not empty. -/
def noteMatch (s : Cursors) (endMatchingOther : Option Nat) : Option Nat :=
  if s.go.start < s.go.stop then some s.g.stop else endMatchingOther

/-- `Now shift the group forward as far as possible` -/
def downStep (s : Cursors × Option Nat) : (Cursors × Option Nat) ⊕ Except CompactBug (Cursors × Option Nat) :=
  match s.1.slideDown with
  | none => .inr (.ok s)
  | some none => .inr (.error .slidingDown)
  | some (some s') => .inl (s', s'.noteMatch s.2)

lemma upStep_eq (h : s.upStep = .inl s') : s.slideUp = some (some s') := by
  rw [upStep] at h
  split at h
  · cases h
  · cases h
  · rename_i s₁ hs
    rw [hs, Sum.inl.inj h]

lemma downStep_eq {s s' : Cursors × Option Nat} (h : downStep s = .inl s') :
    s.1.slideDown = some (some s'.1) ∧ s'.2 = s'.1.noteMatch s.2 := by
  rw [downStep] at h
  split at h
  · cases h
  · cases h
  · rename_i s₁ hs
    rw [← Sum.inl.inj h]
    exact ⟨hs, rfl⟩

def upLoop (s : Cursors) : Except CompactBug Cursors :=
  loop upStep (fun s => s.g.start) (fun _ _ h => (groupSlideUp_lt (slideUp_eq (upStep_eq h)).1).1) s

lemma downStep_lt (s s' : Cursors × Option Nat) (h : downStep s = .inl s') :
    s'.1.xdf.nrec - s'.1.g.stop < s.1.xdf.nrec - s.1.g.stop := by
  obtain ⟨hlt, hle, -, hrecs⟩ := groupSlideDown_lt (slideDown_eq (downStep_eq h).1).1
  have hnrec : s'.1.xdf.nrec = s.1.xdf.nrec := congrArg List.length hrecs
  omega

def downLoop (s : Cursors × Option Nat) : Except CompactBug (Cursors × Option Nat) :=
  loop downStep (fun s => s.1.xdf.nrec - s.1.g.stop) downStep_lt s

structure Grown (s s' : Cursors) : Prop where
  recs : s'.xdf.recs = s.xdf.recs
  xdfo : s'.xdfo = s.xdfo
  size : s.size ≤ s'.size
  stop : s'.g.stop ≤ max s.g.stop s.xdf.nrec

lemma Grown.refl (s : Cursors) : Grown s s := ⟨rfl, rfl, le_rfl, le_max_left _ _⟩

lemma Grown.nrec (h : Grown s s') : s'.xdf.nrec = s.xdf.nrec := congrArg List.length h.recs

lemma Grown.trans {s s' s'' : Cursors} (h : Grown s s') (h' : Grown s' s'') : Grown s s'' where
  recs := h'.recs.trans h.recs
  xdfo := h'.xdfo.trans h.xdfo
  size := h.size.trans h'.size
  stop := by
    have hfirst := h.stop
    have hsecond := h'.stop
    rw [h.nrec] at hsecond
    omega

lemma grown_slideUp (h : s.slideUp = some (some s')) : Grown s s' := by
  obtain ⟨hslid, -, hother⟩ := slideUp_eq h
  obtain ⟨-, hstop, hsize, hrecs⟩ := groupSlideUp_lt hslid
  exact ⟨hrecs, hother, hsize, by omega⟩

lemma grown_slideDown (h : s.slideDown = some (some s')) : Grown s s' := by
  obtain ⟨hslid, -, hother⟩ := slideDown_eq h
  obtain ⟨-, hstop, hsize, hrecs⟩ := groupSlideDown_lt hslid
  exact ⟨hrecs, hother, hsize, by omega⟩

lemma grown_upLoop (h : s.upLoop = .ok s') : Grown s s' := by
  refine loop_inv upStep _ _ (Grown s) (fun r => r = .ok s' → Grown s s') ?_ ?_ (Grown.refl s) h
  · intro t t' ht hstep
    exact ht.trans (grown_slideUp (upStep_eq hstep))
  · intro t r ht hstep hr
    rw [upStep] at hstep
    split at hstep
    · rw [← Sum.inr.inj hstep] at hr
      rwa [← Except.ok.inj hr]
    · rw [← Sum.inr.inj hstep] at hr
      cases hr
    · cases hstep

lemma grown_downLoop {s s' : Cursors × Option Nat} (h : downLoop s = .ok s') : Grown s.1 s'.1 := by
  refine loop_inv downStep _ _ (fun t => Grown s.1 t.1) (fun r => r = .ok s' → Grown s.1 s'.1) ?_ ?_ (Grown.refl s.1) h
  · intro t t' ht hstep
    exact ht.trans (grown_slideDown (downStep_eq hstep).1)
  · intro t r ht hstep hr
    rw [downStep] at hstep
    split at hstep
    · rw [← Sum.inr.inj hstep] at hr
      rwa [← Except.ok.inj hr]
    · rw [← Sum.inr.inj hstep] at hr
      cases hr
    · cases hstep

/-- What the `do` loop leaves: the cursors, and where the group has been. -/
structure Shifted where
  cursors : Cursors
  groupsize : Nat
  earliestEnd : Nat
  endMatchingOther : Option Nat

def shiftOnce (s : Cursors) : Except CompactBug Shifted :=
  match s.upLoop with
  | .error bug => .error bug
  | .ok up =>
    match downLoop (up, up.noteMatch none) with
    | .error bug => .error bug
    | .ok down => .ok ⟨down.1, s.size, up.g.stop, down.2⟩

def shiftStep (s : Cursors) : Cursors ⊕ Except CompactBug Shifted :=
  match s.shiftOnce with
  | .error bug => .inr (.error bug)
  | .ok shifted =>
    if shifted.groupsize = shifted.cursors.size then .inr (.ok shifted) else .inl shifted.cursors

lemma shiftOnce_eq {s : Cursors} {shifted : Shifted} (h : s.shiftOnce = .ok shifted) :
    ∃ up, s.upLoop = .ok up ∧ downLoop (up, up.noteMatch none) = .ok (shifted.cursors, shifted.endMatchingOther) ∧
      shifted.groupsize = s.size ∧ shifted.earliestEnd = up.g.stop := by
  rw [shiftOnce] at h
  split at h
  · cases h
  · rename_i up hup
    split at h
    · cases h
    · rename_i down hdown
      rw [← Except.ok.inj h]
      exact ⟨up, hup, hdown, rfl, rfl⟩

lemma grown_shiftOnce {s : Cursors} {shifted : Shifted} (h : s.shiftOnce = .ok shifted) : Grown s shifted.cursors := by
  obtain ⟨up, hup, hdown, -⟩ := shiftOnce_eq h
  exact (grown_upLoop hup).trans (grown_downLoop hdown)

lemma shiftStep_lt (s s' : Cursors) (h : s.shiftStep = .inl s') :
    max s'.g.stop s'.xdf.nrec - s'.size < max s.g.stop s.xdf.nrec - s.size := by
  rw [shiftStep] at h
  split at h
  · cases h
  · rename_i shifted hshift
    have hgrown := grown_shiftOnce hshift
    obtain ⟨-, -, -, hsize, -⟩ := shiftOnce_eq hshift
    split_ifs at h with heq
    rw [← Sum.inl.inj h]
    have hlt : s.size < shifted.cursors.size := lt_of_le_of_ne hgrown.size (hsize ▸ heq)
    have hstop := hgrown.stop
    have hle : shifted.cursors.size ≤ shifted.cursors.g.stop := Nat.sub_le _ _
    rw [hgrown.nrec]
    omega

/-- The `do` loop: shifts the group up and down until it meets no other one. -/
def shiftLoop (s : Cursors) : Except CompactBug Shifted :=
  loop shiftStep (fun s => max s.g.stop s.xdf.nrec - s.size) shiftStep_lt s

def slideOrBug (s : Cursors) (stuck lost : CompactBug) : Cursors ⊕ Except CompactBug Cursors :=
  match s.slideUp with
  | none => .inr (.error stuck)
  | some none => .inr (.error lost)
  | some (some s') => .inl s'

def matchStep (s : Cursors) : Cursors ⊕ Except CompactBug Cursors :=
  if s.go.stop = s.go.start then s.slideOrBug .matchDisappeared .slidingToMatch else .inr (.ok s)

def bestShiftStep (bestShift : Int) (s : Cursors) : Cursors ⊕ Except CompactBug Cursors :=
  if bestShift < s.g.stop then s.slideOrBug .bestShiftUnreached .slidingToBlankLine else .inr (.ok s)

lemma slideOrBug_eq {stuck lost : CompactBug} (h : s.slideOrBug stuck lost = .inl s') :
    s.slideUp = some (some s') := by
  rw [slideOrBug] at h
  split at h
  · cases h
  · cases h
  · rename_i s₁ hs
    rw [hs, Sum.inl.inj h]

lemma slideOrBug_lt {stuck lost : CompactBug} (h : s.slideOrBug stuck lost = .inl s') :
    s'.g.start < s.g.start :=
  (groupSlideUp_lt (slideUp_eq (slideOrBug_eq h)).1).1

lemma matchStep_lt (s s' : Cursors) (h : s.matchStep = .inl s') : s'.g.start < s.g.start := by
  rw [matchStep] at h
  split_ifs at h
  exact slideOrBug_lt h

lemma bestShiftStep_lt (bestShift : Int) (s s' : Cursors) (h : s.bestShiftStep bestShift = .inl s') :
    s'.g.start < s.g.start := by
  rw [bestShiftStep] at h
  split_ifs at h
  exact slideOrBug_lt h

def matchLoop (s : Cursors) : Except CompactBug Cursors :=
  loop matchStep (fun s => s.g.start) matchStep_lt s

def bestShiftLoop (bestShift : Int) (s : Cursors) : Except CompactBug Cursors :=
  loop (bestShiftStep bestShift) (fun s => s.g.start) (bestShiftStep_lt bestShift) s

end Cursors

def Cursors.Shifted.firstShift (shifted : Cursors.Shifted) : Nat :=
  max shifted.earliestEnd
    (max (shifted.cursors.g.stop - shifted.groupsize - 1) (shifted.cursors.g.stop - indentHeuristicMaxSliding))

def Cursors.Shifted.bestShift (shifted : Cursors.Shifted) : Int :=
  let shifts := List.range' shifted.firstShift (shifted.cursors.g.stop + 1 - shifted.firstShift)
  (shifts.foldl (betterShift shifted.cursors.xdf shifted.groupsize) (-1, ⟨0, 0⟩)).1

def Cursors.Shifted.settle (flags : UInt64) (shifted : Cursors.Shifted) : Except CompactBug Cursors :=
  if shifted.cursors.g.stop = shifted.earliestEnd then .ok shifted.cursors
  else if shifted.endMatchingOther ≠ none then shifted.cursors.matchLoop
  else if flags &&& xdfIndentHeuristic ≠ 0 then shifted.cursors.bestShiftLoop shifted.bestShift
  else .ok shifted.cursors

section Compact

variable (doDiff : UInt64 → List XRecord → List XRecord → Option (List Bool × List Bool))

def fallBackDiff (xe : XdfEnv) (flags : UInt64) (line1 count1 line2 count2 : Nat) : Option XdfEnv :=
  match doDiff flags ((xe.xdf1.recs.drop (line1 - 1)).take count1) ((xe.xdf2.recs.drop (line2 - 1)).take count2) with
  | none => none
  | some (changed1, changed2) =>
    some ⟨xe.xdf1.copyChanged (line1 - 1) changed1 count1, xe.xdf2.copyChanged (line2 - 1) changed2 count2⟩

/-- What `xdl_change_compact` returns, and the files it leaves. -/
structure Compacted where
  ret : Int
  xdf : XdFile
  xdfo : XdFile

namespace Cursors

def rediffs (flags : UInt64) (orig : XdlGroup) (s : Cursors) : Prop :=
  s.go.stop ≠ s.go.start ∧ xdfDiffAlg flags = xdfHistogramDiff ∧ (s.g.start ≠ orig.start ∨ s.g.stop ≠ orig.stop)

instance (flags : UInt64) (orig : XdlGroup) (s : Cursors) : Decidable (s.rediffs flags orig) :=
  inferInstanceAs (Decidable (_ ∧ _ ∧ _))

/-- The second diff of the group; `none` if it fails. -/
def rediff (flags : UInt64) (orig : XdlGroup) (s : Cursors) : Option Cursors :=
  if s.rediffs flags orig then
    (fallBackDiff doDiff ⟨s.xdf, s.xdfo⟩ (flags &&& ~~~xdfDiffAlgorithmMask) (s.g.start + 1) (s.g.stop - s.g.start)
      (s.go.start + 1) (s.go.stop - s.go.start)).map fun xe => { s with xdf := xe.xdf1, xdfo := xe.xdf2 }
  else some s

def nextStep (s : Cursors) : Cursors ⊕ Except CompactBug Compacted :=
  match groupNext s.xdf s.g, groupNext s.xdfo s.go with
  | none, none => .inr (.ok ⟨0, s.xdf, s.xdfo⟩)
  | none, some _ => .inr (.error .atEndOfFile)
  | some _, none => .inr (.error .movingToNextGroup)
  | some g, some go => .inl { s with g := g, go := go }

/-- A round of the loop of `xdl_change_compact`. -/
def compactStep (flags : UInt64) (s : Cursors) : Cursors ⊕ Except CompactBug Compacted :=
  if s.g.stop = s.g.start then s.nextStep
  else
    match s.shiftLoop with
    | .error bug => .inr (.error bug)
    | .ok shifted =>
      match shifted.settle flags with
      | .error bug => .inr (.error bug)
      | .ok settled =>
        match settled.rediff doDiff flags s.g with
        | none => .inr (.ok ⟨-1, settled.xdf, settled.xdfo⟩)
        | some s' => s'.nextStep

end Cursors

/-- `xdl_change_compact`, with at most so many rounds. -/
def changeCompact (flags : UInt64) (fuel : Nat) (xdf xdfo : XdFile) : Option (Except CompactBug Compacted) :=
  runFor (Cursors.compactStep doDiff flags) fuel ⟨xdf, groupInit xdf, xdfo, groupInit xdfo⟩

end Compact

end GitCore.Xdiff
