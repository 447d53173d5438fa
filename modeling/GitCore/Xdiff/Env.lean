import Mathlib.Tactic

/-!
# Files, change flags and edit scripts

The data of `xtypes.h` that a diff is made of, and `xdl_build_script`.
-/

namespace GitCore.Xdiff

/-- A line: its bytes and its class, equal for lines that the diff options take as equal. -/
structure XRecord where
  ptr : List UInt8
  minimalPerfectHash : Nat
deriving DecidableEq, Inhabited

def longMax : Nat := 2 ^ 63 - 1

structure XdFile where
  recs : List XRecord
  changed : List Bool
  changed_length : changed.length = recs.length
  nrec_le : recs.length ≤ longMax

namespace XdFile

def nrec (xdf : XdFile) : Nat := xdf.recs.length

/-- `changed[i - 1]`. The array is readable, and unset, on both sides of the lines. -/
def changedBefore (xdf : XdFile) : Nat → Bool
  | 0 => false
  | i + 1 => xdf.changed.getD i false

/-- The lines `a`, …, `b - 1`. -/
def slice (xdf : XdFile) (a b : Nat) : List XRecord :=
  (xdf.recs.drop a).take (b - a)

def unchanged (xdf : XdFile) : List XRecord :=
  ((xdf.recs.zip xdf.changed).filter (fun line => ¬ line.2)).map Prod.fst

end XdFile

structure XdfEnv where
  xdf1 : XdFile
  xdf2 : XdFile

def SameLines (xs ys : List XRecord) : Prop :=
  xs.map (·.minimalPerfectHash) = ys.map (·.minimalPerfectHash)

structure XdChange where
  i1 : Nat
  i2 : Nat
  chg1 : Nat
  chg2 : Nat
  ignore : Bool
deriving DecidableEq, Inhabited

namespace XdChange

def end1 (xch : XdChange) : Nat := xch.i1 + xch.chg1

def end2 (xch : XdChange) : Nat := xch.i2 + xch.chg2

end XdChange

/-- The loop `for (l = i; changed[i - 1]; i--)`. -/
def groupStart (xdf : XdFile) : Nat → Nat
  | 0 => 0
  | i + 1 => if xdf.changedBefore (i + 1) then groupStart xdf i else i + 1

lemma groupStart_le (xdf : XdFile) (i : Nat) : groupStart xdf i ≤ i := by
  induction i with
  | zero => simp [groupStart]
  | succ i ih =>
    rw [groupStart]
    split_ifs <;> omega

/-- The loop of `xdl_build_script`. Both indices reach the start of their files together. -/
def buildScriptLoop (xe : XdfEnv) (i1 i2 : Nat) (cscr : List XdChange) : List XdChange :=
  let group := xe.xdf1.changedBefore i1 || xe.xdf2.changedBefore i2
  let s1 := if group then groupStart xe.xdf1 i1 else i1
  let s2 := if group then groupStart xe.xdf2 i2 else i2
  let cscr := if group then ⟨s1, s2, i1 - s1, i2 - s2, false⟩ :: cscr else cscr
  if s1 = 0 ∧ s2 = 0 then cscr else buildScriptLoop xe (s1 - 1) (s2 - 1) cscr
termination_by i1 + i2
decreasing_by
  have h1 := groupStart_le xe.xdf1 i1
  have h2 := groupStart_le xe.xdf2 i2
  simp only [s1, s2] at *
  split_ifs at * <;> omega

def buildScript (xe : XdfEnv) : List XdChange :=
  buildScriptLoop xe xe.xdf1.nrec xe.xdf2.nrec []

/-- From line `p1` and line `p2` on the files are the same but for the script's changes. -/
def Aligned (xe : XdfEnv) : Nat → Nat → List XdChange → Prop
  | p1, p2, [] => p1 ≤ xe.xdf1.nrec ∧ p2 ≤ xe.xdf2.nrec ∧
      SameLines (xe.xdf1.slice p1 xe.xdf1.nrec) (xe.xdf2.slice p2 xe.xdf2.nrec)
  | p1, p2, xch :: rest => p1 ≤ xch.i1 ∧ p2 ≤ xch.i2 ∧
      SameLines (xe.xdf1.slice p1 xch.i1) (xe.xdf2.slice p2 xch.i2) ∧
      xch.end1 ≤ xe.xdf1.nrec ∧ xch.end2 ≤ xe.xdf2.nrec ∧ Aligned xe xch.end1 xch.end2 rest

section BuildScript

lemma SameLines.refl (xs : List XRecord) : SameLines xs xs := rfl

variable {xs ys : List XRecord}

lemma SameLines.length (h : SameLines xs ys) : xs.length = ys.length := by
  simpa using congrArg List.length h

lemma SameLines.append {xs ys xs' ys' : List XRecord} (h : SameLines xs ys) (h' : SameLines xs' ys') :
    SameLines (xs ++ xs') (ys ++ ys') := by
  simp only [SameLines, List.map_append] at *
  rw [h, h']

lemma SameLines.trans {xs ys zs : List XRecord} (h : SameLines xs ys) (h' : SameLines ys zs) :
    SameLines xs zs :=
  Eq.trans h h'

lemma SameLines.symm (h : SameLines xs ys) : SameLines ys xs :=
  Eq.symm h

lemma SameLines.take (h : SameLines xs ys) (n : Nat) :
    SameLines (xs.take n) (ys.take n) := by
  simp only [SameLines, List.map_take] at *
  rw [h]

lemma SameLines.drop (h : SameLines xs ys) (n : Nat) :
    SameLines (xs.drop n) (ys.drop n) := by
  simp only [SameLines, List.map_drop] at *
  rw [h]

variable (xdf : XdFile)

lemma length_slice {a b : Nat} (h : b ≤ xdf.nrec) : (xdf.slice a b).length = b - a := by
  simp only [XdFile.slice, List.length_take, List.length_drop, XdFile.nrec] at *
  omega

@[simp]
lemma slice_self (a : Nat) : xdf.slice a a = [] := by
  simp [XdFile.slice]

lemma slice_append {a b c : Nat} (hab : a ≤ b) (hbc : b ≤ c) :
    xdf.slice a b ++ xdf.slice b c = xdf.slice a c := by
  have hdrop : xdf.recs.drop b = (xdf.recs.drop a).drop (b - a) := by
    rw [List.drop_drop]
    congr 1
    omega
  have hlen : c - a = (b - a) + (c - b) := by omega
  rw [XdFile.slice, XdFile.slice, XdFile.slice, hdrop, hlen, List.take_add]

lemma slice_zero_nrec : xdf.slice 0 xdf.nrec = xdf.recs := by
  simp [XdFile.slice, XdFile.nrec]

lemma take_slice {a b n : Nat} (h : a + n ≤ b) : (xdf.slice a b).take n = xdf.slice a (a + n) := by
  rw [XdFile.slice, XdFile.slice, List.take_take]
  congr 1
  omega

lemma drop_slice {a b : Nat} (n : Nat) : (xdf.slice a b).drop n = xdf.slice (a + n) b := by
  rw [XdFile.slice, XdFile.slice, List.drop_take, List.drop_drop]
  congr 1
  omega

def XdFile.unchangedBefore (i : Nat) : List XRecord :=
  (((xdf.recs.zip xdf.changed).take i).filter (fun line => ¬ line.2)).map Prod.fst

lemma unchangedBefore_nrec : xdf.unchangedBefore xdf.nrec = xdf.unchanged := by
  have := xdf.changed_length
  rw [XdFile.unchangedBefore, List.take_of_length_le (by simp [XdFile.nrec]), XdFile.unchanged]

lemma unchangedBefore_succ {i : Nat} (h : i < xdf.nrec) : xdf.unchangedBefore (i + 1) =
    if xdf.changedBefore (i + 1) then xdf.unchangedBefore i else xdf.unchangedBefore i ++ [xdf.recs[i]] := by
  have hi : i < xdf.changed.length := by rwa [xdf.changed_length]
  have hzip : i < (xdf.recs.zip xdf.changed).length := by
    rw [List.length_zip]
    exact lt_min h hi
  have hflag : xdf.changedBefore (i + 1) = xdf.changed[i] := by
    rw [XdFile.changedBefore, List.getD_eq_getElem?_getD, List.getElem?_eq_getElem hi, Option.getD_some]
  rw [hflag, XdFile.unchangedBefore, List.take_succ_eq_append_getElem hzip, List.filter_append,
    List.map_append, List.getElem_zip]
  cases hc : xdf.changed[i] with
  | true => simp [XdFile.unchangedBefore]
  | false =>
    simp [XdFile.unchangedBefore]
    rfl

lemma groupStart_spec {i : Nat} (h : i ≤ xdf.nrec) :
    xdf.unchangedBefore (groupStart xdf i) = xdf.unchangedBefore i ∧
      xdf.changedBefore (groupStart xdf i) = false := by
  induction i with
  | zero => exact ⟨rfl, rfl⟩
  | succ i ih =>
    rw [groupStart]
    split_ifs with hc
    · obtain ⟨hbefore, hstart⟩ := ih (by omega)
      rw [unchangedBefore_succ xdf (by omega), if_pos hc]
      exact ⟨hbefore, hstart⟩
    · exact ⟨rfl, by simpa using hc⟩

lemma groupStart_of_not_changed {i : Nat} (h : xdf.changedBefore i = false) : groupStart xdf i = i := by
  cases i with
  | zero => rfl
  | succ i => rw [groupStart, h, if_neg (by simp)]

variable {xe : XdfEnv}

lemma Aligned.retreat {p1 p2 q1 q2 : Nat} {script : List XdChange} (h : Aligned xe p1 p2 script)
    (h1 : q1 ≤ p1) (h2 : q2 ≤ p2) (hsame : SameLines (xe.xdf1.slice q1 p1) (xe.xdf2.slice q2 p2)) :
    Aligned xe q1 q2 script := by
  cases script with
  | nil =>
    obtain ⟨hp1, hp2, hrest⟩ := h
    have := hsame.append hrest
    rw [slice_append _ h1 hp1, slice_append _ h2 hp2] at this
    exact ⟨h1.trans hp1, h2.trans hp2, this⟩
  | cons xch rest =>
    obtain ⟨hp1, hp2, hgap, hend⟩ := h
    have := hsame.append hgap
    rw [slice_append _ h1 hp1, slice_append _ h2 hp2] at this
    exact ⟨h1.trans hp1, h2.trans hp2, this, hend⟩

lemma slice_succ {i : Nat} (h : i < xdf.nrec) : xdf.slice i (i + 1) = [xdf.recs[i]] := by
  have hlen : i + 1 - i = 1 := by omega
  rw [XdFile.slice, hlen, List.take_one, List.head?_drop, List.getElem?_eq_getElem h]
  rfl

lemma buildScriptLoop_eq (i1 i2 : Nat) (cscr : List XdChange) :
    buildScriptLoop xe i1 i2 cscr =
      let s1 := groupStart xe.xdf1 i1
      let s2 := groupStart xe.xdf2 i2
      let cscr := if xe.xdf1.changedBefore i1 || xe.xdf2.changedBefore i2 then
        ⟨s1, s2, i1 - s1, i2 - s2, false⟩ :: cscr else cscr
      if s1 = 0 ∧ s2 = 0 then cscr else buildScriptLoop xe (s1 - 1) (s2 - 1) cscr := by
  rw [buildScriptLoop]
  by_cases hgroup : (xe.xdf1.changedBefore i1 || xe.xdf2.changedBefore i2) = true
  · simp only [hgroup, if_true]
  · obtain ⟨h1, h2⟩ : xe.xdf1.changedBefore i1 = false ∧ xe.xdf2.changedBefore i2 = false := by
      simpa using hgroup
    simp only [groupStart_of_not_changed _ h1, groupStart_of_not_changed _ h2, if_neg hgroup]

lemma groupStart_pair {i1 i2 : Nat} (h1 : i1 ≤ xe.xdf1.nrec) (h2 : i2 ≤ xe.xdf2.nrec)
    (hsame : SameLines (xe.xdf1.unchangedBefore i1) (xe.xdf2.unchangedBefore i2)) :
    groupStart xe.xdf1 i1 = 0 ∧ groupStart xe.xdf2 i2 = 0 ∨
      ∃ s1 s2, groupStart xe.xdf1 i1 = s1 + 1 ∧ groupStart xe.xdf2 i2 = s2 + 1 ∧
        SameLines (xe.xdf1.unchangedBefore s1) (xe.xdf2.unchangedBefore s2) ∧
        SameLines (xe.xdf1.slice s1 (s1 + 1)) (xe.xdf2.slice s2 (s2 + 1)) := by
  obtain ⟨hbefore1, hstart1⟩ := groupStart_spec xe.xdf1 h1
  obtain ⟨hbefore2, hstart2⟩ := groupStart_spec xe.xdf2 h2
  have hle1 := groupStart_le xe.xdf1 i1
  have hle2 := groupStart_le xe.xdf2 i2
  rw [← hbefore1, ← hbefore2] at hsame
  generalize groupStart xe.xdf1 i1 = s1 at *
  generalize groupStart xe.xdf2 i2 = s2 at *
  have hlen := hsame.length
  cases s1 with
  | zero =>
    cases s2 with
    | zero => exact .inl ⟨rfl, rfl⟩
    | succ s2 =>
      rw [unchangedBefore_succ _ (by omega), hstart2] at hlen
      simp [XdFile.unchangedBefore] at hlen
  | succ s1 =>
    cases s2 with
    | zero =>
      rw [unchangedBefore_succ _ (by omega), hstart1] at hlen
      simp [XdFile.unchangedBefore] at hlen
    | succ s2 =>
      rw [unchangedBefore_succ _ (by omega), unchangedBefore_succ _ (by omega), hstart1, hstart2,
        if_neg (by simp), if_neg (by simp)] at hsame
      simp only [SameLines, List.map_append, List.map_cons, List.map_nil, List.append_singleton_inj] at hsame
      refine .inr ⟨s1, s2, rfl, rfl, hsame.1, ?_⟩
      rw [slice_succ _ (by omega), slice_succ _ (by omega)]
      simp only [SameLines, List.map_cons, List.map_nil, hsame.2]

lemma buildScriptLoop_aligned {i1 i2 : Nat} {cscr : List XdChange} (h1 : i1 ≤ xe.xdf1.nrec)
    (h2 : i2 ≤ xe.xdf2.nrec) (hsame : SameLines (xe.xdf1.unchangedBefore i1) (xe.xdf2.unchangedBefore i2))
    (h : Aligned xe i1 i2 cscr) : Aligned xe 0 0 (buildScriptLoop xe i1 i2 cscr) := by
  induction hn : i1 + i2 using Nat.strong_induction_on generalizing i1 i2 cscr with
  | _ n ih =>
    have hle1 := groupStart_le xe.xdf1 i1
    have hle2 := groupStart_le xe.xdf2 i2
    have hscript : Aligned xe (groupStart xe.xdf1 i1) (groupStart xe.xdf2 i2)
        (if xe.xdf1.changedBefore i1 || xe.xdf2.changedBefore i2 then
          ⟨groupStart xe.xdf1 i1, groupStart xe.xdf2 i2, i1 - groupStart xe.xdf1 i1,
            i2 - groupStart xe.xdf2 i2, false⟩ :: cscr else cscr) := by
      split_ifs with hgroup
      · have hend1 : groupStart xe.xdf1 i1 + (i1 - groupStart xe.xdf1 i1) = i1 := by omega
        have hend2 : groupStart xe.xdf2 i2 + (i2 - groupStart xe.xdf2 i2) = i2 := by omega
        simp only [Aligned, XdChange.end1, XdChange.end2, hend1, hend2, slice_self]
        exact ⟨le_rfl, le_rfl, SameLines.refl _, h1, h2, h⟩
      · obtain ⟨hc1, hc2⟩ : xe.xdf1.changedBefore i1 = false ∧ xe.xdf2.changedBefore i2 = false := by
          simpa using hgroup
        rwa [groupStart_of_not_changed _ hc1, groupStart_of_not_changed _ hc2]
    rw [buildScriptLoop_eq]
    dsimp only
    generalize (if xe.xdf1.changedBefore i1 || xe.xdf2.changedBefore i2 then _ else cscr) = cscr' at hscript ⊢
    obtain ⟨hs1, hs2⟩ | ⟨s1, s2, hs1, hs2, hbefore, hpair⟩ := groupStart_pair h1 h2 hsame
    · rw [hs1, hs2] at hscript ⊢
      rwa [if_pos ⟨rfl, rfl⟩]
    · rw [hs1, hs2] at hscript ⊢
      rw [if_neg (by omega), Nat.add_sub_cancel, Nat.add_sub_cancel]
      exact ih (s1 + s2) (by omega) (by omega) (by omega) hbefore
        (hscript.retreat (Nat.le_succ s1) (Nat.le_succ s2) hpair) rfl

lemma buildScriptLoop_apart {i1 i2 : Nat} {cscr : List XdChange} (h1 : i1 ≤ xe.xdf1.nrec)
    (h2 : i2 ≤ xe.xdf2.nrec) (hsame : SameLines (xe.xdf1.unchangedBefore i1) (xe.xdf2.unchangedBefore i2))
    (h : cscr.IsChain fun c d => c.end1 < d.i1) (hnext : ∀ d ∈ cscr.head?, i1 < d.i1) :
    (buildScriptLoop xe i1 i2 cscr).IsChain fun c d => c.end1 < d.i1 := by
  induction hn : i1 + i2 using Nat.strong_induction_on generalizing i1 i2 cscr with
  | _ n ih =>
    have hle1 := groupStart_le xe.xdf1 i1
    have hle2 := groupStart_le xe.xdf2 i2
    have hscript : (if xe.xdf1.changedBefore i1 || xe.xdf2.changedBefore i2 then
        ⟨groupStart xe.xdf1 i1, groupStart xe.xdf2 i2, i1 - groupStart xe.xdf1 i1,
          i2 - groupStart xe.xdf2 i2, false⟩ :: cscr else cscr).IsChain (fun c d => c.end1 < d.i1) ∧
        ∀ d ∈ (if xe.xdf1.changedBefore i1 || xe.xdf2.changedBefore i2 then
          ⟨groupStart xe.xdf1 i1, groupStart xe.xdf2 i2, i1 - groupStart xe.xdf1 i1,
            i2 - groupStart xe.xdf2 i2, false⟩ :: cscr else cscr).head?, groupStart xe.xdf1 i1 ≤ d.i1 := by
      split_ifs
      · refine ⟨List.isChain_cons.mpr ⟨fun d hd => ?_, h⟩, by simp⟩
        have := hnext d hd
        dsimp only [XdChange.end1]
        omega
      · exact ⟨h, fun d hd => hle1.trans (hnext d hd).le⟩
    obtain ⟨hchain, hhead⟩ := hscript
    rw [buildScriptLoop_eq]
    dsimp only
    generalize (if xe.xdf1.changedBefore i1 || xe.xdf2.changedBefore i2 then _ else cscr) = cscr' at hchain hhead ⊢
    obtain ⟨hs1, hs2⟩ | ⟨s1, s2, hs1, hs2, hbefore, -⟩ := groupStart_pair h1 h2 hsame
    · rwa [if_pos ⟨hs1, hs2⟩]
    · rw [hs1] at hhead
      rw [hs1, hs2, if_neg (by omega), Nat.add_sub_cancel, Nat.add_sub_cancel]
      refine ih (s1 + s2) (by omega) (by omega) (by omega) hbefore hchain (fun d hd => ?_) rfl
      have := hhead d hd
      omega

lemma buildScript_apart (h : SameLines xe.xdf1.unchanged xe.xdf2.unchanged) :
    (buildScript xe).IsChain fun c d => c.end1 < d.i1 := by
  rw [← unchangedBefore_nrec, ← unchangedBefore_nrec] at h
  exact buildScriptLoop_apart le_rfl le_rfl h List.isChain_nil (by simp)

theorem buildScript_aligned (h : SameLines xe.xdf1.unchanged xe.xdf2.unchanged) :
    Aligned xe 0 0 (buildScript xe) := by
  rw [← unchangedBefore_nrec, ← unchangedBefore_nrec] at h
  refine buildScriptLoop_aligned le_rfl le_rfl h ⟨le_rfl, le_rfl, ?_⟩
  rw [slice_self, slice_self]
  exact SameLines.refl _

lemma buildScriptLoop_not_ignore {i1 i2 : Nat} {cscr : List XdChange} (h : ∀ xch ∈ cscr, xch.ignore = false) :
    ∀ xch ∈ buildScriptLoop xe i1 i2 cscr, xch.ignore = false := by
  induction hn : i1 + i2 using Nat.strong_induction_on generalizing i1 i2 cscr with
  | _ n ih =>
    have hle1 := groupStart_le xe.xdf1 i1
    have hle2 := groupStart_le xe.xdf2 i2
    rw [buildScriptLoop_eq]
    dsimp only
    have hscript : ∀ xch ∈ (if xe.xdf1.changedBefore i1 || xe.xdf2.changedBefore i2 then
        ⟨groupStart xe.xdf1 i1, groupStart xe.xdf2 i2, i1 - groupStart xe.xdf1 i1,
          i2 - groupStart xe.xdf2 i2, false⟩ :: cscr else cscr), xch.ignore = false := by
      split_ifs
      · exact List.forall_mem_cons.mpr ⟨rfl, h⟩
      · exact h
    split_ifs at hscript ⊢
    all_goals first | exact hscript | exact ih _ (by omega) hscript rfl

lemma buildScript_not_ignore : ∀ xch ∈ buildScript xe, xch.ignore = false :=
  buildScriptLoop_not_ignore (by simp)

end BuildScript

end GitCore.Xdiff
