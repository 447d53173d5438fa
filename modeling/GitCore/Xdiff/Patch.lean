import GitCore.Xdiff.Emit

/-!
# What a unified diff means

The two sides of a hunk, and what applying hunks to a file gives.
-/

namespace GitCore.Xdiff

def HunkLine.old? : HunkLine → Option XRecord
  | context rec => some rec
  | removed rec => some rec
  | added _ => none

def HunkLine.new? : HunkLine → Option XRecord
  | context rec => some rec
  | removed _ => none
  | added rec => some rec

namespace Hunk

def oldLines (h : Hunk) : List XRecord := h.lines.filterMap HunkLine.old?

def newLines (h : Hunk) : List XRecord := h.lines.filterMap HunkLine.new?

def oldStart (h : Hunk) : Nat := if h.oldNr = 0 then h.oldBegin else h.oldBegin - 1

def newStart (h : Hunk) : Nat := if h.newNr = 0 then h.newBegin else h.newBegin - 1

def oldEnd (h : Hunk) : Nat := h.oldStart + h.oldNr

def newEnd (h : Hunk) : Nat := h.newStart + h.newNr

end Hunk

instance sameLinesDecidable (xs ys : List XRecord) : Decidable (SameLines xs ys) :=
  inferInstanceAs (Decidable (xs.map _ = ys.map _))

/-- Applies hunks to the part of a file from line `pos` on. -/
def applyHunks (file : List XRecord) : Nat → List Hunk → Option (List XRecord)
  | pos, [] => some (file.drop pos)
  | pos, h :: hunks =>
    if pos ≤ h.oldStart ∧ SameLines h.oldLines ((file.drop h.oldStart).take h.oldNr) then
      (applyHunks file h.oldEnd hunks).map fun rest =>
        (file.drop pos).take (h.oldStart - pos) ++ h.newLines ++ rest
    else none

def ClassesExact (xe : XdfEnv) : Prop :=
  ∀ r ∈ xe.xdf1.recs, ∀ s ∈ xe.xdf2.recs, r.minimalPerfectHash = s.minimalPerfectHash → r = s

/-- The headers count the printed lines, the hunks follow each other without overlap, and
applying them to the first file gives the second. -/
structure IsDiff (xe : XdfEnv) (hunks : List Hunk) : Prop where
  counts : ∀ h ∈ hunks, h.oldNr = h.oldLines.length ∧ h.newNr = h.newLines.length
  ordered : hunks.Pairwise fun h h' => h.oldEnd ≤ h'.oldStart ∧ h.newEnd ≤ h'.newStart
  applies : ∃ file, applyHunks xe.xdf1.recs 0 hunks = some file ∧ SameLines file xe.xdf2.recs ∧
    (ClassesExact xe → file = xe.xdf2.recs)

section Emit

variable {xe : XdfEnv}

def lastEnd (p : Nat × Nat) (changes : List XdChange) : Nat × Nat :=
  (changes.getLast?.map fun xch => (xch.end1, xch.end2)).getD p

@[simp]
lemma lastEnd_nil (p : Nat × Nat) : lastEnd p [] = p := rfl

lemma lastEnd_cons (p : Nat × Nat) (xch : XdChange) (rest : List XdChange) :
    lastEnd p (xch :: rest) = lastEnd (xch.end1, xch.end2) rest := by
  cases rest using List.reverseRecOn <;> simp [lastEnd, List.getLast?_cons]

variable {p1 p2 : Nat}

lemma Aligned.gap {xch : XdChange} {rest : List XdChange}
    (h : Aligned xe p1 p2 (xch :: rest)) : p1 ≤ xch.i1 ∧ p2 ≤ xch.i2 ∧ xch.i1 - p1 = xch.i2 - p2 := by
  obtain ⟨h1, h2, hsame, hend1, hend2, -⟩ := h
  have hlen := hsame.length
  rw [length_slice, length_slice] at hlen
  · exact ⟨h1, h2, hlen⟩
  · exact (Nat.le_add_right _ _).trans hend2
  · exact (Nat.le_add_right _ _).trans hend1

lemma Aligned.tail_gap (h : Aligned xe p1 p2 []) :
    p1 ≤ xe.xdf1.nrec ∧ p2 ≤ xe.xdf2.nrec ∧ xe.xdf1.nrec - p1 = xe.xdf2.nrec - p2 := by
  obtain ⟨h1, h2, hsame⟩ := h
  have hlen := hsame.length
  rw [length_slice _ le_rfl, length_slice _ le_rfl] at hlen
  exact ⟨h1, h2, hlen⟩

def nextStart (xe : XdfEnv) : List XdChange → Nat
  | [] => xe.xdf1.nrec
  | xch :: _ => xch.i1

lemma Aligned.advance {p1 p2 n : Nat} {script : List XdChange} (h : Aligned xe p1 p2 script)
    (hn : p1 + n ≤ nextStart xe script) :
    Aligned xe (p1 + n) (p2 + n) script ∧
      SameLines (xe.xdf1.slice p1 (p1 + n)) (xe.xdf2.slice p2 (p2 + n)) := by
  cases script with
  | nil =>
    obtain ⟨h1, h2, hlen⟩ := h.tail_gap
    obtain ⟨-, -, hsame⟩ := h
    simp only [nextStart] at hn
    have htake := hsame.take n
    have hdrop := hsame.drop n
    rw [take_slice _ hn, take_slice _ (by omega)] at htake
    rw [drop_slice, drop_slice] at hdrop
    exact ⟨⟨hn, by omega, hdrop⟩, htake⟩
  | cons xch rest =>
    obtain ⟨h1, h2, hlen⟩ := h.gap
    obtain ⟨-, -, hsame, hend⟩ := h
    simp only [nextStart] at hn
    have htake := hsame.take n
    have hdrop := hsame.drop n
    rw [take_slice _ hn, take_slice _ (by omega)] at htake
    rw [drop_slice, drop_slice] at hdrop
    exact ⟨⟨hn, by omega, hdrop, hend⟩, htake⟩

lemma Aligned.after {changes rest : List XdChange} (h : Aligned xe p1 p2 (changes ++ rest)) :
    Aligned xe (lastEnd (p1, p2) changes).1 (lastEnd (p1, p2) changes).2 rest := by
  induction changes generalizing p1 p2 with
  | nil => exact h
  | cons xch changes ih =>
    rw [lastEnd_cons]
    exact ih h.2.2.2.2.2

lemma filterMap_old_context (recs : List XRecord) :
    (recs.map HunkLine.context).filterMap HunkLine.old? = recs := by
  simp [List.filterMap_map, Function.comp_def, HunkLine.old?]

lemma filterMap_new_context (recs : List XRecord) :
    (recs.map HunkLine.context).filterMap HunkLine.new? = recs := by
  simp [List.filterMap_map, Function.comp_def, HunkLine.new?]

lemma filterMap_removed (recs : List XRecord) :
    (recs.map HunkLine.removed).filterMap HunkLine.old? = recs ∧
      (recs.map HunkLine.removed).filterMap HunkLine.new? = [] := by
  simp [List.filterMap_map, Function.comp_def, HunkLine.old?, HunkLine.new?]

lemma filterMap_added (recs : List XRecord) :
    (recs.map HunkLine.added).filterMap HunkLine.old? = [] ∧
      (recs.map HunkLine.added).filterMap HunkLine.new? = recs := by
  simp [List.filterMap_map, Function.comp_def, HunkLine.old?, HunkLine.new?]

lemma Aligned.le_lastEnd {changes rest : List XdChange}
    (h : Aligned xe p1 p2 (changes ++ rest)) :
    p1 ≤ (lastEnd (p1, p2) changes).1 ∧ p2 ≤ (lastEnd (p1, p2) changes).2 := by
  induction changes generalizing p1 p2 with
  | nil => exact ⟨le_rfl, le_rfl⟩
  | cons xch changes ih =>
    rw [lastEnd_cons]
    obtain ⟨h1, h2, -⟩ := h.gap
    obtain ⟨he1, he2⟩ := ih h.2.2.2.2.2
    simp only [XdChange.end1, XdChange.end2] at *
    exact ⟨by omega, by omega⟩

lemma emitChanges_lines {changes rest : List XdChange}
    (h : Aligned xe p1 p2 (changes ++ rest)) :
    SameLines ((emitChanges xe p1 p2 changes).filterMap HunkLine.old?)
        (xe.xdf1.slice p1 (lastEnd (p1, p2) changes).1) ∧
      (emitChanges xe p1 p2 changes).filterMap HunkLine.new? =
        xe.xdf2.slice p2 (lastEnd (p1, p2) changes).2 := by
  induction changes generalizing p1 p2 with
  | nil => simp [emitChanges, SameLines.refl]
  | cons xch changes ih =>
    obtain ⟨h1, h2, hgap⟩ := h.gap
    obtain ⟨-, -, hsame, -, -, hrest⟩ := h
    obtain ⟨hold, hnew⟩ := ih hrest
    obtain ⟨hle1, hle2⟩ := Aligned.le_lastEnd hrest
    have hmin : p2 + min (xch.i1 - p1) (xch.i2 - p2) = xch.i2 := by omega
    have hi1 : xch.i1 ≤ xch.end1 := Nat.le_add_right _ _
    have hi2 : xch.i2 ≤ xch.end2 := Nat.le_add_right _ _
    rw [lastEnd_cons, emitChanges, hmin]
    simp only [List.filterMap_append, filterMap_old_context, filterMap_new_context, filterMap_removed,
      filterMap_added, List.append_nil, hnew]
    constructor
    · rw [← slice_append xe.xdf1 h1 (hi1.trans hle1), ← slice_append xe.xdf1 hi1 hle1, ← List.append_assoc]
      exact (hsame.symm.append (SameLines.refl _)).append hold
    · rw [slice_append _ h2 hi2, slice_append _ (h2.trans hi2) hle2]

lemma getLast_end (xch : XdChange) (rest : List XdChange) (p : Nat × Nat) :
    ((xch :: rest).getLast (by simp)).end2 = (lastEnd p (xch :: rest)).2 := by
  rw [lastEnd, List.getLast?_eq_some_getLast (by simp), Option.map_some, Option.getD_some]

lemma emitChanges_context {s1 s2 : Nat} {xch : XdChange} {rest : List XdChange} (h2 : s2 ≤ xch.i2)
    (hgap : xch.i1 - s1 = xch.i2 - s2) :
    (xe.xdf2.slice s2 xch.i2).map HunkLine.context ++ emitChanges xe xch.i1 xch.i2 (xch :: rest) =
      emitChanges xe s1 s2 (xch :: rest) := by
  have hmin : s2 + min (xch.i1 - s1) (xch.i2 - s2) = xch.i2 := by omega
  rw [emitChanges, emitChanges, hmin]
  simp

/-- Where a hunk may stand: it starts in the common lines in front of its first change and ends
in those behind its last one. -/
structure Fits (xe : XdfEnv) (p : Nat × Nat) (changes rest : List XdChange) (start stop : Nat × Nat) :
    Prop where
  aligned : Aligned xe p.1 p.2 (changes ++ rest)
  ne_nil : changes ≠ []
  start_ge : p.1 ≤ start.1
  start_sync : start.2 = p.2 + (start.1 - p.1)
  start_le : start.1 ≤ nextStart xe (changes ++ rest)
  stop_ge : (lastEnd p changes).1 ≤ stop.1
  stop_sync : stop.2 = (lastEnd p changes).2 + (stop.1 - (lastEnd p changes).1)
  stop_le : stop.1 ≤ nextStart xe rest

variable {p start stop : Nat × Nat} {changes rest : List XdChange}

lemma Fits.aligned_start (h : Fits xe p changes rest start stop) :
    Aligned xe start.1 start.2 (changes ++ rest) ∧
      SameLines (xe.xdf1.slice p.1 start.1) (xe.xdf2.slice p.2 start.2) := by
  have hn : p.1 + (start.1 - p.1) = start.1 := Nat.add_sub_cancel' h.start_ge
  have := h.aligned.advance (n := start.1 - p.1) (by rw [hn]; exact h.start_le)
  rwa [hn, ← h.start_sync] at this

lemma lastEnd_of_ne_nil (hne : changes ≠ []) (p q : Nat × Nat) : lastEnd p changes = lastEnd q changes := by
  cases changes with
  | nil => exact absurd rfl hne
  | cons xch changes => rw [lastEnd_cons, lastEnd_cons]

lemma Fits.aligned_stop (h : Fits xe p changes rest start stop) :
    Aligned xe stop.1 stop.2 rest ∧
      SameLines (xe.xdf1.slice (lastEnd p changes).1 stop.1) (xe.xdf2.slice (lastEnd p changes).2 stop.2) := by
  have hn : (lastEnd p changes).1 + (stop.1 - (lastEnd p changes).1) = stop.1 :=
    Nat.add_sub_cancel' h.stop_ge
  have := (h.aligned.after).advance (n := stop.1 - (lastEnd p changes).1) (by rw [hn]; exact h.stop_le)
  rwa [hn, ← h.stop_sync] at this

lemma Aligned.nextStart_le {script : List XdChange} (h : Aligned xe p1 p2 script) :
    p1 ≤ nextStart xe script ∧ nextStart xe script ≤ xe.xdf1.nrec := by
  cases script with
  | nil => exact ⟨h.1, le_rfl⟩
  | cons xch rest => exact ⟨h.1, (Nat.le_add_right _ _).trans h.2.2.2.1⟩

lemma Fits.hunkLines (h : Fits xe p changes rest start stop) :
    SameLines ((hunkLines xe start.2 stop.2 changes).filterMap HunkLine.old?)
        (xe.xdf1.slice start.1 stop.1) ∧
      (hunkLines xe start.2 stop.2 changes).filterMap HunkLine.new? = xe.xdf2.slice start.2 stop.2 := by
  obtain ⟨haligned, -⟩ := h.aligned_start
  obtain ⟨-, hpost⟩ := h.aligned_stop
  obtain ⟨hold, hnew⟩ := emitChanges_lines haligned
  obtain ⟨hle1, hle2⟩ := haligned.le_lastEnd
  have hstop2 : (lastEnd p changes).2 ≤ stop.2 := by
    rw [h.stop_sync]
    exact Nat.le_add_right _ _
  rw [lastEnd_of_ne_nil h.ne_nil _ p] at hold hnew hle1 hle2
  cases changes with
  | nil => exact absurd rfl h.ne_nil
  | cons xch changes =>
    obtain ⟨h1, h2, hgap⟩ := haligned.gap
    rw [Xdiff.hunkLines, emitChanges_context h2 hgap, getLast_end xch changes p]
    simp only [List.filterMap_append, filterMap_old_context, filterMap_new_context, hnew]
    constructor
    · rw [← slice_append xe.xdf1 hle1 h.stop_ge]
      exact hold.append hpost.symm
    · exact slice_append _ hle2 hstop2

def makeHunk (xe : XdfEnv) (func : List UInt8) (changes : List XdChange) (start stop : Nat × Nat) : Hunk :=
  emitHunkHdr (start.1 + 1) (stop.1 - start.1) (start.2 + 1) (stop.2 - start.2) func
    (hunkLines xe start.2 stop.2 changes)

lemma oldStart_makeHunk (func : List UInt8) :
    (makeHunk xe func changes start stop).oldStart = start.1 ∧
      (makeHunk xe func changes start stop).newStart = start.2 := by
  simp only [makeHunk, emitHunkHdr, Hunk.oldStart, Hunk.newStart]
  constructor <;> split_ifs <;> rfl

lemma Fits.ends (h : Fits xe p changes rest start stop) (func : List UInt8) :
    start.1 ≤ stop.1 ∧ start.2 ≤ stop.2 ∧ stop.1 ≤ xe.xdf1.nrec ∧ stop.2 ≤ xe.xdf2.nrec ∧
      (makeHunk xe func changes start stop).oldEnd = stop.1 ∧
      (makeHunk xe func changes start stop).newEnd = stop.2 := by
  obtain ⟨haligned, -⟩ := h.aligned_start
  obtain ⟨haligned', -⟩ := h.aligned_stop
  obtain ⟨hle1, hle2⟩ := haligned.le_lastEnd
  rw [lastEnd_of_ne_nil h.ne_nil _ p] at hle1 hle2
  obtain ⟨hs1, hs2⟩ := @oldStart_makeHunk xe start stop changes func
  have hstop2 := h.stop_sync
  have h1 : start.1 ≤ stop.1 := hle1.trans h.stop_ge
  have h2 : start.2 ≤ stop.2 := by omega
  have hn2 : stop.2 ≤ xe.xdf2.nrec := by
    cases rest with
    | nil => exact haligned'.2.1
    | cons xch rest => exact haligned'.2.1.trans ((Nat.le_add_right _ _).trans haligned'.2.2.2.2.1)
  refine ⟨h1, h2, haligned'.nextStart_le.1.trans haligned'.nextStart_le.2, hn2, ?_, ?_⟩
  · rw [Hunk.oldEnd, hs1]
    exact Nat.add_sub_cancel' h1
  · rw [Hunk.newEnd, hs2]
    exact Nat.add_sub_cancel' h2

lemma Fits.counts (h : Fits xe p changes rest start stop) (func : List UInt8) :
    let hunk := makeHunk xe func changes start stop
    hunk.oldNr = hunk.oldLines.length ∧ hunk.newNr = hunk.newLines.length := by
  obtain ⟨hold, hnew⟩ := h.hunkLines
  obtain ⟨-, -, hn1, hn2, -, -⟩ := h.ends func
  have hold := hold.length
  rw [length_slice _ hn1] at hold
  have hnew := congrArg List.length hnew
  rw [length_slice _ hn2] at hnew
  exact ⟨hold.symm, hnew.symm⟩

/-- Lines that stand for those of the second file: the line itself, or one of the first file
of the same class. -/
def Rebuilds (xe : XdfEnv) (file lines : List XRecord) : Prop :=
  List.Forall₂ (fun r s => r = s ∨ r ∈ xe.xdf1.recs ∧ r.minimalPerfectHash = s.minimalPerfectHash) file lines

lemma Rebuilds.sameLines {file lines : List XRecord} (h : Rebuilds xe file lines) : SameLines file lines := by
  rw [SameLines, ← List.forall₂_eq_eq_eq, List.forall₂_map_left_iff, List.forall₂_map_right_iff]
  refine h.imp fun r s hrs => ?_
  rcases hrs with rfl | ⟨-, hclass⟩
  · rfl
  · exact hclass

lemma Rebuilds.eq {file : List XRecord} (h : Rebuilds xe file xe.xdf2.recs) (hexact : ClassesExact xe) :
    file = xe.xdf2.recs := by
  have hmem : List.Forall₂ (fun r s => r = s) file xe.xdf2.recs := by
    obtain ⟨hlen, hget⟩ := List.forall₂_iff_get.mp h
    rw [List.forall₂_iff_get]
    refine ⟨hlen, fun i hi hi' => ?_⟩
    rcases hget i hi hi' with heq | ⟨hr, hclass⟩
    · exact heq
    · exact hexact _ hr _ (List.get_mem _ _) hclass
  rwa [List.forall₂_eq_eq_eq] at hmem

lemma rebuilds_of_sameLines {a b : Nat} {lines : List XRecord}
    (h : SameLines (xe.xdf1.slice a b) lines) : Rebuilds xe (xe.xdf1.slice a b) lines := by
  rw [SameLines, ← List.forall₂_eq_eq_eq, List.forall₂_map_left_iff, List.forall₂_map_right_iff] at h
  obtain ⟨hlen, hget⟩ := List.forall₂_iff_get.mp h
  rw [Rebuilds, List.forall₂_iff_get]
  refine ⟨hlen, fun i hi hi' => .inr ⟨?_, hget i hi hi'⟩⟩
  exact List.mem_of_mem_drop (List.mem_of_mem_take (List.get_mem _ _))

lemma Rebuilds.refl (lines : List XRecord) : Rebuilds xe lines lines :=
  List.forall₂_same.mpr fun _ _ => .inl rfl

lemma Fits.apply (h : Fits xe p changes rest start stop) (func : List UInt8) {hunks : List Hunk}
    {file : List XRecord} (happly : applyHunks xe.xdf1.recs stop.1 hunks = some file)
    (hfile : Rebuilds xe file (xe.xdf2.slice stop.2 xe.xdf2.nrec)) :
    ∃ file', applyHunks xe.xdf1.recs p.1 (makeHunk xe func changes start stop :: hunks) = some file' ∧
      Rebuilds xe file' (xe.xdf2.slice p.2 xe.xdf2.nrec) := by
  obtain ⟨-, hpre⟩ := h.aligned_start
  obtain ⟨hold, hnew⟩ := h.hunkLines
  obtain ⟨h1, h2, hn1, hn2, hend, -⟩ := h.ends func
  obtain ⟨hstart, -⟩ := @oldStart_makeHunk xe start stop changes func
  have hp2 : p.2 ≤ start.2 := by
    rw [h.start_sync]
    exact Nat.le_add_right _ _
  have happly' : applyHunks xe.xdf1.recs p.1 (makeHunk xe func changes start stop :: hunks) =
      some (xe.xdf1.slice p.1 start.1 ++ (makeHunk xe func changes start stop).newLines ++ file) := by
    rw [applyHunks, hstart, if_pos ⟨h.start_ge, hold⟩, hend, happly, Option.map_some, XdFile.slice]
  refine ⟨_, happly', ?_⟩
  · rw [← slice_append _ hp2 (h2.trans hn2), ← slice_append _ h2 hn2, ← List.append_assoc]
    refine List.rel_append (List.rel_append (rebuilds_of_sameLines hpre) ?_) hfile
    have : (makeHunk xe func changes start stop).newLines = _ := hnew
    rw [this]
    exact Rebuilds.refl _

end Emit

end GitCore.Xdiff
