import GitCore.Reach.MergeBasesSpec

/-!
# Stopping at the first common ancestor

Without `MERGE_BASE_FIND_ALL` the walk stops at the first common ancestor with a finite generation
number. This is right where the queue is ordered by generation numbers. By default it is ordered by
dates.
-/

namespace GitCore.Reach

variable {C : Type} [DecidableEq C] {dag : CommitDag C} {le : C → C → Bool} {one : C} {twos : List C}

def StopsAt (dag : CommitDag C) (s : PaintState C) (c : C) : Prop :=
  s.maxNonstale ≠ none ∧ s.queue.head? = some c ∧ paintFlags s.marks c = [.parent1, .parent2] ∧
    (c, .result) ∉ s.marks ∧ dag.generation c < generationNumberInfinity

/-- The common ancestors that are known when the walk stops at `c`. -/
def knownAt (s : PaintState C) (c : C) : List C :=
  (s.result ++ [c]).filter (fun r => (r, .stale) ∉ s.marks)

/-- A known commit that is a proper ancestor of a common ancestor is one of a known commit. -/
def NothingAbove (dag : CommitDag C) (one : C) (twos : List C) (s : PaintState C) (c : C) : Prop :=
  ∀ r ∈ knownAt s c, (∃ d, IsCommon dag one twos d ∧ ProperAncestor dag r d) →
    ∃ d ∈ knownAt s c, ProperAncestor dag r d

/-- A state of the walk without `MERGE_BASE_FIND_ALL` and without a smallest generation. -/
def WalkReaches (dag : CommitDag C) (correctedCommitDatesEnabled : Bool) (one : C) (twos : List C)
    (s : PaintState C) : Prop :=
  LoopRun (paintStep dag (paintOrder dag 0 correctedCommitDatesEnabled) 0 false)
    (paintStart (paintOrder dag 0 correctedCommitDatesEnabled) ∅ one twos) s

/-- The returned commits are merge bases, and there is one if there is a common ancestor. -/
def FindsMergeBase (dag : CommitDag C) [Fintype C] (generationNumbersEnabled correctedCommitDatesEnabled : Bool)
    (one : C) (twos : List C) : Prop :=
  ∃ marks result, repoGetMergeBasesManyDirty dag generationNumbersEnabled correctedCommitDatesEnabled ∅ one twos
      false = some (marks, result) ∧
    ((∃ c, IsCommon dag one twos c) → result ≠ []) ∧ ∀ c ∈ result, IsMergeBase dag one twos c

lemma paintFlags_getDedup (s : PaintState C) (c : C) (queue : List C) (d : C) :
    paintFlags (nonstaleQueueGetDedup s c queue).marks d = paintFlags s.marks d := by
  refine List.filter_congr fun m hm => ?_
  have hne : m ≠ .enqueued := by
    rintro rfl
    simp at hm
  simp [nonstaleQueueGetDedup, hne]

lemma StopsAt.step {s : PaintState C} {c : C} (h : StopsAt dag s c) :
    paintStep dag le 0 false s =
      .inr (.done (insert (c, .result) (s.marks.erase (c, .enqueued))) (s.result ++ [c])) := by
  obtain ⟨hmax, hhead, hflags, hres, hgen⟩ := h
  obtain ⟨bound, hbound⟩ := Option.ne_none_iff_exists'.mp hmax
  obtain ⟨queue, hqueue⟩ : ∃ queue, s.queue = c :: queue := by
    cases hq : s.queue with
    | nil => simp [hq] at hhead
    | cons first queue =>
      rw [hq, List.head?_cons, Option.some_inj] at hhead
      exact ⟨queue, by rw [hhead]⟩
  have hres' : (c, Mark.result) ∉ (nonstaleQueueGetDedup s c queue).marks := by
    simp [nonstaleQueueGetDedup, hres]
  simp only [paintStep, hbound, hqueue, paintCommit, paintFlags_getDedup, hflags]
  rw [if_neg (by simp), if_neg (by simp), if_pos trivial, if_neg hres', if_pos (by simp [hgen])]
  rfl

lemma paintStep_findAll {s : PaintState C} (h : ∀ c, ¬ StopsAt dag s c) :
    paintStep dag le 0 false s = paintStep dag le 0 true s := by
  unfold paintStep
  split
  · rfl
  · rfl
  · rename_i bound c queue hmax hqueue
    have hstop := h c
    simp only [paintCommit, paintFlags_getDedup]
    by_cases hflags : paintFlags s.marks c = [.parent1, .parent2]
    · by_cases hres : (c, Mark.result) ∈ s.marks
      · have : (c, Mark.result) ∈ (nonstaleQueueGetDedup s c queue).marks := by simp [nonstaleQueueGetDedup, hres]
        simp [hflags, this]
      · have hgen : ¬ dag.generation c < generationNumberInfinity := by
          intro hgen
          exact hstop ⟨by simp [hmax], by simp [hqueue], hflags, hres, hgen⟩
        simp [hflags, hgen]
    · simp [hflags]

section

variable {s : PaintState C} {c : C} {correctedCommitDatesEnabled : Bool}

lemma StopsAt.not_stale (h : StopsAt dag s c) : (c, .stale) ∉ s.marks :=
  (paintFlags_eq_both.mp h.2.2.1).2.2

lemma WalkReaches.inv (h : WalkReaches dag correctedCommitDatesEnabled one twos s) :
    PaintInv dag (paintOrder dag 0 correctedCommitDatesEnabled) one twos 0 (fun _ _ => False) (fun _ => False)
      (startMarks one twos) s := by
  have hle := queueOrder_paintOrder dag 0 correctedCommitDatesEnabled
  refine LoopRun.inv _ (fun s s' hs hstep => ?_) h (paintInv_start hle one twos 0)
  have hstarts : ∀ x ∈ startMarks one twos, x.2 ≠ .enqueued := startMarks_ne one twos
  have := roundKeeps_paintStep hle (fun hmin => absurd rfl hmin) false hstarts hs
  rwa [hstep] at this

lemma WalkReaches.result_infinite (h : WalkReaches dag correctedCommitDatesEnabled one twos s) :
    ∀ r ∈ s.result, generationNumberInfinity ≤ dag.generation r := by
  refine LoopRun.inv (fun s => ∀ r ∈ s.result, generationNumberInfinity ≤ dag.generation r)
    (fun s s' hs hstep => ?_) h ?_
  · unfold paintStep at hstep
    split at hstep
    · cases hstep
    · cases hstep
    · rename_i bound c queue hmax hqueue
      simp only [paintCommit] at hstep
      split_ifs at hstep with hbug hlow hflags hres hstop
      all_goals obtain rfl := Sum.inl.inj hstep
      · rw [result_parents]
        exact hs
      · rw [result_parents]
        intro r hr
        obtain hr | hr := List.mem_append.mp hr
        · exact hs r hr
        · rw [List.mem_singleton.mp hr]
          simpa using hstop
      · rw [result_parents]
        exact hs
  · rw [paintStart, result_starts, (putDedup_rest _ one).1]
    simp

lemma nothingAbove_of_ordered [Finite C] (hord : GenOrdered dag (paintOrder dag 0 correctedCommitDatesEnabled))
    (h : WalkReaches dag correctedCommitDatesEnabled one twos s) (hstop : StopsAt dag s c) :
    NothingAbove dag one twos s c := by
  have hinv := h.inv
  have hknown : ∀ r ∈ knownAt s c, dag.generation c ≤ dag.generation r := by
    intro r hr
    obtain hr | hr := List.mem_append.mp (List.mem_filter.mp hr).1
    · exact hstop.2.2.2.2.le.trans (h.result_infinite r hr)
    · rw [List.mem_singleton.mp hr]
  have hqueue : ∀ d ∈ s.queue, dag.generation d ≤ dag.generation c := by
    intro d hd
    have hsorted := hinv.sorted
    cases hq : s.queue with
    | nil => simp [hq] at hd
    | cons first queue =>
      have hhead := hstop.2.1
      rw [hq, List.head?_cons, Option.some_inj] at hhead
      rw [hq] at hsorted hd
      subst hhead
      cases hd with
      | head => exact le_rfl
      | tail _ hd => exact hord _ d ((List.pairwise_cons.mp hsorted).1 d hd)
  rintro r hr ⟨d, hd, hlt⟩
  obtain ⟨m, hm, hreach⟩ := exists_mergeBase hd
  have hrm : ProperAncestor dag r m := hlt.of_reaches_left hreach
  have habove : dag.generation c < dag.generation m := by
    by_cases hfin : dag.generation m < generationNumberInfinity
    · exact (hknown r hr).trans_lt (generation_lt_of_properAncestor hrm hfin)
    · exact hstop.2.2.2.2.trans_le (not_lt.mp hfin)
  have hfound := hinv.toPaintSound.mergeBase_result hm fun e he _ => by
    have hout : e ∉ s.queue := by
      intro hin
      have := generation_le_of_reaches he
      have := hqueue e hin
      omega
    exact ⟨fun p hp m hm => hinv.handed e hout p hp id m hm, hinv.found e hout id⟩
  refine ⟨m, ?_, hrm⟩
  simp only [knownAt, List.mem_filter, List.mem_append, decide_eq_true_eq]
  exact ⟨.inl ((hinv.mem_result m).mp hfound.1), hfound.2⟩

section

variable [Fintype C]

lemma paintDownToCommon_of_run {marks : Marks C} {result : List C} (htwos : twos ≠ [])
    (hrun : WalkReaches dag correctedCommitDatesEnabled one twos s)
    (hstep : paintStep dag (paintOrder dag 0 correctedCommitDatesEnabled) 0 false s = .inr (.done marks result)) :
    paintDownToCommon dag correctedCommitDatesEnabled ∅ one twos 0 false =
      .done marks (commitListSortByDate dag result) := by
  unfold paintDownToCommon paintWith
  rw [if_neg htwos, loop_of_run hrun hstep]

lemma StopsAt.returns (generationNumbersEnabled : Bool) (htwos : twos ≠ []) (hone : one ∉ twos)
    (hrun : WalkReaches dag correctedCommitDatesEnabled one twos s) (hstop : StopsAt dag s c) :
    ∃ marks result, repoGetMergeBasesManyDirty dag generationNumbersEnabled correctedCommitDatesEnabled ∅ one twos
        false = some (marks, result) ∧
      ∀ d, d ∈ result ↔ d ∈ knownAt s c ∧ Independent dag (knownAt s c) d := by
  have hpaint := paintDownToCommon_of_run htwos hrun hstop.step
  obtain ⟨marks, found, hpaint', hp⟩ := paintDownToCommon_painted dag correctedCommitDatesEnabled one htwos 0 false
  rw [hpaint] at hpaint'
  obtain ⟨rfl, rfl⟩ := PaintResult.done.inj hpaint'
  obtain ⟨marks', result, hreturn, -, -, hresult⟩ :=
    getMergeBasesMany0_reduces generationNumbersEnabled false hone (mergeBasesMany_of_painted hone hpaint)
      (nodup_commitListSortByDate (hp.result_nodup.filter _)) hp.clear
  refine ⟨marks', result, hreturn, fun d => ?_⟩
  have hmem : ∀ e, e ∈ commitListSortByDate dag ((commitListSortByDate dag (s.result ++ [c])).filter
      (fun e => (e, .stale) ∉ insert (c, Mark.result) (s.marks.erase (c, .enqueued)))) ↔ e ∈ knownAt s c := by
    intro e
    rw [mem_mergeBases, mem_commitListSortByDate, knownAt, List.mem_filter, decide_eq_true_eq]
    simp
  rw [hresult, hmem]
  simp only [Independent, hmem]

omit [Fintype C] in
lemma WalkReaches.isCommon (h : WalkReaches dag correctedCommitDatesEnabled one twos s) (hstop : StopsAt dag s c) :
    ∀ r ∈ knownAt s c, IsCommon dag one twos r := by
  intro r hr
  have hinv := h.inv
  obtain hr | hr := List.mem_append.mp (List.mem_filter.mp hr).1
  · obtain ⟨h1, h2⟩ := hinv.both r .result ((hinv.mem_result r).mpr hr) (.inr rfl)
    exact ⟨hinv.parent1 r h1, hinv.parent2 r h2⟩
  · obtain ⟨h1, h2, -⟩ := paintFlags_eq_both.mp hstop.2.2.1
    rw [List.mem_singleton.mp hr]
    exact ⟨hinv.parent1 c h1, hinv.parent2 c h2⟩

lemma StopsAt.finds_iff (generationNumbersEnabled : Bool) (htwos : twos ≠ []) (hone : one ∉ twos)
    (hrun : WalkReaches dag correctedCommitDatesEnabled one twos s) (hstop : StopsAt dag s c) :
    FindsMergeBase dag generationNumbersEnabled correctedCommitDatesEnabled one twos ↔
      NothingAbove dag one twos s c := by
  obtain ⟨marks, result, hreturn, hresult⟩ := hstop.returns generationNumbersEnabled htwos hone hrun
  constructor
  · rintro ⟨marks', result', hreturn', -, hall⟩ r hr ⟨d, hd, hlt⟩
    rw [hreturn] at hreturn'
    obtain ⟨rfl, rfl⟩ := Prod.mk.inj (Option.some.inj hreturn')
    by_contra hnone
    push Not at hnone
    exact (hall r ((hresult r).mpr ⟨hr, hnone⟩)).2 d hd hlt
  · intro hnothing
    refine ⟨marks, result, hreturn, fun _ => ?_, fun r hr => ?_⟩
    · have hc : c ∈ knownAt s c := by simp [knownAt, hstop.not_stale]
      obtain ⟨m, hm, -, hind⟩ := @exists_independent _ dag _ _ _ hc
      exact List.ne_nil_of_mem ((hresult m).mpr ⟨hm, hind⟩)
    · obtain ⟨hr, hind⟩ := (hresult r).mp hr
      refine ⟨hrun.isCommon hstop r hr, fun d hd hlt => ?_⟩
      obtain ⟨e, he, hre⟩ := hnothing r hr ⟨d, hd, hlt⟩
      exact hind e he hre

lemma findsMergeBase_of_no_stop (generationNumbersEnabled : Bool) (htwos : twos ≠ []) (hone : one ∉ twos)
    (hrun : WalkReaches dag correctedCommitDatesEnabled one twos s) (hstops : ∀ c, ¬ StopsAt dag s c)
    {r : PaintResult C} (hlast : paintStep dag (paintOrder dag 0 correctedCommitDatesEnabled) 0 false s = .inr r) :
    FindsMergeBase dag generationNumbersEnabled correctedCommitDatesEnabled one twos := by
  have hpainted := roundKeeps_paintStep (queueOrder_paintOrder dag 0 correctedCommitDatesEnabled)
    (fun hmin => absurd rfl hmin) true (startMarks_ne one twos) hrun.inv
  rw [← paintStep_findAll hstops, hlast] at hpainted
  cases r with
  | bug => exact hpainted.elim
  | done marks found =>
    have hp : Painted dag one twos 0 true _ (startMarks one twos) marks found := hpainted
    have hp' := hp.perm (List.perm_insertionSort (fun a b => dag.date b ≤ dag.date a) found)
    have hpaint := paintDownToCommon_of_run htwos hrun hlast
    obtain ⟨marks', result, hreturn, -, -, hresult⟩ :=
      getMergeBasesMany0_reduces generationNumbersEnabled false hone (mergeBasesMany_of_painted hone hpaint)
        (nodup_commitListSortByDate (hp'.result_nodup.filter _)) hp'.clear
    have hmem : ∀ c, c ∈ result ↔ IsMergeBase dag one twos c := by
      intro c
      rw [hresult]
      refine independent_iff_isMergeBase (fun d hd => hp'.isCommon (mem_mergeBases.mp hd).1)
        (fun d hd => ?_) c
      exact mem_mergeBases.mpr (hp'.mergeBase_mem_findAll rfl hd)
    refine ⟨marks', result, hreturn, fun hcommon => ?_, fun c hc => (hmem c).mp hc⟩
    obtain ⟨d, hd⟩ := hcommon
    obtain ⟨m, hm, -⟩ := exists_mergeBase hd
    exact List.ne_nil_of_mem ((hmem m).mpr hm)

lemma not_findsMergeBase_nil (dag : CommitDag C) (generationNumbersEnabled correctedCommitDatesEnabled : Bool)
    (one : C) : ¬ FindsMergeBase dag generationNumbersEnabled correctedCommitDatesEnabled one [] := by
  rintro ⟨marks, result, hrun, -, hall⟩
  have hmem : one ∈ result := by
    simp [repoGetMergeBasesManyDirty, getMergeBasesMany0, mergeBasesMany, paintDownToCommon_nil,
      commitListSortByDate] at hrun
    simp [← hrun.2]
  obtain ⟨⟨-, two, htwo, -⟩, -⟩ := hall one hmem
  cases htwo

lemma findsMergeBase_iff_nothingAbove (dag : CommitDag C)
    (generationNumbersEnabled correctedCommitDatesEnabled : Bool) (one : C) (twos : List C) :
    FindsMergeBase dag generationNumbersEnabled correctedCommitDatesEnabled one twos ↔
      twos ≠ [] ∧ (one ∈ twos ∨ ∀ s c, WalkReaches dag correctedCommitDatesEnabled one twos s → StopsAt dag s c →
        NothingAbove dag one twos s c) := by
  by_cases hone : one ∈ twos
  · have htwos : twos ≠ [] := List.ne_nil_of_mem hone
    refine ⟨fun _ => ⟨htwos, .inl hone⟩, fun _ => ?_⟩
    refine ⟨∅, [one], ?_, by simp, fun c hc => ?_⟩
    · simp [repoGetMergeBasesManyDirty, getMergeBasesMany0, mergeBasesMany, hone]
    · exact (isMergeBase_of_mem hone c).mpr (List.mem_singleton.mp hc)
  by_cases htwos : twos = []
  · subst htwos
    exact ⟨fun h => absurd h (not_findsMergeBase_nil dag _ _ one), fun h => absurd rfl h.1⟩
  rw [and_iff_right htwos, or_iff_right hone]
  constructor
  · intro h s c hrun hstop
    exact (hstop.finds_iff generationNumbersEnabled htwos hone hrun).mp h
  · intro hcond
    obtain ⟨s, hrun, hlast⟩ := exists_loopRun _ _
      (paintStep_size dag (paintOrder dag 0 correctedCommitDatesEnabled) 0 false)
      (paintStart (paintOrder dag 0 correctedCommitDatesEnabled) ∅ one twos)
    by_cases hstops : ∃ c, StopsAt dag s c
    · obtain ⟨c, hstop⟩ := hstops
      exact (hstop.finds_iff generationNumbersEnabled htwos hone hrun).mpr (hcond s c hrun hstop)
    · push Not at hstops
      exact findsMergeBase_of_no_stop generationNumbersEnabled htwos hone hrun hstops hlast

end

end

end GitCore.Reach
