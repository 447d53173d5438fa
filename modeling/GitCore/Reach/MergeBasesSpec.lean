import GitCore.Reach.Redundant

/-!
# What is a merge base

`repo_get_merge_bases_many` returns the common ancestors that are not proper ancestors of another
one. Without `MERGE_BASE_FIND_ALL` the walk stops at the first common ancestor with a finite
generation number.
-/

namespace GitCore.Reach

variable {C : Type} [DecidableEq C] [Fintype C] {dag : CommitDag C} {one : C} {twos : List C}

omit [DecidableEq C] [Fintype C] in
lemma isMergeBase_of_mem (h : one ∈ twos) (c : C) : IsMergeBase dag one twos c ↔ c = one := by
  have hone : IsCommon dag one twos one := ⟨.refl, one, h, .refl⟩
  constructor
  · rintro ⟨hc, hmax⟩
    obtain rfl | hlt := reaches_iff_eq_or_properAncestor.mp hc.1
    · rfl
    · exact absurd hlt (hmax one hone)
  · rintro rfl
    exact ⟨hone, fun d hd hlt => not_properAncestor_self c (hlt.of_reaches_left hd.1)⟩

omit [DecidableEq C] [Fintype C] in
lemma mem_commitListSortByDate {list : List C} {c : C} : c ∈ commitListSortByDate dag list ↔ c ∈ list :=
  List.mem_insertionSort _

omit [DecidableEq C] [Fintype C] in
lemma nodup_commitListSortByDate {list : List C} (h : list.Nodup) : (commitListSortByDate dag list).Nodup :=
  (List.perm_insertionSort _ _).nodup_iff.mpr h

variable {correctedCommitDatesEnabled : Bool}

lemma getMergeBasesMany0_reduces {marks : Marks C} {list : List C} {findAll : Bool}
    (generationNumbersEnabled cleanup : Bool) (hone : one ∉ twos)
    (hmany : mergeBasesMany dag correctedCommitDatesEnabled ∅ one twos findAll = some (marks, list))
    (hnodup : list.Nodup) (hclear : clearCommitMarksMany dag allFlags marks (one :: twos) = ∅) :
    ∃ marks' result, getMergeBasesMany0 dag generationNumbersEnabled correctedCommitDatesEnabled ∅ one twos
        cleanup findAll = some (marks', result) ∧ result.Nodup ∧ (cleanup = true → marks' = ∅) ∧
      ∀ c, c ∈ result ↔ c ∈ list ∧ Independent dag list c := by
  unfold getMergeBasesMany0
  rw [hmany]
  dsimp only
  rw [if_neg hone]
  by_cases hlen : list.length ≤ 1
  · rw [if_pos hlen]
    refine ⟨_, list, rfl, hnodup, fun hcleanup => ?_, fun c => ⟨fun hc => ⟨hc, fun d hd => ?_⟩, And.left⟩⟩
    · rw [if_pos hcleanup, hclear]
    · obtain ⟨e, rfl⟩ := List.length_eq_one_iff.mp (le_antisymm hlen (List.length_pos_of_mem hc))
      rw [List.mem_singleton.mp hc, List.mem_singleton.mp hd]
      exact not_properAncestor_self e
  · rw [if_neg hlen, hclear]
    obtain ⟨kept, hrun, hsub, hkept⟩ :=
      removeRedundant_keeps dag generationNumbersEnabled correctedCommitDatesEnabled hnodup
    rw [hrun]
    refine ⟨∅, commitListSortByDate dag kept, rfl, nodup_commitListSortByDate (hsub.nodup hnodup),
      fun _ => rfl, fun c => ?_⟩
    rw [mem_commitListSortByDate, hkept]

omit [DecidableEq C] in
lemma independent_iff_isMergeBase {list : List C} (hcommon : ∀ c ∈ list, IsCommon dag one twos c)
    (hall : ∀ c, IsMergeBase dag one twos c → c ∈ list) (c : C) :
    c ∈ list ∧ Independent dag list c ↔ IsMergeBase dag one twos c := by
  constructor
  · rintro ⟨hc, hind⟩
    refine ⟨hcommon c hc, fun d hd hlt => ?_⟩
    obtain ⟨m, hm, hreach⟩ := exists_mergeBase hd
    exact hind m (hall m hm) (hlt.of_reaches_left hreach)
  · intro hc
    exact ⟨hall c hc, fun d hd => hc.2 d (hcommon d hd)⟩

lemma mergeBasesMany_of_painted {findAll : Bool} {marks : Marks C} {result : List C} (hone : one ∉ twos)
    (hpaint : paintDownToCommon dag correctedCommitDatesEnabled ∅ one twos 0 findAll = .done marks result) :
    mergeBasesMany dag correctedCommitDatesEnabled ∅ one twos findAll =
      some (marks, commitListSortByDate dag (result.filter (fun c => (c, .stale) ∉ marks))) := by
  unfold mergeBasesMany
  rw [if_neg hone, hpaint]

omit [Fintype C] in
lemma mem_mergeBases {marks : Marks C} {result : List C} {c : C} :
    c ∈ commitListSortByDate dag (result.filter (fun c => (c, .stale) ∉ marks)) ↔
      c ∈ result ∧ (c, .stale) ∉ marks := by
  rw [mem_commitListSortByDate, List.mem_filter, decide_eq_true_eq]

/-- `repo_get_merge_bases_many` returns the merge bases, each once, both forms of `remove_redundant`
keep the independent commits, and no marks are left. -/
theorem repoGetMergeBasesMany_spec (dag : CommitDag C) (generationNumbersEnabled correctedCommitDatesEnabled : Bool)
    (one : C) (twos : List C) (htwos : twos ≠ []) :
    (∃ result, repoGetMergeBasesMany dag generationNumbersEnabled correctedCommitDatesEnabled ∅ one twos =
        some (∅, result) ∧ result.Nodup ∧ ∀ c, c ∈ result ↔ IsMergeBase dag one twos c) ∧
    ∀ array : List C, array.Nodup → array ≠ [] →
      ∃ kept, removeRedundantWithGen dag ∅ array = some (∅, kept) ∧
        removeRedundantNoGen dag correctedCommitDatesEnabled ∅ array = some (∅, kept) ∧ Keeps dag array kept := by
  refine ⟨?_, fun array hnodup hne => ?_⟩
  · by_cases hone : one ∈ twos
    · refine ⟨[one], ?_, List.nodup_singleton one, fun c => ?_⟩
      · simp [repoGetMergeBasesMany, getMergeBasesMany0, mergeBasesMany, hone]
      · rw [isMergeBase_of_mem hone, List.mem_singleton]
    · obtain ⟨marks, found, hpaint, hp⟩ :=
        paintDownToCommon_painted dag correctedCommitDatesEnabled one htwos 0 true
      obtain ⟨marks', result, hrun, hnodup, hmarks, hresult⟩ :=
        getMergeBasesMany0_reduces generationNumbersEnabled true hone
          (mergeBasesMany_of_painted hone hpaint) (nodup_commitListSortByDate (hp.result_nodup.filter _)) hp.clear
      refine ⟨result, ?_, hnodup, fun c => ?_⟩
      · rw [repoGetMergeBasesMany, hrun, hmarks rfl]
      · rw [hresult]
        refine independent_iff_isMergeBase (fun d hd => hp.isCommon (mem_mergeBases.mp hd).1) (fun d hd => ?_) c
        exact mem_mergeBases.mpr (hp.mergeBase_mem_findAll rfl hd)
  · obtain ⟨kept, hgen, hkept⟩ := removeRedundantWithGen_keeps dag hnodup hne
    obtain ⟨kept', hno, hkept'⟩ := removeRedundantNoGen_keeps dag correctedCommitDatesEnabled hnodup
    rw [hkept'.unique hnodup hkept] at hno
    exact ⟨kept, hgen, hno, hkept⟩

/-- Commit 1 is dated before its parent 0. Commits 2 and 3 have both as parents; the generation
numbers are topological levels. -/
def skewedDag : CommitDag (Fin 4) where
  parents := ![[], [0], [0, 1], [0, 1]]
  date := ![10, 5, 20, 20]
  generation := ![1, 2, 3, 3]
  acyclic := Subrelation.wf (fun {p c} hp => by revert p c; decide) (wellFounded_lt (α := Fin 4))
  generation_pos := by decide
  generation_le := by simp [generationNumberInfinity]; decide
  generation_lt := by
    intro c p hp _
    revert c p
    decide

theorem repoGetMergeBasesMany_skewed :
    (∃ result, repoGetMergeBasesMany skewedDag true false ∅ 2 [3] = some (∅, result) ∧ result.Nodup ∧
        ∀ c, c ∈ result ↔ IsMergeBase skewedDag 2 [3] c) ∧
      ∀ array : List (Fin 4), array.Nodup → array ≠ [] →
        ∃ kept, removeRedundantWithGen skewedDag ∅ array = some (∅, kept) ∧
          removeRedundantNoGen skewedDag false ∅ array = some (∅, kept) ∧ Keeps skewedDag array kept :=
  repoGetMergeBasesMany_spec skewedDag true false 2 [3] (by simp)

/-- Without a second commit `one` is returned, which is no common ancestor. -/
theorem repoGetMergeBasesMany_none :
    repoGetMergeBasesMany skewedDag true false ∅ 2 [] = some (∅, [2]) ∧ ¬ IsMergeBase skewedDag 2 [] 2 := by
  constructor
  · simp [repoGetMergeBasesMany, getMergeBasesMany0, mergeBasesMany, paintDownToCommon_nil, clear_parent1,
      commitListSortByDate]
  · rintro ⟨⟨-, two, htwo, -⟩, -⟩
    cases htwo

end GitCore.Reach
