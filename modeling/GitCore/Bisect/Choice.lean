import GitCore.Bisect.Spec

/-!
# When the choice is right

`do_find_bisection` counts a merge whether it changes the tree or not. When that makes it stop before all weights are
known, the commits without a weight are passed over.
-/

namespace GitCore.Bisect

variable {C : Type} [DecidableEq C] {h : History C} {flags : BisectFlags} {list : List C} {known : Finset C}
  {st : Weights C} {c d p : C} {w : Int}

noncomputable def trueDistance (h : History C) (flags : BisectFlags) (list : List C) (c : C) : Int :=
  distance (reachCount h flags list c) (treeChanging h list)

/-- A commit that halves the list: it is accepted, or no other one is farther from both ends. -/
def Halves (h : History C) (flags : BisectFlags) (list : List C) (c : C) : Prop :=
  approxHalfway h c (reachCount h flags list c) (treeChanging h list) = true ∨
    ∀ d ∈ list, h.treeSame d = false → trueDistance h flags list d ≤ trueDistance h flags list c

noncomputable def decorated (h : History C) (flags : BisectFlags) (list : List C) : List (C × Int) :=
  (list.filter fun c => ¬h.treeSame c).map fun c => (c, trueDistance h flags list c)

/-- What is to be returned: a commit that halves the list with its weight, or all commits that change the tree, the
farthest ones first. -/
def RightChoice (h : History C) (flags : BisectFlags) (list : List C) : Bisection C → Prop
  | .nothing => False
  | .best c w => flags.all = false ∧ c ∈ list ∧ h.treeSame c = false ∧ w = reachCount h flags list c ∧
      Halves h flags list c
  | .sorted commits => flags.all = true ∧ commits.Perm (decorated h flags list) ∧
      commits.Pairwise fun a b => b.2 ≤ a.2

def EnoughKnown (h : History C) (flags : BisectFlags) (list : List C) : Prop :=
  if flags.all then ∀ c ∈ list, h.treeSame c = false → c ∈ knownCommits h flags list
  else ∃ c ∈ list, h.treeSame c = false ∧ c ∈ knownCommits h flags list ∧ Halves h flags list c

noncomputable def shownDistance (h : History C) (flags : BisectFlags) (list : List C) (known : Finset C) (c : C) : Int :=
  if c ∈ known then trueDistance h flags list c else -1

lemma distance_slot (c : C) :
    distance (if c ∈ known then (reachCount h flags list c : Int) else -1) (treeChanging h list) =
      shownDistance h flags list known c := by
  rw [shownDistance]
  split_ifs
  · rfl
  · rw [distance, if_neg (by omega)]

lemma trueDistance_nonneg (hl : Listing h list) (c : C) : 0 ≤ trueDistance h flags list c := by
  have hle := @reachCount_le _ _ h flags list hl.nodup c
  rw [trueDistance, distance]
  split_ifs <;> omega

lemma Halves.of_le (hc : Halves h flags list c) (hd : h.treeSame d = false)
    (hle : trueDistance h flags list c ≤ trueDistance h flags list d) : Halves h flags list d := by
  obtain haccepted | hmax := hc
  · refine .inl ?_
    rw [approxHalfway] at haccepted ⊢
    split_ifs at haccepted with hsame
    rw [trueDistance, distance, trueDistance, distance] at hle
    simp only [decide_eq_true_eq] at haccepted
    rw [hd, if_neg (by decide)]
    simp only [decide_eq_true_eq]
    split_ifs at hle <;> omega
  · exact .inr fun e he hsame => (hmax e he hsame).trans hle

lemma bestBisectionLoop_spec (hst : FillInv h flags list known st) {l : List C} (hsub : l ⊆ list) (best : C)
    (bestDistance : Int) :
    ∃ b, bestBisectionLoop h st (treeChanging h list) l best bestDistance = some b ∧
      ((b = best ∧ ∀ c ∈ l, h.treeSame c = false → shownDistance h flags list known c ≤ bestDistance) ∨
        b ∈ l ∧ h.treeSame b = false ∧ bestDistance < shownDistance h flags list known b ∧
          ∀ c ∈ l, h.treeSame c = false → shownDistance h flags list known c ≤ shownDistance h flags list known b) := by
  induction l generalizing best bestDistance with
  | nil => exact ⟨best, rfl, .inl ⟨rfl, List.forall_mem_nil _⟩⟩
  | cons p l ih =>
    obtain ⟨hp, hsub⟩ := List.cons_subset.mp hsub
    rw [bestBisectionLoop]
    cases hsame : h.treeSame p with
    | true =>
      have hskip : ∀ c ∈ p :: l, h.treeSame c = false → c ∈ l := fun c hc hchanges => by
        obtain rfl | hc := List.mem_cons.mp hc
        · rw [hsame] at hchanges
          cases hchanges
        · exact hc
      rw [if_pos rfl]
      obtain ⟨b, hb, ⟨rfl, hle⟩ | ⟨hmem, hchanges, hlt, hle⟩⟩ := ih hsub best bestDistance
      · exact ⟨b, hb, .inl ⟨rfl, fun c hc hc' => hle c (hskip c hc hc') hc'⟩⟩
      · exact ⟨b, hb, .inr ⟨List.mem_cons_of_mem p hmem, hchanges, hlt, fun c hc hc' => hle c (hskip c hc hc') hc'⟩⟩
    | false =>
      rw [if_neg (by decide), hst.weight p hp]
      dsimp only
      rw [distance_slot]
      by_cases hfar : bestDistance < shownDistance h flags list known p
      · rw [if_pos hfar]
        obtain ⟨b, hb, ⟨rfl, hle⟩ | ⟨hmem, hchanges, hlt, hle⟩⟩ := ih hsub p (shownDistance h flags list known p)
        · refine ⟨b, hb, .inr ⟨List.mem_cons_self, hsame, hfar, fun c hc hc' => ?_⟩⟩
          obtain rfl | hc := List.mem_cons.mp hc
          · exact le_rfl
          · exact hle c hc hc'
        · refine ⟨b, hb, .inr ⟨List.mem_cons_of_mem p hmem, hchanges, hfar.trans hlt, fun c hc hc' => ?_⟩⟩
          obtain rfl | hc := List.mem_cons.mp hc
          · exact hlt.le
          · exact hle c hc hc'
      · rw [if_neg hfar]
        have hnear := not_lt.mp hfar
        obtain ⟨b, hb, ⟨rfl, hle⟩ | ⟨hmem, hchanges, hlt, hle⟩⟩ := ih hsub best bestDistance
        · refine ⟨b, hb, .inl ⟨rfl, fun c hc hc' => ?_⟩⟩
          obtain rfl | hc := List.mem_cons.mp hc
          · exact hnear
          · exact hle c hc hc'
        · refine ⟨b, hb, .inr ⟨List.mem_cons_of_mem p hmem, hchanges, hlt, fun c hc hc' => ?_⟩⟩
          obtain rfl | hc := List.mem_cons.mp hc
          · exact hnear.trans hlt.le
          · exact hle c hc hc'

lemma bestBisection_spec (hl : Listing h list) (hchanges : ∃ c ∈ list, h.treeSame c = false) (hone : flags.all = false)
    (hst : FillInv h flags list known st) :
    ∃ r, bestBisection h st (treeChanging h list) list = some r ∧
      (RightChoice h flags list r ↔
        ∃ c ∈ list, h.treeSame c = false ∧ c ∈ known ∧ Halves h flags list c) := by
  obtain ⟨head, rest, rfl⟩ : ∃ head rest, list = head :: rest := by
    obtain ⟨c, hc, -⟩ := hchanges
    exact List.exists_cons_of_ne_nil (List.ne_nil_of_mem hc)
  obtain ⟨b, hb, hbest⟩ := bestBisectionLoop_spec hst (List.Subset.refl _) head (-1)
  have hmem : b ∈ head :: rest := by
    obtain ⟨rfl, -⟩ | ⟨hmem, -⟩ := hbest
    · exact List.mem_cons_self
    · exact hmem
  refine ⟨.best b (if b ∈ known then (reachCount h flags (head :: rest) b : Int) else -1), ?_, ?_⟩
  · rw [bestBisection, hb]
    dsimp only
    rw [hst.weight b hmem]
    rfl
  · constructor
    · rintro ⟨-, -, hsame, hweight, hhalves⟩
      refine ⟨b, hmem, hsame, ?_, hhalves⟩
      by_contra hunknown
      rw [if_neg hunknown] at hweight
      omega
    · rintro ⟨c, hc, hsame, hknown, hhalves⟩
      have hshown : shownDistance h flags (head :: rest) known c = trueDistance h flags (head :: rest) c := if_pos hknown
      have hnonneg := @trueDistance_nonneg _ _ h flags (head :: rest) hl c
      obtain ⟨-, hle⟩ | ⟨-, hsame', hlt, hle⟩ := hbest
      · have := hle c hc hsame
        omega
      · have hknown' : b ∈ known := by
          by_contra hunknown
          rw [shownDistance, if_neg hunknown] at hlt
          exact lt_irrefl _ hlt
        have hfar := hle c hc hsame
        rw [hshown, shownDistance, if_pos hknown'] at hfar
        exact ⟨hone, hmem, hsame', if_pos hknown', hhalves.of_le hsame' hfar⟩

lemma commitDists_eq (hst : FillInv h flags list known st) {l : List C} (hsub : l ⊆ list) :
    commitDists h st (treeChanging h list) l =
      some ((l.filter fun c => ¬h.treeSame c).map fun c => (c, shownDistance h flags list known c)) := by
  induction l with
  | nil => rfl
  | cons p l ih =>
    obtain ⟨hp, hsub⟩ := List.cons_subset.mp hsub
    rw [commitDists]
    cases hsame : h.treeSame p with
    | true => rw [if_pos rfl, ih hsub, List.filter_cons_of_neg (by simp [hsame])]
    | false =>
      rw [if_neg (by decide), hst.weight p hp, ih hsub, List.filter_cons_of_pos (by simp [hsame])]
      dsimp only [Option.map_some]
      rw [distance_slot]
      rfl

omit [DecidableEq C] in
lemma compareCommitDist_le (a b : C × Int) :
    compareCommitDist h a b ≤ 0 ↔ b.2 < a.2 ∨ a.2 = b.2 ∧ h.oid a.1 ≤ h.oid b.1 := by
  rw [compareCommitDist]
  split_ifs with hne hlt heq
  · omega
  · exact iff_of_true (by decide) (.inr ⟨not_not.mp hne, hlt.le⟩)
  · exact iff_of_true le_rfl (.inr ⟨not_not.mp hne, heq.le⟩)
  · refine iff_of_false (by decide) ?_
    rintro (hfar | ⟨-, hle⟩)
    · exact hne (by omega)
    · exact (lt_or_eq_of_le hle).elim hlt heq

lemma bestBisectionSorted_spec (hl : Listing h list) (hall : flags.all = true) (hst : FillInv h flags list known st) :
    ∃ r, bestBisectionSorted h st (treeChanging h list) list = some r ∧
      (RightChoice h flags list r ↔ ∀ c ∈ list, h.treeSame c = false → c ∈ known) := by
  have htotal : Std.Total fun a b => compareCommitDist h a b ≤ 0 := ⟨fun a b => by
    rw [compareCommitDist_le, compareCommitDist_le]
    obtain hle | hle := le_total (h.oid a.1) (h.oid b.1)
    · by_cases heq : a.2 = b.2
      · exact .inl (.inr ⟨heq, hle⟩)
      · omega
    · by_cases heq : b.2 = a.2
      · exact .inr (.inr ⟨heq, hle⟩)
      · omega⟩
  have htrans : IsTrans (C × Int) fun a b => compareCommitDist h a b ≤ 0 := ⟨fun a b c hab hbc => by
    rw [compareCommitDist_le] at hab hbc ⊢
    obtain hab | ⟨heq, hab⟩ := hab
    · exact .inl (by omega)
    · obtain hbc | ⟨heq', hbc⟩ := hbc
      · exact .inl (by omega)
      · exact .inr ⟨heq.trans heq', hab.trans hbc⟩⟩
  have hdists := commitDists_eq hst (List.Subset.refl list)
  refine ⟨_, by rw [bestBisectionSorted, hdists]; rfl, ?_⟩
  have hperm := List.perm_insertionSort (fun a b => compareCommitDist h a b ≤ 0)
    ((list.filter fun c => ¬h.treeSame c).map fun c => (c, shownDistance h flags list known c))
  constructor
  · rintro ⟨-, hsame, -⟩ c hc hchanges
    have hmem : (c, trueDistance h flags list c) ∈ decorated h flags list :=
      List.mem_map.mpr ⟨c, List.mem_filter.mpr ⟨hc, by simp [hchanges]⟩, rfl⟩
    obtain ⟨d, -, hd⟩ := List.mem_map.mp (hperm.subset (hsame.symm.subset hmem))
    obtain ⟨rfl, hshown⟩ := Prod.mk.inj hd
    by_contra hunknown
    have := @trueDistance_nonneg _ _ h flags list hl d
    rw [shownDistance, if_neg hunknown] at hshown
    omega
  · intro hknown
    have hshown : (list.filter fun c => ¬h.treeSame c).map (fun c => (c, shownDistance h flags list known c)) =
        decorated h flags list := by
      refine List.map_congr_left fun c hc => ?_
      obtain ⟨hc, hchanges⟩ := List.mem_filter.mp hc
      rw [shownDistance, if_pos (hknown c hc (by simpa using hchanges))]
    refine ⟨hall, hshown ▸ hperm, ?_⟩
    refine (List.pairwise_insertionSort (fun a b => compareCommitDist h a b ≤ 0) _).imp fun hle => ?_
    rw [compareCommitDist_le] at hle
    omega

lemma doFindBisection_spec (hl : Listing h list) (hchanges : ∃ c ∈ list, h.treeSame c = false) {fuel : Nat}
    (hfuel : list.length < fuel) :
    ∃ r, doFindBisection h flags fuel list (treeChanging h list) = some r ∧
      (RightChoice h flags list r ↔ EnoughKnown h flags list) := by
  have hright : ∀ {known : Finset C} {p : C} {w : Int}, Accepted h flags list known p w →
      known ⊆ knownCommits h flags list → (RightChoice h flags list (.best p w) ↔ EnoughKnown h flags list) := by
    intro known p w ha hsubset
    have hhalves : Halves h flags list p := .inl (by rw [← ha.weight_eq]; exact ha.halfway)
    refine iff_of_true ⟨ha.one, ha.mem, ha.changes, ha.weight_eq, hhalves⟩ ?_
    rw [EnoughKnown, if_neg (by rw [ha.one]; decide)]
    exact ⟨p, ha.mem, ha.changes, hsubset ha.isKnown, hhalves⟩
  have hsubset : initiallyKnown h flags list ⊆ knownCommits h flags list := subset_knownWhenCounted _ _
  have hmerges := visit_countMerge hl (List.Subset.refl list) hl.nodup (@mergeInv_init _ _ h flags list hl)
  rw [doFindBisection]
  generalize visit (countMerge h flags (treeChanging h list) list) list
    (list.foldl (initOne h flags) ⟨fun _ => none, 0, ∅⟩) = r at hmerges ⊢
  cases hmerges with
  | found ha => exact ⟨_, rfl, hright ha hsubset⟩
  | ended hst =>
    have hloop := fillLoop_spec hl list.length hfuel (card_unknown_le _) hst.fillInv
    dsimp only
    generalize fillLoop h flags (treeChanging h list) list fuel _ = r at hloop ⊢
    cases hloop with
    | found ha => exact ⟨_, rfl, hright ha (Finset.Subset.refl _)⟩
    | ended hst =>
      dsimp only
      rw [EnoughKnown]
      cases hall : flags.all with
      | true =>
        rw [if_pos rfl, if_pos rfl]
        exact bestBisectionSorted_spec hl hall hst
      | false =>
        rw [if_neg (by decide), if_neg (by decide)]
        exact bestBisection_spec hl hchanges hall hst

lemma exists_farthest (hchanges : ∃ c ∈ list, h.treeSame c = false) :
    ∃ c ∈ list, h.treeSame c = false ∧ Halves h flags list c := by
  obtain ⟨c, hc, hsame⟩ := hchanges
  obtain ⟨d, hd, hmax⟩ := Finset.exists_max_image (list.toFinset.filter fun c => h.treeSame c = false)
    (trueDistance h flags list) ⟨c, Finset.mem_filter.mpr ⟨List.mem_toFinset.mpr hc, hsame⟩⟩
  obtain ⟨hd, hd'⟩ := Finset.mem_filter.mp hd
  refine ⟨d, List.mem_toFinset.mp hd, hd', .inr fun e he he' => ?_⟩
  exact hmax e (Finset.mem_filter.mpr ⟨List.mem_toFinset.mpr he, he'⟩)

lemma enoughKnown_of_merges (hl : Listing h list) (hchanges : ∃ c ∈ list, h.treeSame c = false)
    (hmerges : ∀ c ∈ list, 2 ≤ countInterestingParents h flags c → h.treeSame c = false) : EnoughKnown h flags list := by
  rw [EnoughKnown]
  split_ifs
  · exact fun c hc hsame => known_of_merges hl hmerges hc hsame
  · obtain ⟨c, hc, hsame, hhalves⟩ := exists_farthest hchanges
    exact ⟨c, hc, hsame, known_of_merges hl hmerges hc hsame, hhalves⟩

/-- The search ends, and its choice is right just when the commits that are known in the end are enough for it, as they
are when all merges change the tree. -/
theorem doFindBisection_rightChoice (hl : Listing h list) (hchanges : ∃ c ∈ list, h.treeSame c = false) {fuel : Nat}
    (hfuel : list.length < fuel) :
    (∃ r, doFindBisection h flags fuel list (treeChanging h list) = some r ∧
      (RightChoice h flags list r ↔ EnoughKnown h flags list)) ∧
    ((∀ c ∈ list, 2 ≤ countInterestingParents h flags c → h.treeSame c = false) → EnoughKnown h flags list) :=
  ⟨doFindBisection_spec hl hchanges hfuel, enoughKnown_of_merges hl hchanges⟩

/-- Three commits without interesting parents, a commit on the first one, and a merge of this one and the second one
that does not change the tree. -/
def sideBranches : History Nat where
  parents := fun c => if c = 3 then [0] else if c = 4 then [3, 1] else []
  oid := fun c => [UInt8.ofNat c]
  uninteresting := fun _ => false
  treeSame := fun c => c = 4
  acyclic := Subrelation.wf (r := (· < ·)) (fun {p c} hp => by
    split_ifs at hp <;> simp at hp <;> omega) Nat.lt_wfRel.wf

lemma listing_sideBranches (list : List Nat) (hnodup : list.Nodup) (hall : ∀ c < 4, c ∈ list) :
    Listing sideBranches list where
  nodup := hnodup
  interesting := fun _ _ => rfl
  closed := fun c _ p hp _ => by
    refine hall p ?_
    have hparents : sideBranches.parents c = if c = 3 then [0] else if c = 4 then [3, 1] else [] := rfl
    rw [hparents] at hp
    split_ifs at hp <;> simp at hp <;> omega

theorem doFindBisection_rightChoice_strands :
    (∃ r, doFindBisection sideBranches ⟨false, false⟩ 5 [0, 1, 2, 3] 4 = some r ∧
      (RightChoice sideBranches ⟨false, false⟩ [0, 1, 2, 3] r ↔ EnoughKnown sideBranches ⟨false, false⟩ [0, 1, 2, 3])) ∧
    EnoughKnown sideBranches ⟨false, false⟩ [0, 1, 2, 3] := by
  have hlisting := listing_sideBranches [0, 1, 2, 3] (by decide) (by decide)
  have hfuel : [0, 1, 2, 3].length < 5 := by decide
  obtain ⟨hright, henough⟩ := @doFindBisection_rightChoice _ _ _ ⟨false, false⟩ _ hlisting ⟨0, by decide, rfl⟩ 5 hfuel
  exact ⟨hright, henough (by decide)⟩

/-- The merge is counted, and the commit that reaches two of the four is passed over. -/
theorem doFindBisection_passesOver :
    Listing sideBranches [0, 1, 2, 3, 4] ∧
      ¬∃ r, doFindBisection sideBranches ⟨false, false⟩ 6 [0, 1, 2, 3, 4] (treeChanging sideBranches [0, 1, 2, 3, 4]) =
        some r ∧ RightChoice sideBranches ⟨false, false⟩ [0, 1, 2, 3, 4] r := by
  have hlisting := listing_sideBranches [0, 1, 2, 3, 4] (by decide) (by decide)
  refine ⟨hlisting, ?_⟩
  rintro ⟨r, hrun, hright⟩
  have hfuel : [0, 1, 2, 3, 4].length < 6 := by decide
  obtain ⟨r', hrun', hiff⟩ := @doFindBisection_spec _ _ _ ⟨false, false⟩ _ hlisting ⟨0, by decide, rfl⟩ 6 hfuel
  rw [hrun] at hrun'
  rw [← Option.some.inj hrun', EnoughKnown, if_neg (by decide)] at hiff
  obtain ⟨c, hc, hsame, hknown, hhalves⟩ := hiff.mp hright
  have hroot : ∀ c ∈ [0, 1, 2], reachCount sideBranches ⟨false, false⟩ [0, 1, 2, 3, 4] c = 1 := by
    intro c hc
    have hmem : c ∈ [0, 1, 2, 3, 4] := by
      revert c
      decide
    have hnil : interestingParents sideBranches ⟨false, false⟩ c = [] := by
      revert c
      decide
    have hchanges : sideBranches.treeSame c = false := by
      revert c
      decide
    rw [reachCount_of_nil hmem hnil, hchanges, if_neg (by decide)]
  have htwo : reachCount sideBranches ⟨false, false⟩ [0, 1, 2, 3, 4] 3 = 2 := by
    have hsingle : interestingParents sideBranches ⟨false, false⟩ 3 = [0] := by decide
    rw [reachCount_of_single (by decide) hsingle, hroot 0 (by decide)]
    rfl
  have hfirst : c ∈ [0, 1, 2] := by
    have hall : ∀ c ∈ [0, 1, 2, 3, 4], sideBranches.treeSame c = false →
        c ∈ knownCommits sideBranches ⟨false, false⟩ [0, 1, 2, 3, 4] → c ∈ [0, 1, 2] := by decide
    exact hall c hc hsame hknown
  obtain haccepted | hmax := hhalves
  · rw [hroot c hfirst] at haccepted
    revert c
    decide
  · have hle := hmax 3 (by decide) rfl
    rw [trueDistance, trueDistance, htwo, hroot c hfirst] at hle
    revert hle
    decide

end GitCore.Bisect
