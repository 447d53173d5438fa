import GitCore.Bisect.Known

/-!
# Which commit is chosen

The weights that are known are the numbers of reachable commits. The choice is right if the commits that are known
when enough are counted are enough for it.
-/

namespace GitCore.Bisect

variable {C : Type} [DecidableEq C] {h : History C} {flags : BisectFlags} {list : List C} {known : Finset C}
  {st : Weights C} {c p : C} {w : Int}

def initialWeight (h : History C) (flags : BisectFlags) (c : C) : Int :=
  if countInterestingParents h flags c = 0 then if h.treeSame c then 0 else 1
  else if countInterestingParents h flags c = 1 then -1
  else -2

lemma initOne_eq (st : Weights C) (c : C) :
    initOne h flags st c =
      ⟨Function.update st.weight c (some (initialWeight h flags c)),
        st.counted + if countInterestingParents h flags c = 0 ∧ h.treeSame c = false then 1 else 0, st.marks⟩ := by
  rw [initOne, initialWeight]
  split
  · rename_i hzero
    rw [hzero]
    cases h.treeSame c <;> rfl
  · rename_i hone
    rw [hone]
    rfl
  · rename_i hzero hone
    rw [if_neg hzero, if_neg hone, if_neg fun h => hzero h.1]
    rfl

lemma foldl_initOne (l : List C) (hnodup : l.Nodup) (st : Weights C) :
    (∀ c, (l.foldl (initOne h flags) st).weight c =
      if c ∈ l then some (initialWeight h flags c) else st.weight c) ∧
    (l.foldl (initOne h flags) st).counted =
      st.counted + (l.toFinset.filter fun c => countInterestingParents h flags c = 0 ∧ h.treeSame c = false).card ∧
    (l.foldl (initOne h flags) st).marks = st.marks := by
  induction l generalizing st with
  | nil => exact ⟨fun c => by simp, by simp, rfl⟩
  | cons d l ih =>
    obtain ⟨hd, hnodup⟩ := List.nodup_cons.mp hnodup
    obtain ⟨hweight, hcounted, hmarks⟩ := ih hnodup (initOne h flags st d)
    rw [List.foldl_cons]
    rw [initOne_eq] at hweight hcounted hmarks
    rw [initOne_eq]
    refine ⟨fun c => ?_, ?_, hmarks⟩
    · rw [hweight c]
      by_cases hcl : c ∈ l
      · rw [if_pos hcl, if_pos (List.mem_cons_of_mem d hcl)]
      · rw [if_neg hcl]
        by_cases hcd : c = d
        · rw [hcd, if_pos List.mem_cons_self]
          exact Function.update_self d _ st.weight
        · rw [if_neg (show c ∉ d :: l by simp [hcl, hcd])]
          exact Function.update_of_ne hcd _ st.weight
    · rw [hcounted, List.toFinset_cons, Finset.filter_insert]
      split_ifs with hzero
      · rw [Finset.card_insert_of_notMem (by simp [hd])]
        dsimp only
        omega
      · rfl

structure Accepted (h : History C) (flags : BisectFlags) (list : List C) (known : Finset C) (p : C) (w : Int) :
    Prop where
  one : flags.all = false
  mem : p ∈ list
  changes : h.treeSame p = false
  isKnown : p ∈ known
  weight_eq : w = reachCount h flags list p
  halfway : approxHalfway h p w (treeChanging h list) = true

lemma Accepted.mono {known' : Finset C} (ha : Accepted h flags list known p w) (hsubset : known ⊆ known') :
    Accepted h flags list known' p w :=
  { ha with isKnown := hsubset ha.isKnown }

lemma checkHalfway_spec (st : Weights C) (hp : p ∈ list) (hknown : p ∈ known) :
    (Accepted h flags list known p (reachCount h flags list p) ∧
      checkHalfway h flags (treeChanging h list) st p (reachCount h flags list p) =
        .inr (p, (reachCount h flags list p : Int))) ∨
      checkHalfway h flags (treeChanging h list) st p (reachCount h flags list p) = .inl st := by
  rw [checkHalfway]
  split_ifs with hfound
  · refine .inl ⟨⟨by simpa using hfound.1, hp, ?_, hknown, rfl, hfound.2⟩, rfl⟩
    by_contra hsame
    have hhalf := hfound.2
    rw [approxHalfway, if_pos (by simpa using hsame)] at hhalf
    cases hhalf
  · exact .inr rfl

noncomputable def weightBefore (h : History C) (flags : BisectFlags) (list todo : List C) (c : C) : Int :=
  if countInterestingParents h flags c = 1 then -1
  else if c ∈ todo ∧ 2 ≤ countInterestingParents h flags c then -2
  else reachCount h flags list c

structure MergeInv (h : History C) (flags : BisectFlags) (list todo : List C) (st : Weights C) : Prop where
  weight : ∀ c ∈ list, st.weight c = some (weightBefore h flags list todo c)
  counted : st.counted = (list.toFinset.filter fun c => c ∉ todo ∧ 2 ≤ countInterestingParents h flags c ∨
    countInterestingParents h flags c = 0 ∧ h.treeSame c = false).card
  marks : st.marks = ∅

lemma mergeInv_init (hl : Listing h list) : MergeInv h flags list list (list.foldl (initOne h flags) ⟨fun _ => none, 0, ∅⟩) := by
  obtain ⟨hweight, hcounted, hmarks⟩ := @foldl_initOne _ _ h flags list hl.nodup ⟨fun _ => none, 0, ∅⟩
  refine ⟨fun c hc => ?_, ?_, hmarks⟩
  · rw [hweight, if_pos hc, initialWeight, weightBefore]
    by_cases hzero : countInterestingParents h flags c = 0
    · have hnil : interestingParents h flags c = [] := List.length_eq_zero_iff.mp hzero
      have htwo : ¬(c ∈ list ∧ 2 ≤ countInterestingParents h flags c) := fun htwo => by omega
      have hone : ¬countInterestingParents h flags c = 1 := by omega
      rw [if_pos hzero, if_neg hone, if_neg htwo, reachCount_of_nil hc hnil]
      cases h.treeSame c <;> rfl
    · by_cases hone : countInterestingParents h flags c = 1
      · rw [if_neg hzero, if_pos hone, if_pos hone]
      · rw [if_neg hzero, if_neg hone, if_neg hone, if_pos ⟨hc, by omega⟩]
  · rw [hcounted, Nat.zero_add]
    congr 1
    refine Finset.filter_congr fun c hc => ?_
    have := List.mem_toFinset.mp hc
    tauto

omit [DecidableEq C] in
lemma countInterestingParents_le (hfirst : flags.firstParentOnly = true) (c : C) :
    countInterestingParents h flags c ≤ 1 := by
  rw [countInterestingParents, visitedParents, if_pos hfirst]
  refine (List.length_filter_le _ _).trans ?_
  rw [List.length_take]
  exact Nat.min_le_left _ _

lemma countMerge_spec (hl : Listing h list) (hp : p ∈ list) {todo : List C} (hnot : p ∉ todo)
    (hst : MergeInv h flags list (p :: todo) st) :
    (∃ st', countMerge h flags (treeChanging h list) list st p = some (.inl st') ∧ MergeInv h flags list todo st') ∨
      ∃ w, Accepted h flags list (initiallyKnown h flags list) p w ∧
        countMerge h flags (treeChanging h list) list st p = some (.inr (p, w)) := by
  have hweight := hst.weight p hp
  rw [countMerge, if_neg (by rw [hl.interesting p hp]; decide), hweight]
  dsimp only
  by_cases htwo : 2 ≤ countInterestingParents h flags p
  · have hall : flags.firstParentOnly = false := by
      by_contra hfirst
      have := countInterestingParents_le (h := h) (by simpa using hfirst) p
      omega
    obtain ⟨hcount, hmarked⟩ := countDistance_eq hl hall hp
    have hknown : p ∈ initiallyKnown h flags list := mem_initiallyKnown.mpr ⟨hp, by omega⟩
    have hclear : clearDistance list (countDistance h p ∅).2 = ∅ := by
      rw [clearDistance, Finset.filter_eq_empty_iff]
      exact fun d hd => not_not.mpr (hmarked d hd)
    have hminus : weightBefore h flags list (p :: todo) p = -2 := by
      have hone : ¬countInterestingParents h flags p = 1 := by omega
      rw [weightBefore, if_neg hone, if_pos ⟨List.mem_cons_self, htwo⟩]
    rw [hminus, if_neg (by decide), if_neg (by rw [hall]; decide), hst.marks, hclear, hcount]
    obtain ⟨haccepted, hfound⟩ | hgo := checkHalfway_spec
      { st.set p (reachCount h flags list p) with counted := st.counted + 1, marks := ∅ } hp hknown
    · exact .inr ⟨_, haccepted, by rw [hfound]⟩
    · refine .inl ⟨_, by rw [hgo], ⟨fun c hc => ?_, ?_, rfl⟩⟩
      · by_cases hcp : c = p
        · have hone : ¬countInterestingParents h flags p = 1 := by omega
          rw [hcp, weightBefore, if_neg hone, if_neg fun h => hnot h.1]
          exact Function.update_self p _ st.weight
        · refine (Function.update_of_ne hcp _ st.weight).trans ?_
          rw [hst.weight c hc, weightBefore, weightBefore]
          simp [hcp]
      · have hcounted := hst.counted
        dsimp only
        rw [hcounted, ← Finset.card_insert_of_notMem (a := p)]
        · congr 1
          ext c
          simp only [Finset.mem_insert, Finset.mem_filter, List.mem_toFinset, List.mem_cons]
          by_cases hcp : c = p
          · simp [hcp, hp, hnot, htwo]
          · simp [hcp]
        · simp only [Finset.mem_filter, List.mem_cons_self, not_true_eq_false, false_and, false_or, not_and]
          intro _ hzero
          omega
  · have hgo : weightBefore h flags list (p :: todo) p ≠ -2 := by
      rw [weightBefore]
      split_ifs with hone hboth
      · decide
      · exact absurd hboth.2 htwo
      · omega
    rw [if_pos hgo]
    refine .inl ⟨st, rfl, ⟨fun c hc => ?_, ?_, hst.marks⟩⟩
    · rw [hst.weight c hc, weightBefore, weightBefore]
      by_cases hcp : c = p
      · simp [hcp, htwo]
      · simp [hcp]
    · rw [hst.counted]
      congr 1
      refine Finset.filter_congr fun c _ => ?_
      by_cases hcp : c = p
      · simp [hcp, htwo]
      · simp [hcp]

inductive VisitPost (h : History C) (flags : BisectFlags) (list : List C) (known : Finset C)
    (done : Weights C → Prop) : Option (Weights C ⊕ C × Int) → Prop
  | ended {st : Weights C} (hst : done st) : VisitPost h flags list known done (some (.inl st))
  | found {p : C} {w : Int} (ha : Accepted h flags list known p w) :
    VisitPost h flags list known done (some (.inr (p, w)))

lemma visit_countMerge (hl : Listing h list) {todo : List C} (htodo : todo ⊆ list) (hnodup : todo.Nodup)
    (hst : MergeInv h flags list todo st) :
    VisitPost h flags list (initiallyKnown h flags list) (MergeInv h flags list [])
      (visit (countMerge h flags (treeChanging h list) list) todo st) := by
  induction todo generalizing st with
  | nil => exact .ended hst
  | cons p todo ih =>
    obtain ⟨hp, htodo⟩ := List.cons_subset.mp htodo
    obtain ⟨hnot, hnodup⟩ := List.nodup_cons.mp hnodup
    rw [visit]
    obtain ⟨st', hgo, hst'⟩ | ⟨w, haccepted, hfound⟩ := countMerge_spec hl hp hnot hst
    · rw [hgo]
      exact ih htodo hnodup hst'
    · rw [hfound]
      exact .found haccepted

structure FillInv (h : History C) (flags : BisectFlags) (list : List C) (known : Finset C) (st : Weights C) : Prop where
  initial : initiallyKnown h flags list ⊆ known
  weight : ∀ c ∈ list, st.weight c = some (if c ∈ known then (reachCount h flags list c : Int) else -1)
  counted : st.counted = countedCommits h flags list known

lemma MergeInv.fillInv (hst : MergeInv h flags list [] st) :
    FillInv h flags list (initiallyKnown h flags list) st where
  initial := Finset.Subset.refl _
  weight := fun c hc => by
    rw [hst.weight c hc, weightBefore]
    by_cases hone : countInterestingParents h flags c = 1
    · rw [if_pos hone, if_neg fun hmem => (mem_initiallyKnown.mp hmem).2 hone]
    · rw [if_neg hone, if_neg fun hnil => absurd hnil.1 List.not_mem_nil, if_pos (mem_initiallyKnown.mpr ⟨hc, hone⟩)]
  counted := by
    rw [hst.counted, countedCommits]
    congr 1
    refine Finset.filter_congr fun c hc => ?_
    rw [List.mem_toFinset] at hc
    rw [IsCounted, mem_initiallyKnown]
    constructor
    · rintro (⟨-, htwo⟩ | ⟨hzero, hsame⟩)
      · exact .inl htwo
      · exact .inr ⟨⟨hc, by omega⟩, hsame⟩
    · rintro (htwo | ⟨⟨-, hne⟩, hsame⟩)
      · exact .inl ⟨List.not_mem_nil, htwo⟩
      · by_cases hzero : countInterestingParents h flags c = 0
        · exact .inr ⟨hzero, hsame⟩
        · exact .inl ⟨List.not_mem_nil, by omega⟩

lemma findKnown_eq (hst : FillInv h flags list known st) {l : List C}
    (hl : ∀ q ∈ l, h.uninteresting q = false → q ∈ list) :
    findKnown h st l =
      some (((l.filter fun q => ¬h.uninteresting q).find? (· ∈ known)).map fun q => (reachCount h flags list q : Int)) := by
  induction l with
  | nil => rfl
  | cons q l ih =>
    obtain ⟨hq, hl⟩ := List.forall_mem_cons.mp hl
    rw [findKnown]
    cases hun : h.uninteresting q with
    | true =>
      rw [if_pos rfl, ih hl, List.filter_cons_of_neg (by simp [hun])]
    | false =>
      rw [if_neg (by decide), hst.weight q (hq hun), List.filter_cons_of_pos (by simp [hun])]
      by_cases hknown : q ∈ known
      · rw [if_pos hknown, List.find?_cons_of_pos (by simpa using hknown)]
        dsimp only
        rw [if_pos (Int.natCast_nonneg _)]
        rfl
      · rw [if_neg hknown, List.find?_cons_of_neg (by simpa using hknown)]
        exact ih hl

lemma fillBlank_spec (hl : Listing h list) (hp : p ∈ list) (hst : FillInv h flags list known st) :
    VisitPost h flags list (learn h flags known p) (FillInv h flags list (learn h flags known p))
      (fillBlank h flags (treeChanging h list) st p) := by
  rw [fillBlank, hst.weight p hp]
  dsimp only
  by_cases hknown : p ∈ known
  · have hsame : learn h flags known p = known := if_neg fun hlearn => hlearn.1 hknown
    rw [if_pos hknown, if_pos (Int.natCast_nonneg _), hsame]
    exact .ended hst
  · obtain ⟨q, hq, hsingle⟩ := exists_single hl hp hst.initial hknown
    have hfind := @findKnown_eq _ _ h flags list known st hst (visitedParents h flags p) fun r hr hinteresting =>
      hl.mem_of_parent hp (mem_interestingParents.mpr ⟨hr, hinteresting⟩)
    have hfilter : (visitedParents h flags p).filter (fun q => ¬h.uninteresting q) = [q] := hsingle
    rw [if_neg hknown, if_neg (by decide), hfind, hfilter]
    by_cases hparent : q ∈ known
    · have hlearn : learn h flags known p = insert p known :=
        if_pos ⟨hknown, q, by rw [hsingle]; exact List.mem_singleton_self q, hparent⟩
      have hone : countInterestingParents h flags p = 1 := congrArg List.length hsingle
      have hcounted := countedCommits_insert hp hknown hone
      have hcount := reachCount_of_single hp hsingle
      have hfill : ∀ counted, counted = countedCommits h flags list (insert p known) →
          FillInv h flags list (insert p known)
            { st.set p (reachCount h flags list p) with counted := counted } := fun counted hcounted' => by
        refine ⟨hst.initial.trans (Finset.subset_insert p known), fun c hc => ?_, hcounted'⟩
        by_cases hcp : c = p
        · rw [hcp, if_pos (Finset.mem_insert_self p known)]
          exact Function.update_self p _ st.weight
        · refine (Function.update_of_ne hcp _ st.weight).trans ?_
          rw [hst.weight c hc, if_congr (Finset.mem_insert.trans (or_iff_right hcp)).symm rfl rfl]
      have hpost : ∀ st', FillInv h flags list (insert p known) st' →
          VisitPost h flags list (insert p known) (FillInv h flags list (insert p known))
            (some (checkHalfway h flags (treeChanging h list) st' p (reachCount h flags list p))) := fun st' hst' => by
        obtain ⟨haccepted, hfound⟩ | hgo := checkHalfway_spec st' hp (Finset.mem_insert_self p known)
        · rw [hfound]
          exact .found haccepted
        · rw [hgo]
          exact .ended hst'
      rw [List.find?_cons_of_pos (by simpa using hparent), hlearn]
      dsimp only [Option.map_some]
      cases hsame : h.treeSame p with
      | true =>
        rw [hsame, if_pos rfl, Nat.add_zero] at hcount hcounted
        rw [if_pos rfl, ← hcount]
        exact hpost _ (hfill st.counted (hst.counted.trans hcounted.symm))
      | false =>
        rw [hsame, if_neg (by decide)] at hcount hcounted
        have hcast : (reachCount h flags list q : Int) + 1 = reachCount h flags list p := by
          rw [hcount]
          exact (Int.natCast_succ _).symm
        rw [if_neg (by decide), hcast]
        exact hpost _ (hfill (st.counted + 1) (by rw [hst.counted, hcounted]))
    · have hsame : learn h flags known p = known := by
        refine if_neg ?_
        rintro ⟨-, r, hr, hr'⟩
        rw [hsingle, List.mem_singleton] at hr
        exact hparent (hr ▸ hr')
      rw [List.find?_cons_of_neg (by simpa using hparent), hsame]
      exact .ended hst

lemma visit_fillBlank (hl : Listing h list) {l : List C} (hsub : l ⊆ list) (hst : FillInv h flags list known st) :
    VisitPost h flags list (l.foldl (learn h flags) known) (FillInv h flags list (l.foldl (learn h flags) known))
      (visit (fillBlank h flags (treeChanging h list)) l st) := by
  induction l generalizing known st with
  | nil => exact .ended hst
  | cons p l ih =>
    obtain ⟨hp, hsub⟩ := List.cons_subset.mp hsub
    rw [visit, List.foldl_cons]
    have hone := fillBlank_spec hl hp hst
    cases hr : fillBlank h flags (treeChanging h list) st p with
    | none =>
      rw [hr] at hone
      cases hone
    | some r =>
      rw [hr] at hone
      cases hone with
      | ended hst' => exact ih hsub hst'
      | found ha => exact .found (ha.mono (subset_foldl_learn l _))

lemma fillLoop_spec (hl : Listing h list) (n : Nat) {fuel : Nat} (hfuel : n < fuel)
    (hunknown : (list.toFinset \ known).card ≤ n) (hst : FillInv h flags list known st) :
    VisitPost h flags list (knownWhenCounted h flags list n known)
      (FillInv h flags list (knownWhenCounted h flags list n known))
      (fillLoop h flags (treeChanging h list) list fuel st) := by
  induction n generalizing known st fuel with
  | zero =>
    obtain ⟨fuel, rfl⟩ := Nat.exists_eq_succ_of_ne_zero (Nat.ne_of_gt hfuel)
    have hnone : ¬st.counted < treeChanging h list := fun hlt => by
      rw [hst.counted] at hlt
      have := unknown_lt hl hst.initial hlt
      omega
    rw [fillLoop, if_neg hnone]
    exact .ended hst
  | succ n ih =>
    obtain ⟨fuel, rfl⟩ := Nat.exists_eq_succ_of_ne_zero (Nat.ne_of_gt (Nat.zero_lt_of_lt hfuel))
    rw [fillLoop, knownWhenCounted]
    by_cases hlt : st.counted < treeChanging h list
    · have hlt' := hlt
      rw [hst.counted] at hlt'
      rw [if_pos hlt, if_pos hlt']
      have hpass := visit_fillBlank hl (List.Subset.refl list) hst
      have hless := unknown_lt hl hst.initial hlt'
      cases hr : visit (fillBlank h flags (treeChanging h list)) list st with
      | none =>
        rw [hr] at hpass
        cases hpass
      | some r =>
        rw [hr] at hpass
        cases hpass with
        | ended hst' => exact ih (Nat.lt_of_succ_lt_succ hfuel) (by omega) hst'
        | found ha => exact .found (ha.mono (subset_knownWhenCounted n _))
    · have hlt' := hlt
      rw [hst.counted] at hlt'
      rw [if_neg hlt, if_neg hlt']
      exact .ended hst

end GitCore.Bisect
