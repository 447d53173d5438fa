import GitCore.Bisect.Distance

/-!
# The commits whose weights get known

The loops of `do_find_bisection` keep the weights of the commits that are known so far. Which commits get known before
enough of them are counted depends on the parents and the order of the list only.
-/

namespace GitCore.Bisect

variable {C : Type} [DecidableEq C] (h : History C) (flags : BisectFlags) (list : List C)

def initiallyKnown : Finset C := list.toFinset.filter fun c => countInterestingParents h flags c ≠ 1

def learn (known : Finset C) (c : C) : Finset C :=
  if c ∉ known ∧ ∃ q ∈ interestingParents h flags c, q ∈ known then insert c known else known

/-- A commit that is counted: any merge, and any other commit that is known and changes the tree. -/
def IsCounted (known : Finset C) (c : C) : Prop :=
  2 ≤ countInterestingParents h flags c ∨ c ∈ known ∧ h.treeSame c = false

instance decidableIsCounted (known : Finset C) (c : C) : Decidable (IsCounted h flags known c) :=
  inferInstanceAs (Decidable (_ ∨ _))

def countedCommits (known : Finset C) : Nat := (list.toFinset.filter (IsCounted h flags known)).card

/-- The known commits when enough are counted, or after `n` passes over the list. -/
def knownWhenCounted : Nat → Finset C → Finset C
  | 0, known => known
  | n + 1, known =>
    if countedCommits h flags list known < treeChanging h list then
      knownWhenCounted n (list.foldl (learn h flags) known)
    else known

def knownCommits : Finset C := knownWhenCounted h flags list list.length (initiallyKnown h flags list)

variable {h flags list} {known : Finset C} {c p : C}

lemma mem_initiallyKnown : c ∈ initiallyKnown h flags list ↔ c ∈ list ∧ countInterestingParents h flags c ≠ 1 := by
  rw [initiallyKnown, Finset.mem_filter, List.mem_toFinset]

lemma subset_learn : known ⊆ learn h flags known c := by
  rw [learn]
  split_ifs
  · exact Finset.subset_insert c known
  · exact Finset.Subset.refl known

lemma subset_foldl_learn (l : List C) (known : Finset C) : known ⊆ l.foldl (learn h flags) known := by
  induction l generalizing known with
  | nil => exact Finset.Subset.refl known
  | cons c l ih => exact subset_learn.trans (ih _)

lemma mem_foldl_learn {l : List C} (hc : c ∈ l) (hp : p ∈ interestingParents h flags c) (hknown : p ∈ known) :
    c ∈ l.foldl (learn h flags) known := by
  induction l generalizing known with
  | nil => cases hc
  | cons d l ih =>
    obtain rfl | hc := List.mem_cons.mp hc
    · refine subset_foldl_learn l _ ?_
      rw [learn]
      split_ifs with hlearn
      · exact Finset.mem_insert_self c known
      · by_contra hnot
        exact hlearn ⟨hnot, p, hp, hknown⟩
    · exact ih hc (subset_learn hknown)

lemma subset_knownWhenCounted (n : Nat) (known : Finset C) : known ⊆ knownWhenCounted h flags list n known := by
  induction n generalizing known with
  | zero => exact Finset.Subset.refl known
  | succ n ih =>
    rw [knownWhenCounted]
    split_ifs
    · exact (subset_foldl_learn list known).trans (ih _)
    · exact Finset.Subset.refl known

lemma exists_single (hl : Listing h list) (hc : c ∈ list) (hinitial : initiallyKnown h flags list ⊆ known)
    (hunknown : c ∉ known) : ∃ p ∈ list, interestingParents h flags c = [p] := by
  have hone : countInterestingParents h flags c = 1 := by
    by_contra hne
    exact hunknown (hinitial (mem_initiallyKnown.mpr ⟨hc, hne⟩))
  obtain ⟨p, hp⟩ := List.length_eq_one_iff.mp hone
  exact ⟨p, hl.mem_of_parent hc (by rw [interestingParents, hp]; exact List.mem_singleton_self p), hp⟩

lemma exists_learned (hl : Listing h list) (hinitial : initiallyKnown h flags list ⊆ known)
    (hunknown : ∃ c ∈ list, c ∉ known) : ∃ c ∈ list, c ∉ known ∧ c ∈ list.foldl (learn h flags) known := by
  obtain ⟨c, ⟨hc, hnot⟩, hmin⟩ := h.acyclic.has_min {c | c ∈ list ∧ c ∉ known} hunknown
  obtain ⟨p, hp, hsingle⟩ := exists_single hl hc hinitial hnot
  have hparent : p ∈ interestingParents h flags c := by
    rw [hsingle]
    exact List.mem_singleton_self p
  have hknown : p ∈ known := by
    by_contra hp'
    exact hmin p ⟨hp, hp'⟩ (parents_of_interestingParents hparent)
  exact ⟨c, hc, hnot, mem_foldl_learn hc hparent hknown⟩

lemma exists_unknown (hl : Listing h list) (hcounted : countedCommits h flags list known < treeChanging h list) :
    ∃ c ∈ list, c ∉ known := by
  by_contra hall
  push Not at hall
  rw [treeChanging_eq hl.nodup, countedCommits] at hcounted
  refine absurd (Finset.card_le_card fun c hc => ?_) (Nat.not_le.mpr hcounted)
  rw [Finset.mem_filter] at hc ⊢
  exact ⟨hc.1, .inr ⟨hall c (List.mem_toFinset.mp hc.1), hc.2⟩⟩

lemma unknown_lt (hl : Listing h list) (hinitial : initiallyKnown h flags list ⊆ known)
    (hcounted : countedCommits h flags list known < treeChanging h list) :
    (list.toFinset \ list.foldl (learn h flags) known).card < (list.toFinset \ known).card := by
  obtain ⟨c, hc, hnot, hlearned⟩ := exists_learned hl hinitial (exists_unknown hl hcounted)
  refine Finset.card_lt_card (Finset.ssubset_iff_of_subset ?_ |>.mpr ⟨c, ?_, ?_⟩)
  · exact Finset.sdiff_subset_sdiff (Finset.Subset.refl _) (subset_foldl_learn list known)
  · exact Finset.mem_sdiff.mpr ⟨List.mem_toFinset.mpr hc, hnot⟩
  · exact fun hmem => (Finset.mem_sdiff.mp hmem).2 hlearned

lemma countedCommits_insert (hc : c ∈ list) (hnot : c ∉ known) (hone : countInterestingParents h flags c = 1) :
    countedCommits h flags list (insert c known) =
      countedCommits h flags list known + if h.treeSame c then 0 else 1 := by
  rw [countedCommits, countedCommits]
  have hnew : c ∉ list.toFinset.filter (IsCounted h flags known) := fun hmem => by
    obtain htwo | hknown := (Finset.mem_filter.mp hmem).2
    · omega
    · exact hnot hknown.1
  cases hsame : h.treeSame c with
  | true =>
    rw [if_pos rfl, Nat.add_zero]
    congr 1
    refine Finset.filter_congr fun d _ => or_congr_right ⟨fun hd => ?_, fun hd => ⟨Finset.mem_insert_of_mem hd.1, hd.2⟩⟩
    obtain rfl | hknown := Finset.mem_insert.mp hd.1
    · rw [hsame] at hd
      cases hd.2
    · exact ⟨hknown, hd.2⟩
  | false =>
    rw [if_neg (by decide), ← Finset.card_insert_of_notMem hnew]
    congr 1
    ext d
    simp only [Finset.mem_filter, Finset.mem_insert, List.mem_toFinset, IsCounted]
    constructor
    · rintro ⟨hd, htwo | ⟨rfl | hknown, hsame'⟩⟩
      · exact .inr ⟨hd, .inl htwo⟩
      · exact .inl rfl
      · exact .inr ⟨hd, .inr ⟨hknown, hsame'⟩⟩
    · rintro (rfl | ⟨hd, htwo | ⟨hknown, hsame'⟩⟩)
      · exact ⟨hc, .inr ⟨.inl rfl, hsame⟩⟩
      · exact ⟨hd, .inl htwo⟩
      · exact ⟨hd, .inr ⟨.inr hknown, hsame'⟩⟩

lemma enough_knownWhenCounted (hl : Listing h list) (n : Nat) (hinitial : initiallyKnown h flags list ⊆ known)
    (hunknown : (list.toFinset \ known).card ≤ n) :
    treeChanging h list ≤ countedCommits h flags list (knownWhenCounted h flags list n known) := by
  induction n generalizing known with
  | zero =>
    rw [knownWhenCounted]
    by_contra hlt
    have := unknown_lt hl hinitial (Nat.not_le.mp hlt)
    omega
  | succ n ih =>
    rw [knownWhenCounted]
    split_ifs with hlt
    · have hless := unknown_lt hl hinitial hlt
      exact ih (hinitial.trans (subset_foldl_learn list known)) (by omega)
    · exact Nat.not_lt.mp hlt

lemma card_unknown_le (known : Finset C) : (list.toFinset \ known).card ≤ list.length :=
  (Finset.card_le_card Finset.sdiff_subset).trans list.toFinset_card_le

lemma known_of_merges (hl : Listing h list)
    (hmerges : ∀ c ∈ list, 2 ≤ countInterestingParents h flags c → h.treeSame c = false) (hc : c ∈ list)
    (hchanges : h.treeSame c = false) : c ∈ knownCommits h flags list := by
  have henough := enough_knownWhenCounted hl list.length (Finset.Subset.refl (initiallyKnown h flags list))
    (card_unknown_le _)
  have hinitial : initiallyKnown h flags list ⊆ knownCommits h flags list := subset_knownWhenCounted _ _
  -- The counted commits are the ones that change the tree.
  have hsubset : list.toFinset.filter (IsCounted h flags (knownCommits h flags list)) ⊆
      list.toFinset.filter fun c => h.treeSame c = false := fun d hd => by
    obtain ⟨hmem, htwo | hknown⟩ := Finset.mem_filter.mp hd
    · exact Finset.mem_filter.mpr ⟨hmem, hmerges d (List.mem_toFinset.mp hmem) htwo⟩
    · exact Finset.mem_filter.mpr ⟨hmem, hknown.2⟩
  rw [treeChanging_eq hl.nodup] at henough
  have heq := Finset.eq_of_subset_of_card_le hsubset henough
  have hcounted : c ∈ list.toFinset.filter (IsCounted h flags (knownCommits h flags list)) := by
    rw [heq]
    exact Finset.mem_filter.mpr ⟨List.mem_toFinset.mpr hc, hchanges⟩
  obtain htwo | hknown := (Finset.mem_filter.mp hcounted).2
  · exact hinitial (mem_initiallyKnown.mpr ⟨hc, by omega⟩)
  · exact hknown.1

end GitCore.Bisect
