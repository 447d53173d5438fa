import GitCore.Bisect.Model

/-!
# The commits that a commit reaches

A commit reaches the interesting commits that lead to it. `count_distance` counts those that change the tree, and a
commit with one interesting parent reaches itself and what its parent reaches.
-/

namespace GitCore.Bisect

variable {C : Type} [DecidableEq C] {h : History C} {flags : BisectFlags} {c d p : C} {list : List C}

def interestingParents (h : History C) (flags : BisectFlags) (c : C) : List C :=
  (visitedParents h flags c).filter fun p => ¬h.uninteresting p

def Reaches (h : History C) (flags : BisectFlags) : C → C → Prop :=
  Relation.ReflTransGen fun c p => p ∈ interestingParents h flags c

omit [DecidableEq C] in
lemma mem_interestingParents : p ∈ interestingParents h flags c ↔ p ∈ visitedParents h flags c ∧ h.uninteresting p = false := by
  rw [interestingParents, List.mem_filter]
  simp

omit [DecidableEq C] in
lemma parents_of_interestingParents (hp : p ∈ interestingParents h flags c) : p ∈ h.parents c := by
  have hvisited := (mem_interestingParents.mp hp).1
  rw [visitedParents] at hvisited
  split_ifs at hvisited
  · exact List.mem_of_mem_take hvisited
  · exact hvisited

omit [DecidableEq C] in
lemma not_reaches_of_parent (hp : p ∈ interestingParents h flags c) : ¬Reaches h flags p c := fun hreach => by
  have hcycle : Relation.TransGen (fun p c => p ∈ h.parents c) c c := by
    refine Relation.transGen_swap.mp (Relation.TransGen.head' (parents_of_interestingParents hp) ?_)
    exact Relation.ReflTransGen.mono (fun _ _ => parents_of_interestingParents) _ _ hreach
  exact h.acyclic.transGen.irrefl.irrefl c hcycle

omit [DecidableEq C] in
lemma reaches_iff_parents : Reaches h flags c d ↔ d = c ∨ ∃ p ∈ interestingParents h flags c, Reaches h flags p d := by
  constructor
  · intro hreach
    obtain rfl | ⟨p, hp, hrest⟩ := Relation.ReflTransGen.cases_head hreach
    · exact .inl rfl
    · exact .inr ⟨p, hp, hrest⟩
  · rintro (rfl | ⟨p, hp, hrest⟩)
    · exact .refl
    · exact .head hp hrest

structure Marked (h : History C) (flags : BisectFlags) (reached : C → Prop) (before : Finset C) (r : Nat × Finset C) :
    Prop where
  mem_iff : ∀ d, d ∈ r.2 ↔ d ∈ before ∨ reached d
  count : r.1 + (before.filter fun d => h.treeSame d = false).card = (r.2.filter fun d => h.treeSame d = false).card

/-- Every marked commit is among those on the way, which are not reached here, or all that it reaches is marked. -/
def ClosedBut (h : History C) (flags : BisectFlags) (open' : C → Prop) (marks : Finset C) : Prop :=
  ∀ d ∈ marks, open' d ∨ ∀ e, Reaches h flags d e → e ∈ marks

omit [DecidableEq C] in
lemma mem_parentsOnTheWay {l : List C} : p ∈ parentsOnTheWay l ↔ p ∈ l := by
  cases l with
  | nil => rfl
  | cons a l => simp [parentsOnTheWay, or_comm]

def ReachedFrom (h : History C) (flags : BisectFlags) (ps : List C) (d : C) : Prop :=
  ∃ p ∈ ps, h.uninteresting p = false ∧ Reaches h flags p d

omit [DecidableEq C] in
lemma ClosedBut.marked {open' : C → Prop} {marks : Finset C} {r : Nat × Finset C} (hclosed : ClosedBut h flags open' marks)
    (hmarked : Marked h flags (ReachedFrom h flags [p]) marks r) : ClosedBut h flags open' r.2 := fun d hd => by
  obtain hd | ⟨q, hq, hinteresting, hreach⟩ := (hmarked.mem_iff d).mp hd
  · obtain hopen | hall := hclosed d hd
    · exact .inl hopen
    · exact .inr fun e he => (hmarked.mem_iff e).mpr (.inl (hall e he))
  · exact .inr fun e he => (hmarked.mem_iff e).mpr (.inr ⟨q, hq, hinteresting, hreach.trans he⟩)

omit [DecidableEq C] in
lemma marked_foldl {step : C → Finset C → Nat × Finset C} {open' : C → Prop} (ps : List C)
    (hstep : ∀ p ∈ ps, ∀ marks, ClosedBut h flags open' marks →
      Marked h flags (ReachedFrom h flags [p]) marks (step p marks))
    {acc : Nat × Finset C} (hclosed : ClosedBut h flags open' acc.2) :
    ∃ n, (ps.foldl (fun acc p => (acc.1 + (step p acc.2).1, (step p acc.2).2)) acc).1 = acc.1 + n ∧
      Marked h flags (ReachedFrom h flags ps) acc.2
        (n, (ps.foldl (fun acc p => (acc.1 + (step p acc.2).1, (step p acc.2).2)) acc).2) := by
  induction ps generalizing acc with
  | nil =>
    refine ⟨0, rfl, fun d => ?_, Nat.zero_add _⟩
    simp [ReachedFrom]
  | cons p ps ih =>
    obtain ⟨hp, hps⟩ := List.forall_mem_cons.mp hstep
    have hmarked := hp acc.2 hclosed
    have hclosed' : ClosedBut h flags open' (step p acc.2).2 := hclosed.marked hmarked
    obtain ⟨n, hn, hrest⟩ := @ih hps (acc.1 + (step p acc.2).1, (step p acc.2).2) hclosed'
    refine ⟨(step p acc.2).1 + n, ?_, fun d => ?_, ?_⟩
    · rw [List.foldl_cons, hn]
      exact Nat.add_assoc _ _ _
    · rw [List.foldl_cons]
      refine (hrest.mem_iff d).trans ?_
      rw [hmarked.mem_iff d, or_assoc]
      simp [ReachedFrom]
    · have hcount := hmarked.count
      have hcount' := hrest.count
      rw [List.foldl_cons]
      dsimp only at hcount hcount' ⊢
      omega

omit [DecidableEq C] in
lemma reachedFrom_single (hc : h.uninteresting c = false) : ReachedFrom h flags [c] d ↔ Reaches h flags c d := by
  simp [ReachedFrom, hc]

lemma marked_countDistance (hall : flags.firstParentOnly = false) (c : C) {open' : C → Prop} {marks : Finset C}
    (hclosed : ClosedBut h flags open' marks) (hopen : ∀ d, open' d → ¬Reaches h flags c d) :
    Marked h flags (ReachedFrom h flags [c]) marks (countDistance h c marks) := by
  induction c using h.acyclic.induction generalizing open' marks with
  | _ c ih =>
    have hvisited : visitedParents h flags c = h.parents c := by rw [visitedParents, hall]; rfl
    rw [countDistance]
    by_cases hstop : h.uninteresting c ∨ c ∈ marks
    · rw [if_pos hstop]
      refine ⟨fun d => ⟨.inl, ?_⟩, Nat.zero_add _⟩
      rintro (hd | ⟨p, hp, hinteresting, hreach⟩)
      · exact hd
      · obtain rfl := List.mem_singleton.mp hp
        obtain hun | hmem := hstop
        · rw [hun] at hinteresting
          cases hinteresting
        · obtain hon | hreached := hclosed p hmem
          · exact absurd .refl (hopen p hon)
          · exact hreached d hreach
    · rw [if_neg hstop]
      obtain ⟨hc, hnew⟩ := not_or.mp hstop
      have hc : h.uninteresting c = false := by simpa using hc
      -- While the parents are walked through, the commit itself is on the way.
      have hclosed' : ClosedBut h flags (fun d => open' d ∨ d = c) (insert c marks) := fun d hd => by
        obtain rfl | hd := Finset.mem_insert.mp hd
        · exact .inl (.inr rfl)
        · exact (hclosed d hd).imp .inl fun hall e he => Finset.mem_insert_of_mem (hall e he)
      have hstep : ∀ p ∈ parentsOnTheWay (h.parents c), ∀ marks, ClosedBut h flags (fun d => open' d ∨ d = c) marks →
          Marked h flags (ReachedFrom h flags [p]) marks (countDistance h p marks) := fun p hp marks hmarks => by
        have hp := mem_parentsOnTheWay.mp hp
        by_cases hun : h.uninteresting p
        · rw [countDistance, if_pos (.inl hun)]
          exact ⟨fun d => by simp [ReachedFrom, hun], Nat.zero_add _⟩
        · have hparent : p ∈ interestingParents h flags c := by
            rw [mem_interestingParents, hvisited]
            exact ⟨hp, by simpa using hun⟩
          refine ih p hp hmarks ?_
          rintro d (hd | rfl) hreach
          · exact hopen d hd (.head hparent hreach)
          · exact not_reaches_of_parent hparent hreach
      rw [@List.foldl_attach _ _ _
        fun acc p => (acc.1 + (countDistance h p acc.2).1, (countDistance h p acc.2).2)]
      have hfold := marked_foldl (parentsOnTheWay (h.parents c)) hstep
        (show ClosedBut h flags _ ((if h.treeSame c then 0 else 1, insert c marks) : Nat × Finset C).2 from hclosed')
      generalize (parentsOnTheWay (h.parents c)).foldl
        (fun acc p => (acc.1 + (countDistance h p acc.2).1, (countDistance h p acc.2).2))
        (if h.treeSame c then 0 else 1, insert c marks) = r at hfold ⊢
      obtain ⟨n, hn, hrest⟩ := hfold
      refine ⟨fun d => ?_, ?_⟩
      · refine (hrest.mem_iff d).trans ?_
        rw [reachedFrom_single hc, reaches_iff_parents, Finset.mem_insert, or_comm (a := d = c), or_assoc]
        refine or_congr_right (or_congr_right ⟨?_, ?_⟩)
        · rintro ⟨p, hp, hinteresting, hreach⟩
          exact ⟨p, mem_interestingParents.mpr ⟨hvisited ▸ mem_parentsOnTheWay.mp hp, hinteresting⟩, hreach⟩
        · rintro ⟨p, hp, hreach⟩
          obtain ⟨hp, hinteresting⟩ := mem_interestingParents.mp hp
          exact ⟨p, mem_parentsOnTheWay.mpr (hvisited ▸ hp), hinteresting, hreach⟩
      · have hcount := hrest.count
        dsimp only at hn hcount
        rw [Finset.filter_insert] at hcount
        cases hsame : h.treeSame c with
        | true =>
          rw [hsame, if_pos rfl] at hn
          rw [hsame, if_neg (by decide)] at hcount
          omega
        | false =>
          rw [hsame, if_neg (by decide)] at hn
          rw [hsame, if_pos rfl, Finset.card_insert_of_notMem (by simp [hnew])] at hcount
          omega

/-- A list of interesting commits, each once, with the interesting parents of each. -/
structure Listing (h : History C) (list : List C) : Prop where
  nodup : list.Nodup
  interesting : ∀ c ∈ list, h.uninteresting c = false
  closed : ∀ c ∈ list, ∀ p ∈ h.parents c, h.uninteresting p = false → p ∈ list

/-- The number of commits of the list that `c` reaches and that change the tree. -/
noncomputable def reachCount (h : History C) (flags : BisectFlags) (list : List C) (c : C) : Nat :=
  open Classical in (list.toFinset.filter fun d => Reaches h flags c d ∧ h.treeSame d = false).card

omit [DecidableEq C] in
lemma Listing.mem_of_parent (hl : Listing h list) (hc : c ∈ list) (hp : p ∈ interestingParents h flags c) : p ∈ list :=
  hl.closed c hc p (parents_of_interestingParents hp) (mem_interestingParents.mp hp).2

omit [DecidableEq C] in
lemma Listing.mem_of_reaches (hl : Listing h list) (hc : c ∈ list) (hreach : Reaches h flags c d) : d ∈ list := by
  induction hreach with
  | refl => exact hc
  | tail _ hp ih => exact hl.mem_of_parent ih hp

lemma countDistance_eq (hl : Listing h list) (hall : flags.firstParentOnly = false) (hc : c ∈ list) :
    (countDistance h c ∅).1 = reachCount h flags list c ∧ ∀ d ∈ (countDistance h c ∅).2, d ∈ list := by
  have hmarked := @marked_countDistance _ _ h flags hall c (fun _ => False) ∅ (fun d hd => by simp at hd)
    fun _ hfalse => hfalse.elim
  have hmem : ∀ d, d ∈ (countDistance h c ∅).2 ↔ Reaches h flags c d := fun d => by
    rw [hmarked.mem_iff, reachedFrom_single (hl.interesting c hc)]
    simp
  refine ⟨?_, fun d hd => hl.mem_of_reaches hc ((hmem d).mp hd)⟩
  have hcount := hmarked.count
  rw [Finset.filter_empty, Finset.card_empty, Nat.add_zero] at hcount
  rw [hcount, reachCount]
  congr 1
  ext d
  simp only [Finset.mem_filter, List.mem_toFinset, hmem]
  exact ⟨fun hd => ⟨hl.mem_of_reaches hc hd.1, hd⟩, And.right⟩

lemma reachCount_of_nil (hc : c ∈ list) (hnil : interestingParents h flags c = []) :
    reachCount h flags list c = if h.treeSame c then 0 else 1 := by
  classical
  have hreach : ∀ d, Reaches h flags c d ↔ d = c := fun d => by
    rw [reaches_iff_parents, hnil]
    simp
  rw [reachCount]
  cases hsame : h.treeSame c with
  | true =>
    rw [if_pos rfl, Finset.card_eq_zero, Finset.filter_eq_empty_iff]
    rintro d - ⟨hd, hd'⟩
    rw [(hreach d).mp hd, hsame] at hd'
    cases hd'
  | false =>
    rw [if_neg (by decide), Finset.card_eq_one]
    refine ⟨c, ?_⟩
    ext d
    simp only [Finset.mem_filter, List.mem_toFinset, Finset.mem_singleton, hreach]
    constructor
    · exact fun hd => hd.2.1
    · rintro rfl
      exact ⟨hc, rfl, hsame⟩

lemma reachCount_of_single (hc : c ∈ list) (hsingle : interestingParents h flags c = [p]) :
    reachCount h flags list c = reachCount h flags list p + if h.treeSame c then 0 else 1 := by
  classical
  have hreach : ∀ d, Reaches h flags c d ↔ d = c ∨ Reaches h flags p d := fun d => by
    rw [reaches_iff_parents, hsingle]
    simp
  have hnot : ¬Reaches h flags p c := not_reaches_of_parent (hsingle ▸ List.mem_singleton_self p)
  rw [reachCount, reachCount]
  cases hsame : h.treeSame c with
  | true =>
    rw [if_pos rfl, Nat.add_zero]
    congr 1
    ext d
    simp only [Finset.mem_filter, hreach]
    refine and_congr_right fun _ => ⟨?_, fun hd => ⟨.inr hd.1, hd.2⟩⟩
    rintro ⟨rfl | hd, hd'⟩
    · rw [hsame] at hd'
      cases hd'
    · exact ⟨hd, hd'⟩
  | false =>
    rw [if_neg (by decide), ← Finset.card_insert_of_notMem (a := c) (by simp [hnot])]
    congr 1
    ext d
    simp only [Finset.mem_filter, Finset.mem_insert, List.mem_toFinset, hreach]
    constructor
    · rintro ⟨hd, rfl | hd', hsame'⟩
      · exact .inl rfl
      · exact .inr ⟨hd, hd', hsame'⟩
    · rintro (rfl | ⟨hd, hd', hsame'⟩)
      · exact ⟨hc, .inl rfl, hsame⟩
      · exact ⟨hd, .inr hd', hsame'⟩

def treeChanging (h : History C) (list : List C) : Nat := list.countP fun c => ¬h.treeSame c

lemma treeChanging_eq (hnodup : list.Nodup) :
    treeChanging h list = (list.toFinset.filter fun c => h.treeSame c = false).card := by
  rw [treeChanging, List.countP_eq_length_filter, ← List.toFinset_card_of_nodup (hnodup.filter _)]
  congr 1
  ext d
  simp

lemma reachCount_le (hnodup : list.Nodup) (c : C) : reachCount h flags list c ≤ treeChanging h list := by
  classical
  rw [treeChanging_eq hnodup, reachCount]
  refine Finset.card_le_card fun d hd => ?_
  rw [Finset.mem_filter] at hd ⊢
  exact ⟨hd.1, hd.2.2⟩

end GitCore.Bisect
