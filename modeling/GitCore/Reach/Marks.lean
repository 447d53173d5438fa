import GitCore.Reach.Graph

/-!
# Clearing marks

`clear_commit_marks` of `commit.c` follows the parents from a commit as long as they have one of
the flags to clear.
-/

namespace GitCore.Reach

variable {C : Type} (dag : CommitDag C) (mask : List Mark)

def Flagged (marks : Marks C) (c : C) : Prop :=
  ∃ m ∈ mask, (c, m) ∈ marks

def FlaggedPath (marks : Marks C) (s c : C) : Prop :=
  Flagged mask marks s ∧ Relation.ReflTransGen (fun c p => p ∈ dag.parents c ∧ Flagged mask marks p) s c

section

variable {dag mask} {marks : Marks C}

lemma FlaggedPath.refl {c : C} (h : Flagged mask marks c) : FlaggedPath dag mask marks c c :=
  ⟨h, .refl⟩

lemma FlaggedPath.tail {s c p : C} (h : FlaggedPath dag mask marks s c)
    (hp : p ∈ dag.parents c) (hflag : Flagged mask marks p) : FlaggedPath dag mask marks s p :=
  ⟨h.1, h.2.tail ⟨hp, hflag⟩⟩

lemma FlaggedPath.flagged {s c : C} (h : FlaggedPath dag mask marks s c) :
    Flagged mask marks c := by
  obtain ⟨hs, hpath⟩ := h
  cases hpath with
  | refl => exact hs
  | tail _ hlast => exact hlast.2

lemma FlaggedPath.reaches {s c : C} (h : FlaggedPath dag mask marks s c) : Reaches dag s c :=
  Relation.ReflTransGen.mono (fun _ _ hstep => hstep.1) _ _ h.2

lemma FlaggedPath.trans {s c d : C} (h : FlaggedPath dag mask marks s c)
    (h' : FlaggedPath dag mask marks c d) : FlaggedPath dag mask marks s d :=
  ⟨h.1, h.2.trans h'.2⟩

lemma FlaggedPath.mono {marks marks' : Marks C} {s c : C} (h : FlaggedPath dag mask marks s c)
    (hkeep : ∀ d, FlaggedPath dag mask marks s d → FlaggedPath dag mask marks d c → Flagged mask marks' d) :
    FlaggedPath dag mask marks' s c := by
  obtain ⟨hs, hpath⟩ := h
  refine ⟨hkeep s ⟨hs, .refl⟩ ⟨hs, hpath⟩, ?_⟩
  induction hpath with
  | refl => exact .refl
  | tail hpath hlast ih =>
    have hc := hkeep _ ⟨hs, hpath.tail hlast⟩ (.refl hlast.2)
    exact (ih fun d hd hdb => hkeep d hd (hdb.tail hlast.1 hlast.2)).tail ⟨hlast.1, hc⟩

lemma FlaggedPath.grow {marks marks' : Marks C} {s c : C} (hsub : marks ⊆ marks') (h : FlaggedPath dag mask marks s c) :
    FlaggedPath dag mask marks' s c := by
  refine h.mono fun d hd _ => ?_
  obtain ⟨m, hm, hin⟩ := hd.flagged
  exact ⟨m, hm, hsub hin⟩

end

section

variable [DecidableEq C]

instance decidableFlagged (marks : Marks C) (c : C) : Decidable (Flagged mask marks c) :=
  inferInstanceAs (Decidable (∃ m ∈ mask, (c, m) ∈ marks))

/-- `commit->object.flags &= ~mark` -/
def unmark (marks : Marks C) (c : C) : Marks C :=
  marks.filter (fun x => ¬ (x.1 = c ∧ x.2 ∈ mask))

/-- One round of `clear_commit_marks`: the commit at the top of the list, whose first parent is
next and whose other parents are put on the list if they have a flag. -/
def clearStep : List C × Marks C → (List C × Marks C) ⊕ Marks C
  | ([], marks) => .inr marks
  | (c :: list, marks) =>
    if Flagged mask marks c then
      match dag.parents c with
      | [] => .inl (list, unmark mask marks c)
      | first :: others =>
        .inl (first :: ((others.filter (fun p => Flagged mask (unmark mask marks c) p)).reverse ++ list),
          unmark mask marks c)
    else .inl (list, marks)

variable {mask} in
lemma mem_unmark {c d : C} {m : Mark} :
    (d, m) ∈ unmark mask marks c ↔ (d, m) ∈ marks ∧ ¬ (d = c ∧ m ∈ mask) := by
  simp [unmark]

variable {mask} in
lemma flagged_unmark {c d : C} :
    Flagged mask (unmark mask marks c) d ↔ Flagged mask marks d ∧ d ≠ c := by
  constructor
  · rintro ⟨m, hm, hmem⟩
    obtain ⟨hold, hne⟩ := mem_unmark.mp hmem
    exact ⟨⟨m, hm, hold⟩, fun h => hne ⟨h, hm⟩⟩
  · rintro ⟨⟨m, hm, hmem⟩, hne⟩
    exact ⟨m, hm, mem_unmark.mpr ⟨hmem, fun h => hne h.1⟩⟩

section

variable [Fintype C]

/-- The list, and for each commit that still has a flag the parents it may put there. -/
def clearSize (s : List C × Marks C) : Nat :=
  s.1.length + ∑ c with Flagged mask s.2 c, ((dag.parents c).length + 1)

variable {dag mask} in
lemma sum_unmark {c : C} (h : Flagged mask marks c) :
    ∑ d with Flagged mask (unmark mask marks c) d, ((dag.parents d).length + 1) + ((dag.parents c).length + 1) =
      ∑ d with Flagged mask marks d, ((dag.parents d).length + 1) := by
  have herase : ({d | Flagged mask (unmark mask marks c) d} : Finset C) =
      ({d | Flagged mask marks d} : Finset C).erase c := by
    ext d
    simp [flagged_unmark, and_comm]
  rw [herase, Finset.sum_erase_add _ _ (by simpa using h)]

lemma clearStep_size (s s' : List C × Marks C) (h : clearStep dag mask s = .inl s') :
    clearSize dag mask s' < clearSize dag mask s := by
  obtain ⟨list, marks⟩ := s
  cases list with
  | nil => cases h
  | cons c list =>
    rw [clearStep] at h
    split_ifs at h with hflag
    · have hsum := @sum_unmark _ dag _ _ _ _ _ hflag
      split at h
      · rename_i hparents
        cases h
        rw [hparents] at hsum
        simp only [clearSize, List.length_cons, List.length_nil] at hsum ⊢
        omega
      · rename_i first others hparents
        cases h
        have hfilter := List.length_filter_le
          (fun p => decide (Flagged mask (unmark mask marks c) p)) others
        rw [hparents] at hsum
        simp only [clearSize, List.length_cons, List.length_append, List.length_reverse] at hsum ⊢
        omega
    · cases h
      simp [clearSize]

def clearCommitMarks (marks : Marks C) (c : C) : Marks C :=
  loop (clearStep dag mask) (clearSize dag mask) (clearStep_size dag mask) ([c], marks)

def clearCommitMarksMany (marks : Marks C) (commits : List C) : Marks C :=
  commits.foldl (clearCommitMarks dag mask) marks

end

variable {dag mask}

lemma FlaggedPath.unmark_head {c d : C} (h : FlaggedPath dag mask marks c d) (hne : d ≠ c) :
    ∃ p ∈ dag.parents c, FlaggedPath dag mask (unmark mask marks c) p d := by
  obtain ⟨-, hpath⟩ := h
  obtain rfl | ⟨p, ⟨hp, hflag⟩, hrest⟩ := Relation.ReflTransGen.cases_head hpath
  · exact absurd rfl hne
  · refine ⟨p, hp, FlaggedPath.mono ⟨hflag, hrest⟩ fun e he _ => flagged_unmark.mpr ⟨he.flagged, ?_⟩⟩
    rintro rfl
    exact not_properAncestor_self e (properAncestor_of_parent hp he.reaches)

lemma FlaggedPath.unmark_or {s d : C} (c : C) (h : FlaggedPath dag mask marks s d) :
    FlaggedPath dag mask (unmark mask marks c) s d ∨ FlaggedPath dag mask marks c d := by
  obtain ⟨hs, hpath⟩ := h
  induction hpath with
  | refl =>
    by_cases hsc : s = c
    · subst hsc
      exact .inr (.refl hs)
    · exact .inl (.refl (flagged_unmark.mpr ⟨hs, hsc⟩))
  | tail hpath hlast ih =>
    rename_i e d
    obtain ih | ih := ih
    · by_cases hdc : d = c
      · subst hdc
        exact .inr (.refl hlast.2)
      · exact .inl (ih.tail hlast.1 (flagged_unmark.mpr ⟨hlast.2, hdc⟩))
    · exact .inr (ih.tail hlast.1 hlast.2)

structure ClearInv (dag : CommitDag C) (mask : List Mark) (marks : Marks C) (start : C)
    (s : List C × Marks C) : Prop where
  sub : ∀ x ∈ s.2, x ∈ marks
  cleared : ∀ c m, (c, m) ∈ marks → (c, m) ∉ s.2 → m ∈ mask ∧ FlaggedPath dag mask marks start c
  listed : ∀ c, FlaggedPath dag mask marks start c →
    ¬ Flagged mask s.2 c ∨ ∃ top ∈ s.1, FlaggedPath dag mask s.2 top c
  reached : ∀ c ∈ s.1, Flagged mask s.2 c → FlaggedPath dag mask marks start c

lemma ClearInv.step {start : C} {s s' : List C × Marks C}
    (h : ClearInv dag mask marks start s) (hstep : clearStep dag mask s = .inl s') :
    ClearInv dag mask marks start s' := by
  obtain ⟨list, current⟩ := s
  cases list with
  | nil => cases hstep
  | cons c list =>
    rw [clearStep] at hstep
    split_ifs at hstep with hflag
    · have hc : FlaggedPath dag mask marks start c := h.reached c (List.mem_cons_self ..) hflag
      have hlist : ∃ list', s' = (list', unmark mask current c) ∧
          (∀ p ∈ dag.parents c, Flagged mask (unmark mask current c) p → p ∈ list') ∧
          (∀ d ∈ list, d ∈ list') ∧ ∀ d ∈ list', d ∈ list ∨ d ∈ dag.parents c := by
        split at hstep
        · rename_i hparents
          cases hstep
          exact ⟨list, rfl, by simp [hparents], fun d hd => hd, fun d hd => .inl hd⟩
        · rename_i first others hparents
          cases hstep
          refine ⟨_, rfl, ?_, ?_, ?_⟩
          · intro p hp hflag'
            rw [hparents] at hp
            cases hp with
            | head => exact List.mem_cons_self ..
            | tail _ hp =>
              refine List.mem_cons_of_mem _ (List.mem_append_left _ (List.mem_reverse.mpr ?_))
              exact List.mem_filter.mpr ⟨hp, by simpa using hflag'⟩
          · intro d hd
            exact List.mem_cons_of_mem _ (List.mem_append_right _ hd)
          · intro d hd
            rw [hparents]
            cases hd with
            | head => exact .inr (List.mem_cons_self ..)
            | tail _ hd =>
              obtain hd | hd := List.mem_append.mp hd
              · exact .inr (List.mem_cons_of_mem _ (List.mem_filter.mp (List.mem_reverse.mp hd)).1)
              · exact .inl hd
      obtain ⟨list', rfl, hparents, hold, honly⟩ := hlist
      have hfromc : ∀ d, FlaggedPath dag mask current c d → d ≠ c →
          ∃ top ∈ list', FlaggedPath dag mask (unmark mask current c) top d := by
        intro d hd hne
        obtain ⟨p, hp, hpath⟩ := hd.unmark_head hne
        exact ⟨p, hparents p hp hpath.1, hpath⟩
      refine ⟨fun x hx => h.sub x (Finset.mem_of_mem_filter x hx), fun d m hd hnot => ?_, fun d hd => ?_,
        fun d hd hflag' => ?_⟩
      · by_cases hcur : (d, m) ∈ current
        · have := mem_unmark.not.mp hnot
          obtain ⟨rfl, hm⟩ : d = c ∧ m ∈ mask := by
            by_contra hne
            exact this ⟨hcur, hne⟩
          exact ⟨hm, hc⟩
        · exact h.cleared d m hd hcur
      · by_cases hdc : d = c
        · subst hdc
          exact .inl fun hflag' => (flagged_unmark.mp hflag').2 rfl
        obtain hnone | ⟨top, htop, hpath⟩ := h.listed d hd
        · exact .inl fun hflag' => hnone (flagged_unmark.mp hflag').1
        · cases htop with
          | head => exact .inr (hfromc d hpath hdc)
          | tail _ htop =>
            obtain hpath | hpath := hpath.unmark_or c
            · exact .inr ⟨top, hold top htop, hpath⟩
            · exact .inr (hfromc d hpath hdc)
      · have hflag := (flagged_unmark.mp hflag').1
        obtain hd | hd := honly d hd
        · exact h.reached d (List.mem_cons_of_mem _ hd) hflag
        · obtain ⟨m, hm, hmem⟩ := hflag
          exact hc.tail hd ⟨m, hm, h.sub _ hmem⟩
    · cases hstep
      refine ⟨h.sub, h.cleared, fun d hd => ?_, fun d hd => h.reached d (List.mem_cons_of_mem _ hd)⟩
      obtain hnone | ⟨top, htop, hpath⟩ := h.listed d hd
      · exact .inl hnone
      · cases htop with
        | head => exact absurd hpath.1 hflag
        | tail _ htop => exact .inr ⟨top, htop, hpath⟩

section

variable [Fintype C]

lemma mem_clearCommitMarks {c d : C} {m : Mark} :
    (d, m) ∈ clearCommitMarks dag mask marks c ↔
      (d, m) ∈ marks ∧ ¬ (m ∈ mask ∧ FlaggedPath dag mask marks c d) := by
  have hinv : ClearInv dag mask marks c ([c], marks) := by
    refine ⟨fun x hx => hx, fun d m hd hnot => absurd hd hnot, fun d hd => ?_, fun d hd hflag => ?_⟩
    · exact .inr ⟨c, List.mem_singleton.mpr rfl, hd⟩
    · rw [List.mem_singleton.mp hd] at hflag ⊢
      exact .refl hflag
  have hend := loop_inv _ _ (clearStep_size dag mask) (ClearInv dag mask marks c)
    (fun result => ClearInv dag mask marks c ([], result))
    (fun s s' h hs => h.step hs) (fun s r h hs => ?_) hinv
  · change ClearInv dag mask marks c ([], clearCommitMarks dag mask marks c) at hend
    constructor
    · intro hmem
      refine ⟨hend.sub _ hmem, fun ⟨hm, hpath⟩ => ?_⟩
      obtain hnone | ⟨top, htop, -⟩ := hend.listed d hpath
      · exact hnone ⟨m, hm, hmem⟩
      · cases htop
    · rintro ⟨hmem, hnot⟩
      by_contra hcleared
      exact hnot (hend.cleared d m hmem hcleared)
  · obtain ⟨list, current⟩ := s
    cases list with
    | nil =>
      cases hs
      exact h
    | cons top list =>
      rw [clearStep] at hs
      split_ifs at hs
      split at hs <;> cases hs

lemma mem_clearCommitMarksMany {commits : List C}
    (h : ∀ d, Flagged mask marks d → ∃ c ∈ commits, FlaggedPath dag mask marks c d) {d : C} {m : Mark} :
    (d, m) ∈ clearCommitMarksMany dag mask marks commits ↔ (d, m) ∈ marks ∧ m ∉ mask := by
  induction commits generalizing marks with
  | nil =>
    refine ⟨fun hmem => ⟨hmem, fun hm => ?_⟩, And.left⟩
    obtain ⟨c, hc, -⟩ := h d ⟨m, hm, hmem⟩
    cases hc
  | cons first commits ih =>
    have hflagged : ∀ e, Flagged mask (clearCommitMarks dag mask marks first) e →
        Flagged mask marks e ∧ ¬ FlaggedPath dag mask marks first e := by
      rintro e ⟨m, hm, hmem⟩
      obtain ⟨hold, hnot⟩ := mem_clearCommitMarks.mp hmem
      exact ⟨⟨m, hm, hold⟩, fun hpath => hnot ⟨hm, hpath⟩⟩
    have hrest : ∀ e, Flagged mask (clearCommitMarks dag mask marks first) e →
        ∃ c ∈ commits, FlaggedPath dag mask (clearCommitMarks dag mask marks first) c e := by
      intro e he
      obtain ⟨hold, hnot⟩ := hflagged e he
      obtain ⟨c, hc, hpath⟩ := h e hold
      cases hc with
      | head => exact absurd hpath hnot
      | tail _ hc =>
        refine ⟨c, hc, hpath.mono fun x hx hxe => ?_⟩
        obtain ⟨m, hm, hmem⟩ := hx.flagged
        exact ⟨m, hm, mem_clearCommitMarks.mpr ⟨hmem, fun hfirst => hnot (hfirst.2.trans hxe)⟩⟩
    rw [clearCommitMarksMany, List.foldl_cons, ← clearCommitMarksMany, ih hrest, mem_clearCommitMarks]
    constructor
    · rintro ⟨⟨hmem, -⟩, hm⟩
      exact ⟨hmem, hm⟩
    · rintro ⟨hmem, hm⟩
      exact ⟨⟨hmem, fun h => hm h.1⟩, hm⟩

end

end

end GitCore.Reach
