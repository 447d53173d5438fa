import GitCore.Reach.MergeBasesSpec

/-!
# Which commits reach others

`can_all_from_reach_with_flag`, `can_all_from_reach`, `repo_in_merge_bases_many` and
`repo_is_descendant_of` of `commit-reach.c`.
-/

namespace GitCore.Reach

variable {C : Type} [DecidableEq C] (dag : CommitDag C)

section

variable (withFlag assignFlag : Mark) (minCommitDate minGeneration : Nat)

/-- The commits of `from`, and whether none of them is below the smallest generation. -/
def collectFrom (marks : Marks C) : List C → List C × Bool
  | [] => ([], true)
  | c :: rest =>
    if (c, assignFlag) ∈ marks then collectFrom marks rest
    else if dag.generation c < minGeneration then ([], false)
    else ((c :: (collectFrom marks rest).1), (collectFrom marks rest).2)

/-- The loop over the parents of the commit `c` at the top of the stack, up to one that is put on
the stack. -/
def scanParents (c : C) (marks : Marks C) : List C → Marks C × Option C
  | [] => (marks, none)
  | p :: parents =>
    let marks := if Flagged [withFlag, .result] marks p then insert (c, .result) marks else marks
    if (p, assignFlag) ∈ marks then scanParents c marks parents
    else
      let marks := insert (p, assignFlag) marks
      if dag.date p < minCommitDate ∨ dag.generation p < minGeneration then scanParents c marks parents
      else (marks, some p)

/-- `stack->item->object.flags |= RESULT` -/
def flagTop (marks : Marks C) : List C → Marks C
  | [] => marks
  | top :: _ => insert (top, .result) marks

def reachStep (s : List C × Marks C) : (List C × Marks C) ⊕ Marks C :=
  match s.1 with
  | [] => .inr s.2
  | c :: stack =>
    if Flagged [withFlag, .result] s.2 c then .inl (stack, flagTop s.2 stack)
    else
      match scanParents dag withFlag assignFlag minCommitDate minGeneration c s.2 (dag.parents c) with
      | (marks, none) => .inl (stack, marks)
      | (marks, some p) => .inl (p :: c :: stack, marks)

/-- What the loop over the parents changes: `RESULT` on `c`, and parents are assigned, all but the
last of them below the bounds. -/
structure Scanned (c : C) (marks : Marks C) (parents : List C) (marks' : Marks C) (next : Option C) : Prop where
  grow : marks ⊆ marks'
  new : ∀ d m, (d, m) ∈ marks' → (d, m) ∈ marks ∨
    (d = c ∧ m = .result ∧ ∃ p ∈ parents, Flagged [withFlag, .result] marks p) ∨
    (m = assignFlag ∧ d ∈ parents ∧
      (next = some d ∨ dag.date d < minCommitDate ∨ dag.generation d < minGeneration))
  all : next = none → ∀ p ∈ parents, (p, assignFlag) ∈ marks' ∧
    (Flagged [withFlag, .result] marks p → (c, .result) ∈ marks')
  next : ∀ p, next = some p → p ∈ parents ∧ (p, assignFlag) ∉ marks ∧ (p, assignFlag) ∈ marks'

omit [DecidableEq C] in
lemma flagged_congr {marks marks' : Marks C} {p : C} {mask : List Mark}
    (h : ∀ m ∈ mask, (p, m) ∈ marks' ↔ (p, m) ∈ marks) : Flagged mask marks' p ↔ Flagged mask marks p :=
  exists_congr fun m => and_congr_right fun hm => h m hm

lemma scanParents_spec (hassign : assignFlag ∉ [withFlag, .result]) {c : C} (parents : List C) (marks : Marks C)
    (hc : c ∉ parents) :
    Scanned dag withFlag assignFlag minCommitDate minGeneration c marks parents
      (scanParents dag withFlag assignFlag minCommitDate minGeneration c marks parents).1
      (scanParents dag withFlag assignFlag minCommitDate minGeneration c marks parents).2 := by
  induction parents generalizing marks with
  | nil => exact ⟨subset_rfl, fun d m h => .inl h, by simp, by simp [scanParents]⟩
  | cons p parents ih =>
    rw [List.mem_cons, not_or] at hc
    obtain ⟨hcp, hc⟩ := hc
    rw [scanParents]
    set marks₁ := if Flagged [withFlag, .result] marks p then insert (c, Mark.result) marks else marks
      with hmarks₁
    have hgrow₁ : marks ⊆ marks₁ := by
      rw [hmarks₁]
      split_ifs
      · exact Finset.subset_insert _ _
      · exact subset_rfl
    have hnew₁ : ∀ d m, (d, m) ∈ marks₁ → (d, m) ∈ marks ∨
        (d = c ∧ m = .result ∧ Flagged [withFlag, .result] marks p) := by
      intro d m hd
      rw [hmarks₁] at hd
      split_ifs at hd with hflag
      · obtain hd | hd := Finset.mem_insert.mp hd
        · obtain ⟨rfl, rfl⟩ := Prod.mk.inj hd
          exact .inr ⟨rfl, rfl, hflag⟩
        · exact .inl hd
      · exact .inl hd
    have hresult₁ : Flagged [withFlag, .result] marks p → (c, Mark.result) ∈ marks₁ := by
      intro hflag
      rw [hmarks₁, if_pos hflag]
      exact Finset.mem_insert_self ..
    have hne : assignFlag ≠ .result := by
      rintro rfl
      simp at hassign
    have hassign₁ : ∀ d, (d, assignFlag) ∈ marks₁ ↔ (d, assignFlag) ∈ marks := by
      intro d
      refine ⟨fun hd => (hnew₁ d assignFlag hd).resolve_right fun h => hne h.2.1, fun hd => hgrow₁ hd⟩
    -- a later parent has the flags it had before
    have hflag₁ : ∀ marks₂ : Marks C, (∀ d m, (d, m) ∈ marks₂ ↔ (d, m) ∈ marks₁ ∨ (m = assignFlag ∧ d = p)) →
        ∀ q, q ≠ c → (Flagged [withFlag, .result] marks₂ q ↔ Flagged [withFlag, .result] marks q) := by
      intro marks₂ h₂ q hq
      refine flagged_congr fun m hm => ?_
      have hm' : m ≠ assignFlag := by
        rintro rfl
        exact hassign hm
      rw [h₂, or_iff_left fun h => hm' h.1]
      exact ⟨fun h => (hnew₁ q m h).resolve_right fun h => hq h.1, fun h => hgrow₁ h⟩
    split_ifs with hp hlow
    · have hrest := ih marks₁ hc
      have hflags := hflag₁ marks₁ fun d m => ⟨.inl, fun h => h.elim id fun h => h.1 ▸ h.2 ▸ hp⟩
      refine ⟨hgrow₁.trans hrest.grow, fun d m hd => ?_, fun hnone q hq => ?_, fun q hq => ?_⟩
      · obtain hd | ⟨rfl, rfl, q, hq, hflag⟩ | ⟨rfl, hd, hlow⟩ := hrest.new d m hd
        · obtain hd | ⟨rfl, rfl, hflag⟩ := hnew₁ d m hd
          · exact .inl hd
          · exact .inr (.inl ⟨rfl, rfl, p, List.mem_cons_self .., hflag⟩)
        · have hqc : q ≠ d := fun h => hc (h ▸ hq)
          exact .inr (.inl ⟨rfl, rfl, q, List.mem_cons_of_mem _ hq, (hflags q hqc).mp hflag⟩)
        · exact .inr (.inr ⟨rfl, List.mem_cons_of_mem _ hd, hlow⟩)
      · cases hq with
        | head => exact ⟨hrest.grow hp, fun hflag => hrest.grow (hresult₁ hflag)⟩
        | tail _ hq =>
          have hqc : q ≠ c := fun h => hc (h ▸ hq)
          exact ⟨(hrest.all hnone q hq).1, fun hflag => (hrest.all hnone q hq).2 ((hflags q hqc).mpr hflag)⟩
      · obtain ⟨hmem, hnot, hin⟩ := hrest.next q hq
        exact ⟨List.mem_cons_of_mem _ hmem, fun h => hnot (hgrow₁ h), hin⟩
    · have hrest := ih (insert (p, assignFlag) marks₁) hc
      have hins : ∀ d m, (d, m) ∈ insert (p, assignFlag) marks₁ ↔ (d, m) ∈ marks₁ ∨ (m = assignFlag ∧ d = p) := by
        intro d m
        simp [Finset.mem_insert, or_comm, and_comm]
      have hflags := hflag₁ _ hins
      refine ⟨(hgrow₁.trans (Finset.subset_insert _ _)).trans hrest.grow, fun d m hd => ?_, fun hnone q hq => ?_,
        fun q hq => ?_⟩
      · obtain hd | ⟨rfl, rfl, q, hq, hflag⟩ | ⟨rfl, hd, hlow⟩ := hrest.new d m hd
        · obtain hd | ⟨rfl, rfl⟩ := (hins d m).mp hd
          · obtain hd | ⟨rfl, rfl, hflag⟩ := hnew₁ d m hd
            · exact .inl hd
            · exact .inr (.inl ⟨rfl, rfl, p, List.mem_cons_self .., hflag⟩)
          · exact .inr (.inr ⟨rfl, List.mem_cons_self .., .inr hlow⟩)
        · have hqc : q ≠ d := fun h => hc (h ▸ hq)
          exact .inr (.inl ⟨rfl, rfl, q, List.mem_cons_of_mem _ hq, (hflags q hqc).mp hflag⟩)
        · exact .inr (.inr ⟨rfl, List.mem_cons_of_mem _ hd, hlow⟩)
      · cases hq with
        | head =>
          exact ⟨hrest.grow (Finset.mem_insert_self ..),
            fun hflag => hrest.grow (Finset.mem_insert_of_mem (hresult₁ hflag))⟩
        | tail _ hq =>
          have hqc : q ≠ c := fun h => hc (h ▸ hq)
          exact ⟨(hrest.all hnone q hq).1, fun hflag => (hrest.all hnone q hq).2 ((hflags q hqc).mpr hflag)⟩
      · obtain ⟨hmem, hnot, hin⟩ := hrest.next q hq
        exact ⟨List.mem_cons_of_mem _ hmem, fun h => hnot (Finset.mem_insert_of_mem (hgrow₁ h)), hin⟩
    · refine ⟨hgrow₁.trans (Finset.subset_insert _ _), fun d m hd => ?_, fun hnone => by simp at hnone,
        fun q hq => ?_⟩
      · obtain hd | hd := Finset.mem_insert.mp hd
        · obtain ⟨rfl, rfl⟩ := Prod.mk.inj hd
          exact .inr (.inr ⟨rfl, List.mem_cons_self .., .inl rfl⟩)
        · obtain hd | ⟨rfl, rfl, hflag⟩ := hnew₁ d m hd
          · exact .inl hd
          · exact .inr (.inl ⟨rfl, rfl, p, List.mem_cons_self .., hflag⟩)
      · obtain rfl := Option.some.inj hq
        exact ⟨List.mem_cons_self .., fun h => hp ((hassign₁ p).mpr h), Finset.mem_insert_self ..⟩

section

variable [Fintype C]

def unassigned (marks : Marks C) : Nat :=
  ({c | (c, assignFlag) ∉ marks} : Finset C).card

def reachSize (s : List C × Marks C) : Nat :=
  2 * unassigned assignFlag s.2 + s.1.length

variable {assignFlag} in
lemma unassigned_le {marks marks' : Marks C} (h : marks ⊆ marks') :
    unassigned assignFlag marks' ≤ unassigned assignFlag marks := by
  refine Finset.card_le_card fun c hc => ?_
  simp only [Finset.mem_filter, Finset.mem_univ, true_and] at hc ⊢
  exact fun hin => hc (h hin)

variable {assignFlag} in
lemma unassigned_lt {marks marks' : Marks C} (h : marks ⊆ marks') {p : C} (hp : (p, assignFlag) ∉ marks)
    (hp' : (p, assignFlag) ∈ marks') : unassigned assignFlag marks' < unassigned assignFlag marks := by
  refine Finset.card_lt_card (Finset.ssubset_iff_of_subset (fun c hc => ?_) |>.mpr
    ⟨p, by simpa using hp, by simpa using hp'⟩)
  simp only [Finset.mem_filter, Finset.mem_univ, true_and] at hc ⊢
  exact fun hin => hc (h hin)

omit [Fintype C] in
lemma subset_flagTop (marks : Marks C) (stack : List C) : marks ⊆ flagTop marks stack := by
  cases stack with
  | nil => exact subset_rfl
  | cons top stack => exact Finset.subset_insert _ _

lemma reachStep_size (hassign : assignFlag ∉ [withFlag, .result]) (s s' : List C × Marks C)
    (h : reachStep dag withFlag assignFlag minCommitDate minGeneration s = .inl s') :
    reachSize assignFlag s' < reachSize assignFlag s := by
  unfold reachStep at h
  split at h
  · cases h
  · rename_i c stack hstack
    have hsize : reachSize assignFlag s = 2 * unassigned assignFlag s.2 + (stack.length + 1) := by
      rw [reachSize, hstack, List.length_cons]
    rw [hsize]
    split_ifs at h
    · obtain rfl := Sum.inl.inj h
      have := @unassigned_le _ _ assignFlag _ _ _ (subset_flagTop s.2 stack)
      simp only [reachSize]
      omega
    · have hscan := scanParents_spec dag withFlag assignFlag minCommitDate minGeneration hassign (dag.parents c) s.2
        (fun hc => not_properAncestor_self c (properAncestor_of_parent hc .refl))
      split at h
      · rename_i marks hresult
        rw [hresult] at hscan
        dsimp only at hscan
        obtain rfl := Sum.inl.inj h
        have := @unassigned_le _ _ assignFlag _ _ _ hscan.grow
        simp only [reachSize]
        omega
      · rename_i marks p hresult
        rw [hresult] at hscan
        dsimp only at hscan
        obtain rfl := Sum.inl.inj h
        obtain ⟨-, hnot, hin⟩ := hscan.next p rfl
        have := unassigned_lt hscan.grow hnot hin
        simp only [reachSize, List.length_cons]
        omega

variable (hassign : assignFlag ∉ [withFlag, .result])

/-- The loop over the commits of `from`: whether all of them reach a flagged commit. -/
def reachAll (marks : Marks C) : List C → Bool × Marks C
  | [] => (true, marks)
  | c :: rest =>
    let marks := loop (reachStep dag withFlag assignFlag minCommitDate minGeneration) (reachSize assignFlag)
      (reachStep_size dag withFlag assignFlag minCommitDate minGeneration hassign)
      ([c], insert (c, assignFlag) marks)
    if Flagged [withFlag, .result] marks c then reachAll marks rest else (false, marks)

def canAllFromReachWithFlag (marks : Marks C) (fromCommits : List C) : Bool × Marks C :=
  let (commits, ok) := collectFrom dag assignFlag minGeneration marks fromCommits
  let list := commits.insertionSort (compareCommitsByGen dag)
  let (result, marks) :=
    if ok then reachAll dag withFlag assignFlag minCommitDate minGeneration hassign marks list else (false, marks)
  let marks := clearCommitMarksMany dag [.result, assignFlag] marks (if ok then list else commits)
  (result, fromCommits.foldl (unmark [assignFlag]) marks)

end

end

section

variable [Fintype C]

lemma parent1_ne : Mark.parent1 ∉ [Mark.parent2, Mark.result] := by decide

def canAllFromReach (marks : Marks C) (fromCommits toCommits : List C) (cutoffByMinDate : Bool) : Bool × Marks C :=
  let minDate := if cutoffByMinDate then (fromCommits.head?.map dag.date).getD 0 else 0
  let minCommitDate := (fromCommits ++ toCommits).foldl (fun d c => min d (dag.date c)) minDate
  let minGeneration := (fromCommits ++ toCommits).foldl (fun g c => min g (dag.generation c)) generationNumberInfinity
  let marks := toCommits.foldl (fun marks c => insert (c, .parent2) marks) marks
  let (result, marks) :=
    canAllFromReachWithFlag dag .parent2 .parent1 minCommitDate minGeneration parent1_ne marks fromCommits
  (result, clearCommitMarksMany dag [.parent2] (clearCommitMarksMany dag [.parent1] marks fromCommits) toCommits)

def repoInMergeBasesMany (correctedCommitDatesEnabled : Bool) (marks : Marks C) (commit : C)
    (reference : List C) : Option (Bool × Marks C) :=
  let maxGeneration := reference.foldl (fun g c => max g (dag.generation c)) 0
  let generation := dag.generation commit
  if maxGeneration < generation then some (false, marks)
  else
    match paintDownToCommon dag correctedCommitDatesEnabled marks commit reference generation true with
    | .bug => none
    | .done marks _ =>
      some (decide ((commit, .parent2) ∈ marks), clearCommitMarksMany dag allFlags marks (commit :: reference))

/-- The loop of `repo_is_descendant_of` without generation numbers. -/
def inMergeBasesOfAny (correctedCommitDatesEnabled : Bool) (marks : Marks C) (commit : C) :
    List C → Option (Bool × Marks C)
  | [] => some (false, marks)
  | other :: withCommit =>
    match repoInMergeBasesMany dag correctedCommitDatesEnabled marks other [commit] with
    | none => none
    | some (true, marks) => some (true, marks)
    | some (false, marks) => inMergeBasesOfAny correctedCommitDatesEnabled marks commit withCommit

def repoIsDescendantOf (generationNumbersEnabled correctedCommitDatesEnabled : Bool) (marks : Marks C)
    (commit : C) (withCommit : List C) : Option (Bool × Marks C) :=
  if withCommit = [] then some (true, marks)
  else if generationNumbersEnabled then some (canAllFromReach dag marks [commit] withCommit false)
  else inMergeBasesOfAny dag correctedCommitDatesEnabled marks commit withCommit

end

end GitCore.Reach

/-!
# The search finds what is reached

After the search from a commit, the assigned commits without `RESULT` do not reach a commit of
`to`. The answer is the same on the painting path.
-/

namespace GitCore.Reach

variable {C : Type} {dag : CommitDag C}

def ReachesOne (dag : CommitDag C) (toCommits : List C) (c : C) : Prop :=
  ∃ t ∈ toCommits, Reaches dag c t

lemma ReachesOne.of_parent {toCommits : List C} {c p : C} (hp : p ∈ dag.parents c) (h : ReachesOne dag toCommits p) :
    ReachesOne dag toCommits c := by
  obtain ⟨t, ht, hreach⟩ := h
  exact ⟨t, ht, .head hp hreach⟩

structure ReachInv (dag : CommitDag C) (toCommits starts : List C) (stack : List C) (marks : Marks C) : Prop where
  withFlag : ∀ c, (c, .parent2) ∈ marks ↔ c ∈ toCommits
  only : ∀ c m, (c, m) ∈ marks → m ∈ [Mark.parent1, .parent2, .result]
  sound : ∀ c, (c, .result) ∈ marks → ReachesOne dag toCommits c
  assigned : ∀ c, (c, .result) ∈ marks → (c, .parent1) ∈ marks
  path : ∀ c, (c, .parent1) ∈ marks → ∃ start ∈ starts, FlaggedPath dag [.result, .parent1] marks start c
  chain : stack.IsChain (fun p c => p ∈ dag.parents c)
  onStack : ∀ c ∈ stack, (c, .parent1) ∈ marks
  done : ∀ c, (c, .parent1) ∈ marks → c ∉ stack → ¬ Flagged [.parent2, .result] marks c →
    ¬ ReachesOne dag toCommits c

section

variable {toCommits starts stack : List C} {marks : Marks C} {c : C}

lemma ReachInv.reachesOne (h : ReachInv dag toCommits starts stack marks)
    (hflag : Flagged [.parent2, .result] marks c) : ReachesOne dag toCommits c := by
  obtain ⟨m, hm, hin⟩ := hflag
  simp only [List.mem_cons, List.not_mem_nil, or_false] at hm
  obtain rfl | rfl := hm
  · exact ⟨c, (h.withFlag c).mp hin, .refl⟩
  · exact h.sound c hin

variable [DecidableEq C]

lemma ReachInv.popFlagged (h : ReachInv dag toCommits starts (c :: stack) marks)
    (hflag : Flagged [.parent2, .result] marks c) : ReachInv dag toCommits starts stack (flagTop marks stack) := by
  cases stack with
  | nil =>
    refine ⟨h.withFlag, h.only, h.sound, h.assigned, h.path, .nil, by simp, fun d hd _ hno => ?_⟩
    by_cases hdc : d = c
    · exact absurd (hdc ▸ hflag) hno
    · exact h.done d hd (by simpa using hdc) hno
  | cons top stack =>
    have hstep : c ∈ dag.parents top := (List.isChain_cons_cons.mp h.chain).1
    have hmem : ∀ {d m}, (d, m) ∈ flagTop marks (top :: stack) ↔ (d = top ∧ m = .result) ∨ (d, m) ∈ marks := by
      intro d m
      simp [flagTop, Finset.mem_insert]
    have hsub : marks ⊆ flagTop marks (top :: stack) := subset_flagTop marks _
    have htop : (top, Mark.parent1) ∈ marks := h.onStack top (by simp)
    refine ⟨fun d => ?_, fun d m hd => ?_, fun d hd => ?_, fun d hd => ?_, fun d hd => ?_, ?_, fun d hd => ?_,
      fun d hd hout hno => ?_⟩
    · rw [hmem, ← h.withFlag]
      simp
    · obtain ⟨-, rfl⟩ | hd := hmem.mp hd
      · simp
      · exact h.only d m hd
    · obtain ⟨rfl, -⟩ | hd := hmem.mp hd
      · exact (h.reachesOne hflag).of_parent hstep
      · exact h.sound d hd
    · obtain ⟨rfl, -⟩ | hd := hmem.mp hd
      · exact hsub htop
      · exact hsub (h.assigned d hd)
    · obtain ⟨-, hm⟩ | hd := hmem.mp hd
      · cases hm
      · obtain ⟨start, hstart, hp⟩ := h.path d hd
        exact ⟨start, hstart, hp.grow hsub⟩
    · exact (List.isChain_cons_cons.mp h.chain).2
    · exact hsub (h.onStack d (List.mem_cons_of_mem _ hd))
    · have hno' : ¬ Flagged [.parent2, .result] marks d := by
        rintro ⟨m, hm, hin⟩
        exact hno ⟨m, hm, hsub hin⟩
      have hd' : (d, Mark.parent1) ∈ marks := by
        obtain ⟨-, hm⟩ | hd := hmem.mp hd
        · cases hm
        · exact hd
      by_cases hdc : d = c
      · exact absurd (hdc ▸ hflag) hno'
      · exact h.done d hd' (fun hin => (List.mem_cons.mp hin).elim hdc hout) hno'

lemma ReachInv.scan {minCommitDate minGeneration : Nat} {marks' : Marks C} {next : Option C}
    (h : ReachInv dag toCommits starts (c :: stack) marks) (hflag : ¬ Flagged [.parent2, .result] marks c)
    (hlow : ∀ p, dag.date p < minCommitDate ∨ dag.generation p < minGeneration → ¬ ReachesOne dag toCommits p)
    (hscan : Scanned dag .parent2 .parent1 minCommitDate minGeneration c marks (dag.parents c) marks' next) :
    ReachInv dag toCommits starts (next.elim stack fun p => p :: c :: stack) marks' := by
  have hc : (c, Mark.parent1) ∈ marks := h.onStack c (List.mem_cons_self ..)
  have hself : c ∉ dag.parents c := fun hc => not_properAncestor_self c (properAncestor_of_parent hc .refl)
  -- all commits of the stack are above the top
  have habove : ∀ d ∈ c :: stack, Reaches dag d c := by
    have : ∀ (l : List C) (x : C), (x :: l).IsChain (fun p c => p ∈ dag.parents c) → ∀ d ∈ x :: l, Reaches dag d x := by
      intro l
      induction l with
      | nil =>
        intro x _ d hd
        rw [List.mem_singleton.mp hd]
        exact .refl
      | cons y l ih =>
        intro x hchain d hd
        obtain ⟨hxy, hrest⟩ := List.isChain_cons_cons.mp hchain
        cases hd with
        | head => exact .refl
        | tail _ hd => exact (ih y hrest d hd).tail hxy
    exact this stack c h.chain
  have hparent : ∀ p ∈ dag.parents c, p ∉ c :: stack := fun p hp hin =>
    not_properAncestor_self p ((properAncestor_of_parent hp .refl).of_reaches_left (habove p hin))
  have hpath : ∀ d, (d, Mark.parent1) ∈ marks' → ∃ start ∈ starts, FlaggedPath dag [.result, .parent1] marks' start d := by
    intro d hd
    obtain hd' | ⟨-, hm, -⟩ | ⟨-, hdp, -⟩ := hscan.new d _ hd
    · obtain ⟨start, hstart, hp⟩ := h.path d hd'
      exact ⟨start, hstart, hp.grow hscan.grow⟩
    · cases hm
    · obtain ⟨start, hstart, hp⟩ := h.path c hc
      exact ⟨start, hstart, (hp.grow hscan.grow).tail hdp ⟨.parent1, by simp, hd⟩⟩
  have hsound : ∀ d, (d, Mark.result) ∈ marks' → ReachesOne dag toCommits d ∧ (d, Mark.parent1) ∈ marks' := by
    intro d hd
    obtain hd | ⟨rfl, -, p, hp, hpf⟩ | ⟨hm, -⟩ := hscan.new d _ hd
    · exact ⟨h.sound d hd, hscan.grow (h.assigned d hd)⟩
    · exact ⟨(h.reachesOne hpf).of_parent hp, hscan.grow hc⟩
    · cases hm
  have hwith : ∀ d, (d, Mark.parent2) ∈ marks' ↔ d ∈ toCommits := by
    intro d
    rw [← h.withFlag]
    refine ⟨fun hd => ?_, fun hd => hscan.grow hd⟩
    obtain hd | ⟨-, hm, -⟩ | ⟨hm, -⟩ := hscan.new d _ hd
    · exact hd
    · cases hm
    · cases hm
  have honly : ∀ d m, (d, m) ∈ marks' → m ∈ [Mark.parent1, .parent2, .result] := by
    intro d m hd
    obtain hd | ⟨-, rfl, -⟩ | ⟨rfl, -⟩ := hscan.new d m hd
    · exact h.only d m hd
    · simp
    · simp
  have hno : ∀ d, ¬ Flagged [.parent2, .result] marks' d → ¬ Flagged [.parent2, .result] marks d := by
    rintro d hd ⟨m, hm, hin⟩
    exact hd ⟨m, hm, hscan.grow hin⟩
  -- what was assigned before, or is below the bounds
  have hdone : ∀ d, (d, Mark.parent1) ∈ marks' → d ∉ c :: stack → next ≠ some d →
      ¬ Flagged [.parent2, .result] marks' d → ¬ ReachesOne dag toCommits d := by
    intro d hd hout hnext hnot
    obtain hd | ⟨-, hm, -⟩ | ⟨-, -, hd | hd⟩ := hscan.new d _ hd
    · exact h.done d hd hout (hno d hnot)
    · cases hm
    · exact absurd hd hnext
    · exact hlow d hd
  cases next with
  | none =>
    refine ⟨hwith, honly, fun d hd => (hsound d hd).1, fun d hd => (hsound d hd).2, hpath, h.chain.tail,
      fun d hd => hscan.grow (h.onStack d (List.mem_cons_of_mem _ hd)), fun d hd hout hnot => ?_⟩
    by_cases hdc : d = c
    · subst hdc
      rintro ⟨t, ht, hreach⟩
      obtain rfl | ⟨p, hp, hreach⟩ := Relation.ReflTransGen.cases_head hreach
      · exact hflag ⟨.parent2, by simp, (h.withFlag d).mpr ht⟩
      · obtain ⟨hpa, hpr⟩ := hscan.all rfl p hp
        have hpout := hparent p hp
        by_cases hpf : Flagged [.parent2, .result] marks p
        · exact hnot ⟨.result, by simp, hpr hpf⟩
        · refine hdone p hpa hpout (by simp) ?_ ⟨t, ht, hreach⟩
          rintro ⟨m, hm, hin⟩
          obtain hin | ⟨rfl, -⟩ | ⟨rfl, -⟩ := hscan.new p m hin
          · exact hpf ⟨m, hm, hin⟩
          · exact hself hp
          · simp at hm
    · exact hdone d hd (fun hin => (List.mem_cons.mp hin).elim hdc hout) (by simp) hnot
  | some p =>
    obtain ⟨hp, -, hpa⟩ := hscan.next p rfl
    refine ⟨hwith, honly, fun d hd => (hsound d hd).1, fun d hd => (hsound d hd).2, hpath,
      List.isChain_cons_cons.mpr ⟨hp, h.chain⟩, fun d hd => ?_, fun d hd hout hnot => ?_⟩
    · cases hd with
      | head => exact hpa
      | tail _ hd => exact hscan.grow (h.onStack d hd)
    · rw [Option.elim_some, List.mem_cons, not_or] at hout
      exact hdone d hd hout.2 (fun heq => hout.1 (Option.some.inj heq).symm) hnot

end

section

variable [DecidableEq C] [Fintype C] {toCommits starts : List C} {marks : Marks C} {minCommitDate minGeneration : Nat}

lemma ReachInv.search (h : ReachInv dag toCommits starts [] marks) {c : C} (hc : c ∈ starts)
    (hlow : ∀ p, dag.date p < minCommitDate ∨ dag.generation p < minGeneration → ¬ ReachesOne dag toCommits p)
    (hstep : ∀ s s', reachStep dag .parent2 .parent1 minCommitDate minGeneration s = .inl s' →
      reachSize .parent1 s' < reachSize .parent1 s) :
    let marks' := loop (reachStep dag .parent2 .parent1 minCommitDate minGeneration) (reachSize .parent1) hstep
      ([c], insert (c, .parent1) marks)
    ReachInv dag toCommits starts [] marks' ∧
      (Flagged [.parent2, .result] marks' c ↔ ReachesOne dag toCommits c) := by
  have hmem : ∀ d m, (d, m) ∈ insert (c, Mark.parent1) marks ↔ (d = c ∧ m = .parent1) ∨ (d, m) ∈ marks := by
    intro d m
    simp [Finset.mem_insert]
  have hsub : marks ⊆ insert (c, Mark.parent1) marks := Finset.subset_insert _ _
  have hstart : ReachInv dag toCommits starts [c] (insert (c, .parent1) marks) := by
    refine ⟨fun d => ?_, fun d m hd => ?_, fun d hd => ?_, fun d hd => ?_, fun d hd => ?_, List.isChain_singleton _,
      fun d hd => ?_, fun d hd hout hno => ?_⟩
    · rw [hmem, ← h.withFlag]
      simp
    · obtain ⟨-, rfl⟩ | hd := (hmem d m).mp hd
      · simp
      · exact h.only d m hd
    · obtain ⟨-, hm⟩ | hd := (hmem d _).mp hd
      · cases hm
      · exact h.sound d hd
    · obtain ⟨-, hm⟩ | hd := (hmem d _).mp hd
      · cases hm
      · exact hsub (h.assigned d hd)
    · by_cases hdc : d = c
      · exact ⟨d, hdc ▸ hc, .refl ⟨.parent1, by simp, hd⟩⟩
      · obtain ⟨start, hs, hp⟩ := h.path d (((hmem d _).mp hd).resolve_left fun h => hdc h.1)
        exact ⟨start, hs, hp.grow hsub⟩
    · rw [List.mem_singleton.mp hd]
      exact Finset.mem_insert_self ..
    · rw [List.mem_singleton] at hout
      refine h.done d (((hmem d _).mp hd).resolve_left fun h => hout h.1) (by simp) ?_
      rintro ⟨m, hm, hin⟩
      exact hno ⟨m, hm, hsub hin⟩
  -- `c` stays assigned
  have hend := loop_inv _ _ hstep
    (fun s => ReachInv dag toCommits starts s.1 s.2 ∧ (c, Mark.parent1) ∈ s.2)
    (fun marks' => ReachInv dag toCommits starts [] marks' ∧ (c, Mark.parent1) ∈ marks')
    (fun s s' hs hround => ?_) (fun s r hs hround => ?_) (s := ([c], insert (c, .parent1) marks))
    ⟨hstart, Finset.mem_insert_self ..⟩
  · refine ⟨hend.1, hend.1.reachesOne, fun hreach => ?_⟩
    by_contra hno
    exact hend.1.done c hend.2 (by simp) hno hreach
  · obtain ⟨stack, current⟩ := s
    obtain ⟨hs, hcin⟩ := hs
    cases stack with
    | nil => cases hround
    | cons top stack =>
      simp only [reachStep] at hround
      split_ifs at hround with hflag
      · obtain rfl := Sum.inl.inj hround
        exact ⟨hs.popFlagged hflag, subset_flagTop current stack hcin⟩
      · have hscan := scanParents_spec dag .parent2 .parent1 minCommitDate minGeneration parent1_ne
          (dag.parents top) current (fun htop => not_properAncestor_self top (properAncestor_of_parent htop .refl))
        split at hround
        · rename_i marks' hresult
          rw [hresult] at hscan
          obtain rfl := Sum.inl.inj hround
          exact ⟨hs.scan hflag hlow hscan, hscan.grow hcin⟩
        · rename_i marks' p hresult
          rw [hresult] at hscan
          obtain rfl := Sum.inl.inj hround
          exact ⟨hs.scan hflag hlow hscan, hscan.grow hcin⟩
  · obtain ⟨stack, current⟩ := s
    cases stack with
    | nil =>
      obtain rfl := Sum.inr.inj hround
      exact hs
    | cons top stack =>
      simp only [reachStep] at hround
      split_ifs at hround
      split at hround <;> cases hround

lemma ReachInv.reachAll (hlow : ∀ p, dag.date p < minCommitDate ∨ dag.generation p < minGeneration →
    ¬ ReachesOne dag toCommits p) (rest : List C) (hrest : ∀ c ∈ rest, c ∈ starts)
    (h : ReachInv dag toCommits starts [] marks) :
    ∃ result marks', reachAll dag .parent2 .parent1 minCommitDate minGeneration parent1_ne marks rest =
        (result, marks') ∧ ReachInv dag toCommits starts [] marks' ∧
      (result = true ↔ ∀ c ∈ rest, ReachesOne dag toCommits c) := by
  induction rest generalizing marks with
  | nil => exact ⟨true, marks, rfl, h, by simp⟩
  | cons c rest ih =>
    obtain ⟨hnext, hiff⟩ := h.search (hrest c (List.mem_cons_self ..)) hlow
      (reachStep_size dag .parent2 .parent1 minCommitDate minGeneration parent1_ne)
    rw [GitCore.Reach.reachAll]
    by_cases hflag : Flagged [.parent2, .result]
      (loop (reachStep dag .parent2 .parent1 minCommitDate minGeneration) (reachSize .parent1)
        (reachStep_size dag .parent2 .parent1 minCommitDate minGeneration parent1_ne)
        ([c], insert (c, .parent1) marks)) c
    · obtain ⟨result, marks', hrun, hinv, hresult⟩ := ih (fun d hd => hrest d (List.mem_cons_of_mem _ hd)) hnext
      rw [if_pos hflag]
      refine ⟨result, marks', hrun, hinv, hresult.trans ?_⟩
      simp [hiff.mp hflag]
    · rw [if_neg hflag]
      refine ⟨false, _, rfl, hnext, ?_⟩
      have hno : ¬ ReachesOne dag toCommits c := fun h => hflag (hiff.mpr h)
      simp [hno]

omit [DecidableEq C] [Fintype C] in
lemma foldl_min_spec (f : C → Nat) (list : List C) (g : Nat) :
    list.foldl (fun g c => min g (f c)) g ≤ g ∧ ∀ c ∈ list, list.foldl (fun g c => min g (f c)) g ≤ f c := by
  induction list generalizing g with
  | nil => simp
  | cons c list ih =>
    obtain ⟨hle, hall⟩ := ih (min g (f c))
    refine ⟨hle.trans (min_le_left _ _), fun d hd => ?_⟩
    cases hd with
    | head => exact hle.trans (min_le_right _ _)
    | tail _ hd => exact hall d hd

omit [Fintype C] in
lemma collectFrom_all {marks : Marks C} (hmarks : ∀ c, (c, .parent1) ∉ marks) {fromCommits : List C}
    (h : ∀ c ∈ fromCommits, minGeneration ≤ dag.generation c) :
    collectFrom dag .parent1 minGeneration marks fromCommits = (fromCommits, true) := by
  induction fromCommits with
  | nil => rfl
  | cons c rest ih =>
    have hc := h c (List.mem_cons_self ..)
    rw [collectFrom, if_neg (hmarks c), if_neg (by omega), ih fun d hd => h d (List.mem_cons_of_mem _ hd)]

omit [Fintype C] in
lemma mem_foldl_insert (cs : List C) (m : Mark) (marks : Marks C) (d : C) (m' : Mark) :
    (d, m') ∈ cs.foldl (fun marks c => insert (c, m) marks) marks ↔ (d, m') ∈ marks ∨ (m' = m ∧ d ∈ cs) := by
  induction cs generalizing marks with
  | nil => simp
  | cons c cs ih =>
    rw [List.foldl_cons, ih, Finset.mem_insert, List.mem_cons, Prod.mk.injEq]
    tauto

omit [Fintype C] in
lemma foldl_unmark_of_forall {mask : List Mark} (cs : List C) {marks : Marks C}
    (h : ∀ c m, (c, m) ∈ marks → m ∉ mask) : cs.foldl (unmark mask) marks = marks := by
  induction cs with
  | nil => rfl
  | cons c cs ih =>
    have : unmark mask marks c = marks := by
      ext ⟨d, m⟩
      rw [mem_unmark]
      exact ⟨And.left, fun hd => ⟨hd, fun hdm => h d m hd hdm.2⟩⟩
    rw [List.foldl_cons, this, ih]

lemma clearCommitMarksMany_of_forall {mask : List Mark} (cs : List C) (h : ∀ c m, (c, m) ∈ marks → m ∉ mask) :
    clearCommitMarksMany dag mask marks cs = marks := by
  have hnone : ∀ d, Flagged mask marks d → ∃ c ∈ cs, FlaggedPath dag mask marks c d := by
    rintro d ⟨m, hm, hd⟩
    exact absurd hm (h d m hd)
  ext ⟨d, m⟩
  rw [mem_clearCommitMarksMany hnone]
  exact ⟨And.left, fun hd => ⟨hd, h d m hd⟩⟩

lemma canAllFromReach_spec (dag : CommitDag C) (fromCommits toCommits : List C) :
    ∃ result, canAllFromReach dag ∅ fromCommits toCommits false = (result, ∅) ∧
      (result = true ↔ ∀ c ∈ fromCommits, ReachesOne dag toCommits c) := by
  set minCommitDate := (fromCommits ++ toCommits).foldl (fun d c => min d (dag.date c)) 0 with hminDate
  set minGeneration := (fromCommits ++ toCommits).foldl (fun g c => min g (dag.generation c))
    generationNumberInfinity with hminGen
  set start : Marks C := toCommits.foldl (fun marks c => insert (c, Mark.parent2) marks) ∅ with hstart
  have hmem : ∀ c m, (c, m) ∈ start ↔ m = .parent2 ∧ c ∈ toCommits := by
    intro c m
    rw [hstart, mem_foldl_insert]
    simp
  have hgen : ∀ c ∈ fromCommits ++ toCommits, minGeneration ≤ dag.generation c :=
    (foldl_min_spec dag.generation _ _).2
  have hdate : minCommitDate = 0 := Nat.le_zero.mp (foldl_min_spec dag.date _ 0).1
  have hlow : ∀ p, dag.date p < minCommitDate ∨ dag.generation p < minGeneration →
      ¬ ReachesOne dag toCommits p := by
    rintro p (hp | hp) ⟨t, ht, hreach⟩
    · omega
    · have := hgen t (List.mem_append_right _ ht)
      have := generation_le_of_reaches hreach
      omega
  set list := fromCommits.insertionSort (compareCommitsByGen dag) with hlist
  have hmemList : ∀ c, c ∈ list ↔ c ∈ fromCommits := fun c => List.mem_insertionSort _
  have hinv : ReachInv dag toCommits list [] start := by
    refine ⟨fun c => by simp [hmem], fun c m hc => ?_, fun c hc => ?_, fun c hc => ?_, fun c hc => ?_, .nil,
      by simp, fun c hc => ?_⟩
    · rw [((hmem c m).mp hc).1]
      simp
    all_goals simp [hmem] at hc
  obtain ⟨result, marks, hrun, hend, hresult⟩ := hinv.reachAll hlow list fun c hc => hc
  refine ⟨result, ?_, hresult.trans (forall_congr' fun c => by rw [hmemList])⟩
  have hcollect : collectFrom dag .parent1 minGeneration start fromCommits = (fromCommits, true) :=
    collectFrom_all (fun c => by simp [hmem]) fun c hc => hgen c (List.mem_append_left _ hc)
  -- what is left after the search are the flags of `to`
  have hclear : ∀ c m, (c, m) ∈ clearCommitMarksMany dag [.result, .parent1] marks list →
      m = .parent2 ∧ c ∈ toCommits := by
    intro c m hc
    have hpath : ∀ d, Flagged [.result, .parent1] marks d →
        ∃ c ∈ list, FlaggedPath dag [.result, .parent1] marks c d := by
      rintro d ⟨m, hm, hd⟩
      refine hend.path d ?_
      simp only [List.mem_cons, List.not_mem_nil, or_false] at hm
      obtain rfl | rfl := hm
      · exact hend.assigned d hd
      · exact hd
    obtain ⟨hc, hm⟩ := (mem_clearCommitMarksMany hpath).mp hc
    have := hend.only c m hc
    simp only [List.mem_cons, List.not_mem_nil, or_false] at this hm
    obtain rfl : m = .parent2 := by tauto
    exact ⟨rfl, (hend.withFlag c).mp hc⟩
  have hunmark : fromCommits.foldl (unmark [.parent1]) (clearCommitMarksMany dag [.result, .parent1] marks list) =
      clearCommitMarksMany dag [.result, .parent1] marks list :=
    foldl_unmark_of_forall fromCommits fun c m hc => by simp [(hclear c m hc).1]
  simp only [canAllFromReach, Bool.false_eq_true, if_false, ← hminDate, ← hminGen, ← hstart,
    canAllFromReachWithFlag, hcollect, if_true, ← hlist, hrun, hunmark]
  congr 1
  rw [clearCommitMarksMany_of_forall fromCommits fun c m hc => by simp [(hclear c m hc).1]]
  refine Finset.eq_empty_of_forall_notMem fun ⟨c, m⟩ hc => ?_
  have hpath : ∀ d, Flagged [.parent2] (clearCommitMarksMany dag [.result, .parent1] marks list) d →
      ∃ c ∈ toCommits, FlaggedPath dag [.parent2] (clearCommitMarksMany dag [.result, .parent1] marks list) c d := by
    rintro d ⟨m, hm, hd⟩
    exact ⟨d, (hclear d m hd).2, .refl ⟨m, hm, hd⟩⟩
  obtain ⟨hc, hm⟩ := (mem_clearCommitMarksMany hpath).mp hc
  exact hm (by simp [(hclear c m hc).1])

omit [DecidableEq C] [Fintype C] in
lemma le_foldl_max (f : C → Nat) (list : List C) (g : Nat) :
    g ≤ list.foldl (fun g c => max g (f c)) g ∧ ∀ c ∈ list, f c ≤ list.foldl (fun g c => max g (f c)) g := by
  induction list generalizing g with
  | nil => simp
  | cons c list ih =>
    obtain ⟨hle, hall⟩ := ih (max g (f c))
    refine ⟨(le_max_left _ _).trans hle, fun d hd => ?_⟩
    cases hd with
    | head => exact (le_max_right _ _).trans hle
    | tail _ hd => exact hall d hd

lemma repoInMergeBasesMany_spec (dag : CommitDag C) (correctedCommitDatesEnabled : Bool) (commit : C)
    (reference : List C) :
    ∃ result, repoInMergeBasesMany dag correctedCommitDatesEnabled ∅ commit reference = some (result, ∅) ∧
      (result = true ↔ ∃ r ∈ reference, Reaches dag r commit) := by
  unfold repoInMergeBasesMany
  dsimp only
  split_ifs with hgen
  · refine ⟨false, rfl, ?_⟩
    simp only [Bool.false_eq_true, false_iff, not_exists, not_and]
    intro r hr hreach
    have := (le_foldl_max dag.generation reference 0).2 r hr
    have := generation_le_of_reaches hreach
    omega
  · have hne : reference ≠ [] := by
      rintro rfl
      have := dag.generation_pos commit
      simp only [List.foldl_nil] at hgen
      omega
    obtain ⟨marks, found, hpaint, hp⟩ :=
      paintDownToCommon_painted dag correctedCommitDatesEnabled commit hne (dag.generation commit) true
    rw [hpaint]
    dsimp only
    rw [hp.clear]
    refine ⟨_, rfl, ?_⟩
    rw [decide_eq_true_eq]
    exact hp.parent2_one le_rfl

lemma inMergeBasesOfAny_spec (dag : CommitDag C) (correctedCommitDatesEnabled : Bool) (commit : C)
    (withCommit : List C) :
    ∃ result, inMergeBasesOfAny dag correctedCommitDatesEnabled ∅ commit withCommit = some (result, ∅) ∧
      (result = true ↔ ReachesOne dag withCommit commit) := by
  induction withCommit with
  | nil => exact ⟨false, rfl, by simp [ReachesOne]⟩
  | cons other withCommit ih =>
    obtain ⟨result, hrun, hiff⟩ := repoInMergeBasesMany_spec dag correctedCommitDatesEnabled other [commit]
    rw [inMergeBasesOfAny, hrun]
    cases result with
    | true =>
      refine ⟨true, rfl, iff_of_true rfl ?_⟩
      obtain ⟨r, hr, hreach⟩ := hiff.mp rfl
      rw [List.mem_singleton.mp hr] at hreach
      exact ⟨other, List.mem_cons_self .., hreach⟩
    | false =>
      obtain ⟨result, hrest, hiff'⟩ := ih
      refine ⟨result, hrest, hiff'.trans ?_⟩
      have hno : ¬ Reaches dag commit other := fun h => by
        have := hiff.mpr ⟨commit, List.mem_singleton.mpr rfl, h⟩
        simp at this
      simp [ReachesOne, hno]

/-- `repo_is_descendant_of` says the same on both paths, and `can_all_from_reach` is right for any
two lists; no marks are left. -/
theorem repoIsDescendantOf_spec (dag : CommitDag C) (correctedCommitDatesEnabled : Bool) (commit : C)
    (withCommit : List C) (hne : withCommit ≠ []) :
    (∀ generationNumbersEnabled, ∃ result, repoIsDescendantOf dag generationNumbersEnabled
        correctedCommitDatesEnabled ∅ commit withCommit = some (result, ∅) ∧
      (result = true ↔ ∃ c ∈ withCommit, Reaches dag commit c)) ∧
    ∀ fromCommits toCommits, ∃ result, canAllFromReach dag ∅ fromCommits toCommits false = (result, ∅) ∧
      (result = true ↔ ∀ c ∈ fromCommits, ∃ t ∈ toCommits, Reaches dag c t) := by
  refine ⟨fun generationNumbersEnabled => ?_, canAllFromReach_spec dag⟩
  unfold repoIsDescendantOf
  rw [if_neg hne]
  cases generationNumbersEnabled with
  | true =>
    obtain ⟨result, hrun, hiff⟩ := canAllFromReach_spec dag [commit] withCommit
    refine ⟨result, by rw [if_pos rfl, hrun], hiff.trans ?_⟩
    simp [ReachesOne]
  | false =>
    rw [if_neg (by simp)]
    exact inMergeBasesOfAny_spec dag correctedCommitDatesEnabled commit withCommit

theorem repoIsDescendantOf_skewed :
    (∀ generationNumbersEnabled, ∃ result, repoIsDescendantOf skewedDag generationNumbersEnabled false ∅ 3 [1, 2] =
        some (result, ∅) ∧ (result = true ↔ ∃ c ∈ [1, 2], Reaches skewedDag 3 c)) ∧
    ∀ fromCommits toCommits, ∃ result, canAllFromReach skewedDag ∅ fromCommits toCommits false = (result, ∅) ∧
      (result = true ↔ ∀ c ∈ fromCommits, ∃ t ∈ toCommits, Reaches skewedDag c t) :=
  repoIsDescendantOf_spec skewedDag false 3 [1, 2] (by simp)

/-- Every commit is a descendant of one of no commits. -/
theorem repoIsDescendantOf_none :
    repoIsDescendantOf skewedDag true false ∅ 3 [] = some (true, ∅) ∧ ¬ ∃ c ∈ ([] : List (Fin 4)), Reaches skewedDag 3 c := by
  simp [repoIsDescendantOf]

end

end GitCore.Reach
