import GitCore.Reach.PaintSpec

/-!
# The reachable commits of a set

`get_reachable_subset` of `commit-reach.c`: a walk from the commits of `from` that does not go below
the lowest generation of `to` and ends when every commit of `to` is found.
-/

namespace GitCore.Reach

variable {C : Type} (dag : CommitDag C)

/-- The walk: `PARENT1` stands on the commits to find, `PARENT2` on those that were in the queue. -/
structure SubsetState (C : Type) where
  marks : Marks C
  queue : List C
  foundCommits : List C
  minGeneration : Nat
  numToFind : Nat

section

variable [DecidableEq C]

def markTo (s : SubsetState C) (c : C) : SubsetState C :=
  let s := if dag.generation c < s.minGeneration then { s with minGeneration := dag.generation c } else s
  if (c, .parent1) ∈ s.marks then s
  else { s with marks := insert (c, .parent1) s.marks, numToFind := s.numToFind + 1 }

def putFrom (s : SubsetState C) (c : C) : SubsetState C :=
  if (c, .parent2) ∈ s.marks then s
  else { s with
    marks := insert (c, .parent2) s.marks
    queue := prioQueuePut (compareCommitsByGenThenCommitDate dag) c s.queue }

def putParent (s : SubsetState C) (p : C) : SubsetState C :=
  if dag.generation p < s.minGeneration then s else putFrom dag s p

def takeFound (reachableFlag : Mark) (s : SubsetState C) (current : C) : SubsetState C :=
  if (current, .parent1) ∈ s.marks then
    { s with
      marks := insert (current, reachableFlag) (s.marks.erase (current, .parent1))
      foundCommits := current :: s.foundCommits
      numToFind := s.numToFind - 1 }
  else s

/-- One round of the loop of `get_reachable_subset`. -/
def subsetStep (reachableFlag : Mark) (s : SubsetState C) : SubsetState C ⊕ SubsetState C :=
  if s.numToFind = 0 then .inr s
  else match s.queue with
    | [] => .inr s
    | current :: queue =>
      .inl ((dag.parents current).foldl (putParent dag) (takeFound reachableFlag { s with queue := queue } current))

def subsetStart (fromCommits toCommits : List C) (marks : Marks C) : SubsetState C :=
  fromCommits.foldl (putFrom dag) (toCommits.foldl (markTo dag) ⟨marks, [], [], generationNumberInfinity, 0⟩)

variable {dag}

lemma foldl_putParent (parents : List C) (s : SubsetState C) :
    parents.foldl (putParent dag) s =
      (parents.filter (fun p => s.minGeneration ≤ dag.generation p)).foldl (putFrom dag) s := by
  induction parents generalizing s with
  | nil => rfl
  | cons p parents ih =>
    have hmin : (putFrom dag s p).minGeneration = s.minGeneration := by
      unfold putFrom
      split_ifs <;> rfl
    by_cases hp : dag.generation p < s.minGeneration
    · rw [List.foldl_cons, putParent, if_pos hp, ih, List.filter_cons_of_neg (by simpa using hp)]
    · rw [List.foldl_cons, putParent, if_neg hp, ih, hmin,
        List.filter_cons_of_pos (by simpa using not_lt.mp hp), List.foldl_cons]

/-- What putting commits in the queue changes: the ones without `PARENT2` are put once each. -/
structure Queued (commits : List C) (s s' : SubsetState C) : Prop where
  seen : ∀ c, (c, .parent2) ∈ s'.marks ↔ (c, .parent2) ∈ s.marks ∨ c ∈ commits
  other : ∀ c m, m ≠ Mark.parent2 → ((c, m) ∈ s'.marks ↔ (c, m) ∈ s.marks)
  queue : ∀ c, c ∈ s'.queue ↔ c ∈ s.queue ∨ (c ∈ commits ∧ (c, .parent2) ∉ s.marks)
  nodup : s.queue.Nodup → (∀ c ∈ s.queue, (c, .parent2) ∈ s.marks) → s'.queue.Nodup
  foundCommits : s'.foundCommits = s.foundCommits
  minGeneration : s'.minGeneration = s.minGeneration
  numToFind : s'.numToFind = s.numToFind

omit [DecidableEq C] in
lemma perm_prioQueuePut (le : C → C → Bool) (c : C) (pq : List C) : (prioQueuePut le c pq).Perm (c :: pq) := by
  induction pq with
  | nil => exact .refl _
  | cons first pq ih =>
    rw [prioQueuePut]
    split_ifs
    · exact (ih.cons first).trans (.swap c first pq)
    · exact .refl _

omit [DecidableEq C] in
lemma mem_prioQueuePut {le : C → C → Bool} {c d : C} {pq : List C} :
    d ∈ prioQueuePut le c pq ↔ d ∈ pq ∨ d = c := by
  rw [(perm_prioQueuePut le c pq).mem_iff, List.mem_cons, or_comm]

lemma foldl_putFrom (commits : List C) (s : SubsetState C) : Queued commits s (commits.foldl (putFrom dag) s) := by
  induction commits generalizing s with
  | nil => exact ⟨by simp, fun _ _ _ => Iff.rfl, by simp, fun h _ => h, rfl, rfl, rfl⟩
  | cons c commits ih =>
    rw [List.foldl_cons]
    have hrest := ih (putFrom dag s c)
    by_cases hc : (c, Mark.parent2) ∈ s.marks
    · rw [putFrom, if_pos hc] at hrest ⊢
      refine ⟨fun d => ?_, hrest.other, fun d => ?_, hrest.nodup, hrest.foundCommits, hrest.minGeneration, hrest.numToFind⟩
      · rw [hrest.seen, List.mem_cons]
        constructor
        · rintro (hd | hd)
          · exact .inl hd
          · exact .inr (.inr hd)
        · rintro (hd | rfl | hd)
          · exact .inl hd
          · exact .inl hc
          · exact .inr hd
      · rw [hrest.queue, List.mem_cons]
        constructor
        · rintro (hd | ⟨hd, hno⟩)
          · exact .inl hd
          · exact .inr ⟨.inr hd, hno⟩
        · rintro (hd | ⟨rfl | hd, hno⟩)
          · exact .inl hd
          · exact absurd hc hno
          · exact .inr ⟨hd, hno⟩
    · rw [putFrom, if_neg hc] at hrest ⊢
      refine ⟨fun d => ?_, fun d m hm => ?_, fun d => ?_, fun hq hseen => ?_, hrest.foundCommits, hrest.minGeneration,
        hrest.numToFind⟩
      · rw [hrest.seen, Finset.mem_insert, List.mem_cons, Prod.mk.injEq]
        tauto
      · rw [hrest.other d m hm, Finset.mem_insert, Prod.mk.injEq]
        exact or_iff_right fun h => hm h.2
      · rw [hrest.queue, mem_prioQueuePut, Finset.mem_insert, List.mem_cons, Prod.mk.injEq]
        constructor
        · rintro ((hd | rfl) | ⟨hd, hno⟩)
          · exact .inl hd
          · exact .inr ⟨.inl rfl, hc⟩
          · exact .inr ⟨.inr hd, fun h => hno (.inr h)⟩
        · rintro (hd | ⟨rfl | hd, hno⟩)
          · exact .inl (.inl hd)
          · exact .inl (.inr rfl)
          · by_cases hdc : d = c
            · exact .inl (.inr hdc)
            · exact .inr ⟨hd, fun h => h.elim (fun h => hdc h.1) hno⟩
      · refine hrest.nodup ?_ fun d hd => ?_
        · rw [(perm_prioQueuePut _ c s.queue).nodup_iff, List.nodup_cons]
          exact ⟨fun hin => hc (hseen c hin), hq⟩
        · obtain hd | rfl := mem_prioQueuePut.mp hd
          · exact Finset.mem_insert_of_mem (hseen d hd)
          · exact Finset.mem_insert_self ..

variable {reachableFlag : Mark}

lemma mem_takeFound {s : SubsetState C} {current c : C} {m : Mark} (hc : c ≠ current) :
    (c, m) ∈ (takeFound reachableFlag s current).marks ↔ (c, m) ∈ s.marks := by
  unfold takeFound
  split_ifs <;> simp [hc]

lemma parent2_of_mem_takeFound {s : SubsetState C} {current c : C}
    (hc : (c, Mark.parent2) ∈ s.marks) : (c, Mark.parent2) ∈ (takeFound reachableFlag s current).marks := by
  unfold takeFound
  split_ifs <;> simp [hc]

lemma parent2_takeFound {s : SubsetState C} {current c : C}
    (hcur : (current, Mark.parent2) ∈ s.marks) :
    (c, Mark.parent2) ∈ (takeFound reachableFlag s current).marks ↔ (c, Mark.parent2) ∈ s.marks := by
  by_cases hc : c = current
  · subst hc
    exact iff_of_true (parent2_of_mem_takeFound hcur) hcur
  · exact mem_takeFound hc

variable [Fintype C]

def subsetSize (s : SubsetState C) : Nat :=
  ({c | (c, .parent2) ∉ s.marks} : Finset C).card + s.queue.length

lemma subsetSize_putFrom (s : SubsetState C) (c : C) : subsetSize (putFrom dag s c) ≤ subsetSize s := by
  unfold putFrom
  split_ifs with hc
  · exact le_rfl
  · have hlt : ({d | (d, Mark.parent2) ∉ insert (c, Mark.parent2) s.marks} : Finset C).card <
        ({d | (d, Mark.parent2) ∉ s.marks} : Finset C).card := by
      refine Finset.card_lt_card ((Finset.ssubset_iff_of_subset fun d hd => ?_).mpr ⟨c, by simpa using hc, by simp⟩)
      simp only [Finset.mem_filter, Finset.mem_univ, true_and, Finset.mem_insert, not_or] at hd ⊢
      exact hd.2
    simp only [subsetSize, length_prioQueuePut]
    omega

lemma subsetSize_step {s s' : SubsetState C}
    (h : subsetStep dag reachableFlag s = .inl s') : subsetSize s' < subsetSize s := by
  have hfold : ∀ (parents : List C) (s : SubsetState C), subsetSize (parents.foldl (putFrom dag) s) ≤ subsetSize s := by
    intro parents
    induction parents with
    | nil => exact fun s => le_rfl
    | cons p parents ih => exact fun s => (ih _).trans (subsetSize_putFrom s p)
  unfold subsetStep at h
  split_ifs at h
  cases hq : s.queue with
  | nil =>
    rw [hq] at h
    cases h
  | cons current queue =>
    rw [hq] at h
    obtain rfl := Sum.inl.inj h
    rw [foldl_putParent]
    refine (hfold _ _).trans_lt ?_
    have hsub : ({c | (c, Mark.parent2) ∉ (takeFound reachableFlag { s with queue := queue } current).marks} : Finset C) ⊆
        ({c | (c, Mark.parent2) ∉ s.marks} : Finset C) := by
      intro c hc
      simp only [Finset.mem_filter, Finset.mem_univ, true_and] at hc ⊢
      exact fun hin => hc (parent2_of_mem_takeFound hin)
    have hqueue : (takeFound reachableFlag { s with queue := queue } current).queue = queue := by
      unfold takeFound
      split_ifs <;> rfl
    have := Finset.card_le_card hsub
    simp only [subsetSize, hqueue, hq, List.length_cons]
    omega

variable (dag)

def getReachableSubset (reachableFlag : Mark) (fromCommits toCommits : List C) (marks : Marks C) : Marks C × List C :=
  let s := loop (subsetStep dag reachableFlag) subsetSize (fun _ _ => subsetSize_step)
    (subsetStart dag fromCommits toCommits marks)
  (clearCommitMarksMany dag [.parent2] (clearCommitMarksMany dag [.parent1] s.marks toCommits) fromCommits,
    s.foundCommits)

end

end GitCore.Reach

/-!
# The reachable commits of a set are found

No commit below the lowest generation of `to` leads to a commit of `to`.
-/

namespace GitCore.Reach

variable {C : Type} {dag : CommitDag C}

def ReachedFrom (dag : CommitDag C) (starts : List C) (c : C) : Prop :=
  ∃ start ∈ starts, Reaches dag start c

lemma ReachedFrom.self {starts : List C} {c : C} (h : c ∈ starts) : ReachedFrom dag starts c :=
  ⟨c, h, .refl⟩

lemma ReachedFrom.parent {starts : List C} {c p : C} (h : ReachedFrom dag starts c) (hp : p ∈ dag.parents c) :
    ReachedFrom dag starts p := by
  obtain ⟨start, hstart, hreach⟩ := h
  exact ⟨start, hstart, hreach.tail hp⟩

lemma mem_of_reaches {S : C → Prop} {generation : Nat}
    (hclosed : ∀ c, S c → ∀ p ∈ dag.parents c, generation ≤ dag.generation p → S p) {c d : C} (hc : S c)
    (hreach : Reaches dag c d) (hd : generation ≤ dag.generation d) : S d := by
  induction hreach using Relation.ReflTransGen.head_induction_on with
  | refl => exact hc
  | head hp hrest ih => exact ih (hclosed _ hc _ hp (hd.trans (generation_le_of_reaches hrest)))

variable [DecidableEq C]

structure SubsetInv (dag : CommitDag C) (fromCommits toCommits : List C) (s : SubsetState C) : Prop where
  low : ∀ t ∈ toCommits, s.minGeneration ≤ dag.generation t
  froms : ∀ c ∈ fromCommits, (c, .parent2) ∈ s.marks
  reached : ∀ c, (c, .parent2) ∈ s.marks → ReachedFrom dag fromCommits c
  queued : ∀ c ∈ s.queue, (c, .parent2) ∈ s.marks ∧ c ∉ s.foundCommits
  nodup : s.queue.Nodup
  done : ∀ c, (c, .parent2) ∈ s.marks → c ∉ s.queue → (c ∈ toCommits → c ∈ s.foundCommits) ∧
    ∀ p ∈ dag.parents c, s.minGeneration ≤ dag.generation p → (p, .parent2) ∈ s.marks
  found : ∀ c ∈ s.foundCommits, c ∈ toCommits ∧ (c, .parent2) ∈ s.marks
  foundNodup : s.foundCommits.Nodup
  target : ∀ c, c ∉ s.foundCommits → ((c, .parent1) ∈ s.marks ↔ c ∈ toCommits)
  count : s.numToFind = (toCommits.toFinset \ s.foundCommits.toFinset).card

variable {fromCommits toCommits : List C} {marks : Marks C}

structure MarkedTo (dag : CommitDag C) (commits : List C) (s s' : SubsetState C) : Prop where
  minGeneration : s'.minGeneration ≤ s.minGeneration
  low : ∀ c ∈ commits, s'.minGeneration ≤ dag.generation c
  marks : ∀ c m, (c, m) ∈ s'.marks ↔ (c, m) ∈ s.marks ∨ (m = .parent1 ∧ c ∈ commits)
  numToFind : s'.numToFind = s.numToFind + (commits.toFinset.filter (fun c => (c, Mark.parent1) ∉ s.marks)).card
  queue : s'.queue = s.queue
  foundCommits : s'.foundCommits = s.foundCommits

lemma markTo_eq (s : SubsetState C) (c : C) :
    markTo dag s c = ⟨insert (c, .parent1) s.marks, s.queue, s.foundCommits, min s.minGeneration (dag.generation c),
      s.numToFind + if (c, Mark.parent1) ∈ s.marks then 0 else 1⟩ := by
  unfold markTo
  by_cases hlow : dag.generation c < s.minGeneration <;> by_cases hin : (c, Mark.parent1) ∈ s.marks
  · simp [hlow, hin, hlow.le]
  · simp [hlow, hin, hlow.le]
  · simp [hlow, hin, not_lt.mp hlow]
  · simp [hlow, hin, not_lt.mp hlow]

lemma markedTo_cons {c : C} {commits : List C} {s : SubsetState C}
    (h : ∀ s, MarkedTo dag commits s (commits.foldl (markTo dag) s)) :
    MarkedTo dag (c :: commits) s ((c :: commits).foldl (markTo dag) s) := by
  rw [List.foldl_cons]
  have hrest := h (markTo dag s c)
  rw [markTo_eq] at hrest ⊢
  refine ⟨hrest.minGeneration.trans (min_le_left _ _), fun d hd => ?_, fun d m => ?_, ?_, hrest.queue,
    hrest.foundCommits⟩
  · obtain rfl | hd := List.mem_cons.mp hd
    · exact hrest.minGeneration.trans (min_le_right _ _)
    · exact hrest.low d hd
  · rw [hrest.marks, Finset.mem_insert, Prod.mk.injEq, List.mem_cons]
    tauto
  · rw [hrest.numToFind, List.toFinset_cons, Finset.filter_insert]
    by_cases hc : (c, Mark.parent1) ∈ s.marks
    · rw [if_pos hc, if_neg (not_not_intro hc), Finset.insert_eq_of_mem hc]
      rfl
    · have heq : commits.toFinset.filter (fun d => (d, Mark.parent1) ∉ insert (c, Mark.parent1) s.marks) =
          (commits.toFinset.filter (fun d => (d, Mark.parent1) ∉ s.marks)).erase c := by
        ext d
        simp only [Finset.mem_filter, Finset.mem_insert, Prod.mk.injEq, and_true, not_or, Finset.mem_erase]
        tauto
      have hinsert : insert c (commits.toFinset.filter (fun d => (d, Mark.parent1) ∉ s.marks)) =
          insert c ((commits.toFinset.filter (fun d => (d, Mark.parent1) ∉ s.marks)).erase c) := by
        ext d
        simp only [Finset.mem_insert, Finset.mem_erase]
        tauto
      rw [if_neg hc, if_pos hc, heq, hinsert, Finset.card_insert_of_notMem (Finset.notMem_erase c _)]
      simp only
      omega

lemma foldl_markTo (commits : List C) (s : SubsetState C) : MarkedTo dag commits s (commits.foldl (markTo dag) s) := by
  induction commits generalizing s with
  | nil => exact ⟨le_rfl, by simp, by simp, by simp, rfl, rfl⟩
  | cons c commits ih => exact markedTo_cons ih

lemma subsetInv_start (hmarks : ∀ c, (c, Mark.parent1) ∉ marks ∧ (c, Mark.parent2) ∉ marks) :
    SubsetInv dag fromCommits toCommits (subsetStart dag fromCommits toCommits marks) := by
  have hto := @foldl_markTo _ dag _ toCommits ⟨marks, [], [], generationNumberInfinity, 0⟩
  have hfrom := @foldl_putFrom _ dag _ fromCommits
    (toCommits.foldl (markTo dag) ⟨marks, [], [], generationNumberInfinity, 0⟩)
  have hqueue : ∀ c, c ∈ (subsetStart dag fromCommits toCommits marks).queue ↔ c ∈ fromCommits := by
    intro c
    rw [subsetStart, hfrom.queue, hto.queue, hto.marks]
    simp [(hmarks c).2]
  have hseen : ∀ c, (c, Mark.parent2) ∈ (subsetStart dag fromCommits toCommits marks).marks ↔ c ∈ fromCommits := by
    intro c
    rw [subsetStart, hfrom.seen, hto.marks]
    simp [(hmarks c).2]
  have hfound : (subsetStart dag fromCommits toCommits marks).foundCommits = [] := by
    rw [subsetStart, hfrom.foundCommits, hto.foundCommits]
  refine ⟨fun t ht => ?_, fun c hc => (hseen c).mpr hc, fun c hc => .self ((hseen c).mp hc), fun c hc => ?_, ?_,
    fun c hc hno => absurd ((hqueue c).mpr ((hseen c).mp hc)) hno, by simp [hfound], by simp [hfound], fun c _ => ?_, ?_⟩
  · rw [subsetStart, hfrom.minGeneration]
    exact hto.low t ht
  · exact ⟨(hseen c).mpr ((hqueue c).mp hc), by simp [hfound]⟩
  · refine hfrom.nodup ?_ ?_ <;> simp [hto.queue]
  · rw [subsetStart, hfrom.other c .parent1 (by decide), hto.marks]
    simp [(hmarks c).1]
  · rw [hfound, subsetStart, hfrom.numToFind, hto.numToFind]
    simp [hmarks]

structure TakenTarget (toCommits : List C) (current : C) (queue : List C) (s s' : SubsetState C) : Prop where
  seen : ∀ c, (c, .parent2) ∈ s'.marks ↔ (c, .parent2) ∈ s.marks
  queue : s'.queue = queue
  minGeneration : s'.minGeneration = s.minGeneration
  found : ∀ c, c ∈ s'.foundCommits ↔ c ∈ s.foundCommits ∨ (c = current ∧ c ∈ toCommits)
  foundNodup : s'.foundCommits.Nodup
  target : ∀ c, c ∉ s'.foundCommits → ((c, .parent1) ∈ s'.marks ↔ c ∈ toCommits)
  count : s'.numToFind = (toCommits.toFinset \ s'.foundCommits.toFinset).card

lemma SubsetInv.taken {s : SubsetState C} {current : C} {queue : List C}
    (h : SubsetInv dag fromCommits toCommits s) (hq : s.queue = current :: queue) :
    TakenTarget toCommits current queue s (takeFound reachableFlag { s with queue := queue } current) := by
  obtain ⟨hcur, hnew⟩ := h.queued current (hq ▸ List.mem_cons_self ..)
  have htarget := h.target current hnew
  have hseen : ∀ c, (c, Mark.parent2) ∈ (takeFound reachableFlag { s with queue := queue } current).marks ↔
      (c, Mark.parent2) ∈ s.marks := fun c => parent2_takeFound (s := { s with queue := queue }) hcur
  have hother : ∀ c, c ≠ current → ((c, Mark.parent1) ∈ (takeFound reachableFlag { s with queue := queue } current).marks ↔
      (c, Mark.parent1) ∈ s.marks) := fun c hc => mem_takeFound hc
  by_cases hin : (current, Mark.parent1) ∈ s.marks
  · have hto := htarget.mp hin
    rw [takeFound, if_pos hin] at hseen hother ⊢
    refine ⟨hseen, rfl, rfl, fun c => ?_, List.nodup_cons.mpr ⟨hnew, h.foundNodup⟩, fun c hc => ?_, ?_⟩
    · rw [List.mem_cons, or_comm]
      refine or_congr_right ⟨?_, And.left⟩
      rintro rfl
      exact ⟨rfl, hto⟩
    · rw [List.mem_cons, not_or] at hc
      exact (hother c hc.1).trans (h.target c hc.2)
    · have hmem : current ∈ toCommits.toFinset \ s.foundCommits.toFinset := by simp [hto, hnew]
      rw [List.toFinset_cons, Finset.sdiff_insert, Finset.card_erase_of_mem hmem, ← h.count]
  · have hto : current ∉ toCommits := fun hto => hin (htarget.mpr hto)
    rw [takeFound, if_neg hin]
    refine ⟨fun _ => Iff.rfl, rfl, rfl, fun c => ?_, h.foundNodup, h.target, h.count⟩
    refine ⟨.inl, ?_⟩
    rintro (hc | ⟨rfl, hc⟩)
    · exact hc
    · exact absurd hc hto

lemma SubsetInv.step {s s' : SubsetState C} (h : SubsetInv dag fromCommits toCommits s)
    (hs : subsetStep dag reachableFlag s = .inl s') : SubsetInv dag fromCommits toCommits s' := by
  unfold subsetStep at hs
  split_ifs at hs with hnum
  cases hq : s.queue with
  | nil =>
    rw [hq] at hs
    cases hs
  | cons current queue =>
    rw [hq] at hs
    obtain rfl := Sum.inl.inj hs
    rw [foldl_putParent]
    have htaken := @SubsetInv.taken _ dag _ _ _ reachableFlag _ _ _ h hq
    set s₁ := takeFound reachableFlag { s with queue := queue } current
    have hput := @foldl_putFrom _ dag _ ((dag.parents current).filter (fun p => s₁.minGeneration ≤ dag.generation p)) s₁
    set s₂ := List.foldl (putFrom dag) s₁ _
    obtain ⟨hcur, hnew⟩ := h.queued current (hq ▸ List.mem_cons_self ..)
    have hnodup := h.nodup
    rw [hq, List.nodup_cons] at hnodup
    have hmin : s₂.minGeneration = s.minGeneration := hput.minGeneration.trans htaken.minGeneration
    have hseen : ∀ c, (c, Mark.parent2) ∈ s₂.marks ↔ (c, Mark.parent2) ∈ s.marks ∨
        c ∈ dag.parents current ∧ s.minGeneration ≤ dag.generation c := by
      intro c
      rw [hput.seen, htaken.seen, htaken.minGeneration]
      simp
    have hqueue : ∀ c, c ∈ s₂.queue ↔ c ∈ queue ∨
        (c ∈ dag.parents current ∧ s.minGeneration ≤ dag.generation c) ∧ (c, Mark.parent2) ∉ s.marks := by
      intro c
      rw [hput.queue, htaken.queue, htaken.seen, htaken.minGeneration]
      simp
    have hfound : ∀ c, c ∈ s₂.foundCommits ↔ c ∈ s.foundCommits ∨ (c = current ∧ c ∈ toCommits) := by
      rw [hput.foundCommits]
      exact htaken.found
    constructor
    case low =>
      rw [hmin]
      exact h.low
    case froms => exact fun c hc => (hseen c).mpr (.inl (h.froms c hc))
    case reached =>
      intro c hc
      obtain hc | ⟨hc, -⟩ := (hseen c).mp hc
      · exact h.reached c hc
      · exact (h.reached current hcur).parent hc
    case queued =>
      intro c hc
      rw [hseen, hfound]
      obtain hrest | ⟨hp, hno⟩ := (hqueue c).mp hc
      · obtain ⟨hmem, hout⟩ := h.queued c (hq ▸ List.mem_cons_of_mem _ hrest)
        refine ⟨.inl hmem, fun hin => ?_⟩
        obtain hin | ⟨rfl, -⟩ := hin
        · exact hout hin
        · exact hnodup.1 hrest
      · refine ⟨.inr hp, fun hin => ?_⟩
        obtain hin | ⟨rfl, -⟩ := hin
        · exact hno (h.found c hin).2
        · exact hno hcur
    case nodup =>
      refine hput.nodup (htaken.queue ▸ hnodup.2) fun c hc => ?_
      rw [htaken.queue] at hc
      exact (htaken.seen c).mpr (h.queued c (hq ▸ List.mem_cons_of_mem _ hc)).1
    case done =>
      intro c hc hout
      rw [hqueue, not_or] at hout
      rw [hmin]
      simp only [hseen, hfound]
      have hold : (c, Mark.parent2) ∈ s.marks := by
        by_contra hno
        exact hout.2 ⟨((hseen c).mp hc).resolve_left hno, hno⟩
      by_cases hcc : c = current
      · subst hcc
        exact ⟨fun hto => .inr ⟨rfl, hto⟩, fun p hp hlow => .inr ⟨hp, hlow⟩⟩
      · obtain ⟨hto, hparents⟩ := h.done c hold (by simp [hq, hcc, hout.1])
        exact ⟨fun hin => .inl (hto hin), fun p hp hlow => .inl (hparents p hp hlow)⟩
    case found =>
      intro c hc
      rw [hseen]
      obtain hc | ⟨rfl, hto⟩ := (hfound c).mp hc
      · exact ⟨(h.found c hc).1, .inl (h.found c hc).2⟩
      · exact ⟨hto, .inl hcur⟩
    case foundNodup =>
      rw [hput.foundCommits]
      exact htaken.foundNodup
    case target =>
      intro c hc
      rw [hput.foundCommits] at hc
      exact (hput.other c .parent1 (by decide)).trans (htaken.target c hc)
    case count =>
      rw [hput.numToFind, hput.foundCommits]
      exact htaken.count

lemma SubsetInv.complete {s s' : SubsetState C} (h : SubsetInv dag fromCommits toCommits s)
    (hs : subsetStep dag reachableFlag s = .inr s') {c : C} (hto : c ∈ toCommits) (hreach : ReachedFrom dag fromCommits c) :
    s' = s ∧ c ∈ s.foundCommits := by
  unfold subsetStep at hs
  split_ifs at hs with hnum
  · refine ⟨(Sum.inr.inj hs).symm, ?_⟩
    have hempty : toCommits.toFinset \ s.foundCommits.toFinset = ∅ := Finset.card_eq_zero.mp (h.count ▸ hnum)
    simpa using Finset.sdiff_eq_empty_iff_subset.mp hempty (List.mem_toFinset.mpr hto)
  · cases hq : s.queue with
    | cons current queue =>
      rw [hq] at hs
      cases hs
    | nil =>
      rw [hq] at hs
      refine ⟨(Sum.inr.inj hs).symm, ?_⟩
      obtain ⟨start, hstart, hreach⟩ := hreach
      have hclosed : ∀ d, (d, Mark.parent2) ∈ s.marks → ∀ p ∈ dag.parents d, s.minGeneration ≤ dag.generation p →
          (p, Mark.parent2) ∈ s.marks := fun d hd => (h.done d hd (by simp [hq])).2
      have hseen := mem_of_reaches (S := fun d => (d, Mark.parent2) ∈ s.marks) hclosed (h.froms start hstart) hreach (h.low c hto)
      exact (h.done c hseen (by simp [hq])).1 hto

variable [Fintype C]

lemma getReachableSubset_spec (reachableFlag : Mark) (hmarks : ∀ c, (c, Mark.parent1) ∉ marks ∧ (c, Mark.parent2) ∉ marks) :
    (getReachableSubset dag reachableFlag fromCommits toCommits marks).2.Nodup ∧
      ∀ c, c ∈ (getReachableSubset dag reachableFlag fromCommits toCommits marks).2 ↔
        c ∈ toCommits ∧ ReachedFrom dag fromCommits c := by
  refine loop_inv (subsetStep dag reachableFlag) subsetSize (fun _ _ => subsetSize_step)
    (SubsetInv dag fromCommits toCommits)
    (fun s => s.foundCommits.Nodup ∧ ∀ c, c ∈ s.foundCommits ↔ c ∈ toCommits ∧ ReachedFrom dag fromCommits c)
    (fun s s' h hs => h.step hs) (fun s s' h hs => ?_) (subsetInv_start hmarks)
  have heq : s' = s := by
    unfold subsetStep at hs
    split at hs
    · exact (Sum.inr.inj hs).symm
    · split at hs
      · exact (Sum.inr.inj hs).symm
      · cases hs
  subst heq
  refine ⟨h.foundNodup, fun c => ⟨fun hc => ?_, fun hc => (h.complete hs hc.1 hc.2).2⟩⟩
  exact ⟨(h.found c hc).1, h.reached c (h.found c hc).2⟩

end GitCore.Reach
