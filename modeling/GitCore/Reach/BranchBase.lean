import GitCore.Reach.Subset

/-!
# The base that a branch started from

`get_branch_base_for_tip` of `commit-reach.c`: a walk over the first parents of a tip and of possible
bases, in which every commit has the number of the best base that leads to it.
-/

namespace GitCore.Reach

/-- The walk. `best` is `-1` for the commits of the tip, `i + 1` for those of `bases[i]` and `0` for
the others. The commits of the queue are labelled. -/
structure BranchState (C : Type) where
  best : C → Int
  queue : List C
  bestIndex : Int
  branchPoint : Option C
  labelled : ∀ c ∈ queue, best c ≠ 0

variable {C : Type} [DecidableEq C] (dag : CommitDag C)

def setBest (s : BranchState C) (c : C) (v : Int) (hv : v ≠ 0) : BranchState C :=
  { s with
    best := Function.update s.best c v
    labelled := by
      intro d hd
      by_cases hdc : d = c
      · rw [hdc, Function.update_self]
        exact hv
      · rw [Function.update_of_ne hdc]
        exact s.labelled d hd }

/-- `set_best` and `prio_queue_put` of a commit without a label. -/
def putBest (s : BranchState C) (c : C) (v : Int) (hv : v ≠ 0) : BranchState C :=
  { setBest s c v hv with
    queue := prioQueuePut (compareCommitsByGenThenCommitDate dag) c s.queue
    labelled := by
      intro d hd
      obtain hd | rfl := mem_prioQueuePut.mp hd
      · exact (setBest s c v hv).labelled d hd
      · simpa [setBest] using hv }

/-- The loop over the bases with their indices. It ends with a best index at a base that is the tip. -/
def putBases (s : BranchState C) : List (C × Nat) → BranchState C ⊕ Int
  | [] => .inl s
  | (c, i) :: rest =>
    if s.best c ≠ 0 then
      if s.best c = -1 then .inr (i + 1) else putBases s rest
    else putBases (putBest dag s c (i + 1) (by omega)) rest

/-- The parent is reached from the tip and from the base with the label `positive`. -/
def agreeBest (s : BranchState C) (parent : C) (positive : Int) : BranchState C :=
  { setBest s parent (-1) (by decide) with
    bestIndex := if s.bestIndex < 0 ∨ positive < s.bestIndex then positive else s.bestIndex
    branchPoint := some parent }

/-- The commit `c` hands its label to its first parent. -/
def passBest (s : BranchState C) (c parent : C) (hc : s.best c ≠ 0) : BranchState C :=
  if s.best parent = 0 then putBest dag s parent (s.best c) hc
  else if 0 < s.best parent ∧ 0 < s.best c then
    if s.best c < s.best parent then setBest s parent (s.best c) hc else s
  else agreeBest s parent (if s.best c < 0 then s.best parent else s.best c)

def popBest (s : BranchState C) (c : C) (queue : List C) (hqueue : s.queue = c :: queue) : BranchState C :=
  { s with
    queue := queue
    labelled := fun d hd => s.labelled d (hqueue ▸ List.mem_cons_of_mem c hd) }

/-- One round of the loop of `get_branch_base_for_tip`. -/
def branchStep (s : BranchState C) : BranchState C ⊕ Int :=
  match hqueue : s.queue with
  | [] => .inr s.bestIndex
  | c :: queue =>
    if s.branchPoint = some c then .inr s.bestIndex
    else
      match dag.parents c with
      | [] => .inl (popBest s c queue hqueue)
      | parent :: _ =>
        .inl (passBest dag (popBest s c queue hqueue) c parent (s.labelled c (hqueue ▸ List.mem_cons_self ..)))

def branchStart (tip : C) : BranchState C where
  best := Function.update (fun _ => 0) tip (-1)
  queue := [tip]
  bestIndex := -1
  branchPoint := none
  labelled c hc := by simp [List.mem_singleton.mp hc]

section Size

variable {dag} [Fintype C]

def branchSize (s : BranchState C) : Nat :=
  ({c | s.best c = 0} : Finset C).card + s.queue.length

omit [Fintype C] in
lemma best_setBest (s : BranchState C) (c d : C) (v : Int) (hv : v ≠ 0) :
    (setBest s c v hv).best d = if d = c then v else s.best d :=
  Function.update_apply ..

lemma card_unlabelled_setBest (s : BranchState C) (c : C) (v : Int) (hv : v ≠ 0) :
    ({d | (setBest s c v hv).best d = 0} : Finset C) = ({d | s.best d = 0} : Finset C).erase c := by
  ext d
  simp only [best_setBest, Finset.mem_filter, Finset.mem_univ, true_and, Finset.mem_erase]
  split_ifs with hd <;> simp [hd, hv]

lemma branchSize_passBest (s : BranchState C) (c parent : C) (hc : s.best c ≠ 0) :
    branchSize (passBest dag s c parent hc) ≤ branchSize s := by
  have hset : ∀ v (hv : v ≠ 0), branchSize (setBest s parent v hv) ≤ branchSize s := by
    intro v hv
    have := Finset.card_le_card (Finset.erase_subset parent ({d | s.best d = 0} : Finset C))
    rw [← card_unlabelled_setBest s parent v hv] at this
    exact Nat.add_le_add_right this _
  unfold passBest
  split_ifs with hp
  · have hlt : ({d | (putBest dag s parent (s.best c) hc).best d = 0} : Finset C).card <
        ({d | s.best d = 0} : Finset C).card := by
      refine (congrArg Finset.card (card_unlabelled_setBest s parent _ hc)).trans_lt ?_
      exact Finset.card_erase_lt_of_mem (by simpa using hp)
    have hlen : (putBest dag s parent (s.best c) hc).queue.length = s.queue.length + 1 := length_prioQueuePut ..
    unfold branchSize
    omega
  · exact hset _ hc
  · exact le_rfl
  · exact hset (-1) (by decide)
  · exact hset (-1) (by decide)

lemma branchSize_step {s s' : BranchState C} (h : branchStep dag s = .inl s') : branchSize s' < branchSize s := by
  unfold branchStep at h
  split at h
  · cases h
  · rename_i c queue hqueue
    have hpop : branchSize (popBest s c queue hqueue) < branchSize s := by
      have hlt : queue.length < s.queue.length := by
        rw [hqueue]
        exact Nat.lt_succ_self _
      exact Nat.add_lt_add_left hlt _
    split_ifs at h
    split at h
    · obtain rfl := Sum.inl.inj h
      exact hpop
    · obtain rfl := Sum.inl.inj h
      exact (branchSize_passBest _ c _ _).trans_lt hpop

end Size

def getBranchBaseForTip [Fintype C] (tip : C) (bases : List C) : Int :=
  if bases = [] then -1
  else
    let bestIndex := match putBases dag (branchStart tip) bases.zipIdx with
      | .inl s => loop (branchStep dag) branchSize (fun _ _ => branchSize_step) s
      | .inr bestIndex => bestIndex
    if 0 < bestIndex then bestIndex - 1 else -1

end GitCore.Reach
