import GitCore.Reach.Marks

/-!
# Painting down to the common commits

`paint_down_to_common` of `commit-reach.c`. The priority queue is the list of its commits in the
order in which they are taken, commits that compare equal in the order they were put.
-/

namespace GitCore.Reach

def prioQueuePut {C : Type} (le : C → C → Bool) (c : C) : List C → List C
  | [] => [c]
  | first :: pq => if le first c then first :: prioQueuePut le c pq else c :: first :: pq

lemma length_prioQueuePut {C : Type} (le : C → C → Bool) (c : C) (pq : List C) : (prioQueuePut le c pq).length = pq.length + 1 := by
  induction pq with
  | nil => rfl
  | cons first pq ih =>
    rw [prioQueuePut]
    split_ifs
    · simp [ih]
    · rfl

variable {C : Type} (dag : CommitDag C)

def compareCommitsByCommitDate (a b : C) : Bool :=
  decide (dag.date b ≤ dag.date a)

def compareCommitsByGenThenCommitDate (a b : C) : Bool :=
  if dag.generation a < dag.generation b then false
  else if dag.generation b < dag.generation a then true
  else decide (dag.date b ≤ dag.date a)

def commitListSortByDate (list : List C) : List C :=
  list.insertionSort (fun a b => dag.date b ≤ dag.date a)

/-- The walk: the flags, the queue with the commit that bounds the ones that are not stale, the
generation of the last commit and the list of results. -/
structure PaintState (C : Type) where
  marks : Marks C
  queue : List C
  maxNonstale : Option C
  lastGen : Nat
  result : List C

inductive PaintResult (C : Type)
  | done (marks : Marks C) (result : List C)
  /-- `BUG("bad generation skip")`, or a commit is taken from an empty queue. -/
  | bug

section

variable [DecidableEq C] (le : C → C → Bool)

def nonstaleQueuePut (s : PaintState C) (c : C) : PaintState C :=
  { s with
    queue := prioQueuePut le c s.queue
    maxNonstale :=
      if (c, .stale) ∈ s.marks then s.maxNonstale
      else match s.maxNonstale with
        | none => some c
        | some old => if le old c then some c else some old }

def nonstaleQueuePutDedup (s : PaintState C) (c : C) : PaintState C :=
  if (c, .enqueued) ∈ s.marks then s
  else nonstaleQueuePut le { s with marks := insert (c, .enqueued) s.marks } c

def nonstaleQueueGetDedup (s : PaintState C) (c : C) (queue : List C) : PaintState C :=
  { s with
    marks := s.marks.erase (c, .enqueued)
    queue := queue
    maxNonstale := if s.maxNonstale = some c then none else s.maxNonstale }

/-- `commit->object.flags & (PARENT1 | PARENT2 | STALE)` -/
def paintFlags (marks : Marks C) (c : C) : List Mark :=
  [.parent1, .parent2, .stale].filter (fun m => (c, m) ∈ marks)

/-- `p->object.flags |= flags` -/
def addFlags (marks : Marks C) (c : C) (flags : List Mark) : Marks C :=
  marks ∪ (flags.map (fun m => (c, m))).toFinset

def paintParent (flags : List Mark) (s : PaintState C) (p : C) : PaintState C :=
  if ∀ m ∈ flags, (p, m) ∈ s.marks then s
  else nonstaleQueuePutDedup le { s with marks := addFlags s.marks p flags } p

def paintCommit (minGeneration : Nat) (findAll : Bool) (s : PaintState C) (c : C) :
    PaintState C ⊕ PaintResult C :=
  let generation := dag.generation c
  if minGeneration ≠ 0 ∧ s.lastGen < generation then .inr .bug
  else if generation < minGeneration then .inr (.done s.marks s.result)
  else
    let s := { s with lastGen := generation }
    let flags := paintFlags s.marks c
    if flags = [.parent1, .parent2] then
      if (c, .result) ∈ s.marks then
        .inl ((dag.parents c).foldl (paintParent le [.parent1, .parent2, .stale]) s)
      else
        let s := { s with marks := insert (c, .result) s.marks, result := s.result ++ [c] }
        if !findAll && decide (generation < generationNumberInfinity) then .inr (.done s.marks s.result)
        else .inl ((dag.parents c).foldl (paintParent le [.parent1, .parent2, .stale]) s)
    else .inl ((dag.parents c).foldl (paintParent le flags) s)

/-- One round of the loop of `paint_down_to_common`. -/
def paintStep (minGeneration : Nat) (findAll : Bool) (s : PaintState C) : PaintState C ⊕ PaintResult C :=
  match s.maxNonstale, s.queue with
  | none, _ => .inr (.done s.marks s.result)
  | some _, [] => .inr .bug
  | some _, c :: queue => paintCommit dag le minGeneration findAll (nonstaleQueueGetDedup s c queue) c

lemma mem_addFlags {marks : Marks C} {c d : C} {flags : List Mark} {m : Mark} :
    (d, m) ∈ addFlags marks c flags ↔ (d, m) ∈ marks ∨ (d = c ∧ m ∈ flags) := by
  simp [addFlags, and_comm, eq_comm]

lemma paintFlags_subset (marks : Marks C) (c : C) :
    ∀ m ∈ paintFlags marks c, m ∈ [Mark.parent1, .parent2, .stale] :=
  fun _ hm => List.mem_of_mem_filter hm

lemma length_queue_putDedup (s : PaintState C) (c : C) :
    (nonstaleQueuePutDedup le s c).queue.length ≤ s.queue.length + 1 := by
  unfold nonstaleQueuePutDedup
  split_ifs
  · omega
  · simp [nonstaleQueuePut, length_prioQueuePut]

section Size

variable [Fintype C]

def unpainted (marks : Marks C) : Nat :=
  ((Finset.univ : Finset (C × Mark)).filter
    (fun x => x.2 ∈ [Mark.parent1, .parent2, .stale] ∧ x ∉ marks)).card

def paintSize (s : PaintState C) : Nat :=
  2 * unpainted s.marks + s.queue.length

lemma unpainted_congr {marks marks' : Marks C}
    (h : ∀ c, ∀ m ∈ [Mark.parent1, .parent2, .stale], (c, m) ∈ marks' ↔ (c, m) ∈ marks) :
    unpainted marks' = unpainted marks := by
  unfold unpainted
  congr 1
  ext ⟨c, m⟩
  simp only [Finset.mem_filter, Finset.mem_univ, true_and]
  exact and_congr_right fun hm => (h c m hm).not

lemma unpainted_putDedup (s : PaintState C) (c : C) :
    unpainted (nonstaleQueuePutDedup le s c).marks = unpainted s.marks := by
  unfold nonstaleQueuePutDedup
  split_ifs
  · rfl
  · refine unpainted_congr fun d m hm => ?_
    simp only [nonstaleQueuePut, Finset.mem_insert, Prod.mk.injEq, or_iff_right_iff_imp, and_imp]
    rintro - rfl
    simp at hm

lemma paintSize_paintParent {flags : List Mark} (hflags : ∀ m ∈ flags, m ∈ [Mark.parent1, .parent2, .stale])
    (s : PaintState C) (p : C) : paintSize (paintParent le flags s p) ≤ paintSize s := by
  unfold paintParent
  split_ifs with hall
  · exact le_rfl
  · push Not at hall
    obtain ⟨m, hm, hnot⟩ := hall
    have hlt : unpainted (addFlags s.marks p flags) < unpainted s.marks := by
      refine Finset.card_lt_card (Finset.ssubset_iff_of_subset (fun x hx => ?_) |>.mpr ⟨(p, m), ?_, ?_⟩)
      · simp only [Finset.mem_filter, Finset.mem_univ, true_and] at hx ⊢
        exact ⟨hx.1, fun h => hx.2 (mem_addFlags.mpr (.inl h))⟩
      · simp only [Finset.mem_filter, Finset.mem_univ, true_and]
        exact ⟨hflags m hm, hnot⟩
      · simp only [Finset.mem_filter, Finset.mem_univ, true_and, not_and, not_not]
        exact fun _ => mem_addFlags.mpr (.inr ⟨rfl, hm⟩)
    have hlen := length_queue_putDedup le { s with marks := addFlags s.marks p flags } p
    have hunp := unpainted_putDedup le { s with marks := addFlags s.marks p flags } p
    simp only [paintSize] at hlen hunp ⊢
    omega

lemma paintSize_parents {flags : List Mark} (hflags : ∀ m ∈ flags, m ∈ [Mark.parent1, .parent2, .stale])
    (parents : List C) (s : PaintState C) : paintSize (parents.foldl (paintParent le flags) s) ≤ paintSize s := by
  induction parents generalizing s with
  | nil => exact le_rfl
  | cons p parents ih => exact (ih _).trans (paintSize_paintParent le hflags s p)

lemma paintCommit_size {minGeneration : Nat} {findAll : Bool} {s s' : PaintState C} {c : C}
    (h : paintCommit dag le minGeneration findAll s c = .inl s') : paintSize s' ≤ paintSize s := by
  simp only [paintCommit] at h
  split_ifs at h
  · obtain rfl := Sum.inl.inj h
    exact paintSize_parents le (fun m hm => hm) _ _
  · obtain rfl := Sum.inl.inj h
    refine (paintSize_parents le (fun m hm => hm) _ _).trans ?_
    have hunp : unpainted (insert (c, Mark.result) s.marks) = unpainted s.marks := by
      refine unpainted_congr fun d m hm => ?_
      simp only [Finset.mem_insert, Prod.mk.injEq, or_iff_right_iff_imp, and_imp]
      rintro - rfl
      simp at hm
    simp only [paintSize, hunp, le_refl]
  · obtain rfl := Sum.inl.inj h
    exact paintSize_parents le (paintFlags_subset _ _) _ _

lemma paintStep_size (minGeneration : Nat) (findAll : Bool) (s s' : PaintState C)
    (h : paintStep dag le minGeneration findAll s = .inl s') : paintSize s' < paintSize s := by
  unfold paintStep at h
  split at h
  · cases h
  · cases h
  · rename_i old c queue hmax hqueue
    refine (paintCommit_size dag le h).trans_lt ?_
    have hunp : unpainted (s.marks.erase (c, Mark.enqueued)) = unpainted s.marks := by
      refine unpainted_congr fun d m hm => ?_
      simp only [Finset.mem_erase, ne_eq, Prod.mk.injEq, not_and, and_iff_right_iff_imp]
      rintro - - rfl
      simp at hm
    simp only [paintSize, nonstaleQueueGetDedup, hunp, hqueue, List.length_cons]
    omega

end Size

/-- The flags and the queue before the loop of `paint_down_to_common`. -/
def paintStart (marks : Marks C) (one : C) (twos : List C) : PaintState C :=
  twos.foldl (fun s two => nonstaleQueuePutDedup le { s with marks := addFlags s.marks two [.parent2] } two)
    (nonstaleQueuePutDedup le ⟨addFlags marks one [.parent1], [], none, generationNumberInfinity, []⟩ one)

/-- `paint_down_to_common` with the order of the queue. -/
def paintWith [Fintype C] (marks : Marks C) (one : C) (twos : List C) (minGeneration : Nat) (findAll : Bool) :
    PaintResult C :=
  if twos = [] then .done (addFlags marks one [.parent1]) [one]
  else
    match loop (paintStep dag le minGeneration findAll) paintSize (paintStep_size dag le minGeneration findAll)
      (paintStart le marks one twos) with
    | .done marks result => .done marks (commitListSortByDate dag result)
    | .bug => .bug

end

/-- The order of the queue: by dates only, if generation numbers are no bound for the walk and are
not corrected commit dates. -/
def paintOrder (minGeneration : Nat) (correctedCommitDatesEnabled : Bool) : C → C → Bool :=
  if minGeneration = 0 ∧ correctedCommitDatesEnabled = false then compareCommitsByCommitDate dag
  else compareCommitsByGenThenCommitDate dag

def paintDownToCommon [DecidableEq C] [Fintype C] (correctedCommitDatesEnabled : Bool) (marks : Marks C)
    (one : C) (twos : List C) (minGeneration : Nat) (findAll : Bool) : PaintResult C :=
  paintWith dag (paintOrder dag minGeneration correctedCommitDatesEnabled) marks one twos minGeneration findAll

end GitCore.Reach
