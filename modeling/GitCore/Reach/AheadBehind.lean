import GitCore.Reach.Subset
import GitCore.Reach.MergeBasesSpec
import Mathlib.Data.Set.Card

/-!
# Counting ahead and behind

`ahead_behind` of `commit-reach.c`: a walk from all starting commits at once, in which every commit
has the set of the indices of those that reach it.
-/

namespace GitCore.Reach

structure AheadBehindCount where
  tipIndex : Nat
  baseIndex : Nat
  ahead : Nat
  behind : Nat
  deriving DecidableEq

structure CountState (C : Type) where
  walk : PaintState C
  bitArrays : C → Finset Nat
  counts : List AheadBehindCount

variable {C : Type} [DecidableEq C] (dag : CommitDag C)

def insertNoDup (walk : PaintState C) (c : C) : PaintState C :=
  if (c, .parent2) ∈ walk.marks then walk
  else
    let walk := nonstaleQueuePut (compareCommitsByGenThenCommitDate dag) walk c
    { walk with marks := insert (c, .parent2) walk.marks }

def nonstaleQueueGet (walk : PaintState C) (c : C) (queue : List C) : PaintState C :=
  { walk with
    queue := queue
    maxNonstale := if walk.maxNonstale = some c then none else walk.maxNonstale }

def countCommit (bitmap : Finset Nat) (count : AheadBehindCount) : AheadBehindCount :=
  let reachFromTip := decide (count.tipIndex ∈ bitmap)
  let reachFromBase := decide (count.baseIndex ∈ bitmap)
  if reachFromTip ^^ reachFromBase then
    if reachFromBase then { count with behind := count.behind + 1 } else { count with ahead := count.ahead + 1 }
  else count

def startCommit (s : CountState C) (x : C × Nat) : CountState C :=
  { s with
    walk := insertNoDup dag s.walk x.1
    bitArrays := Function.update s.bitArrays x.1 (insert x.2 (s.bitArrays x.1)) }

def visitParent (commitsNr : Nat) (bitmap : Finset Nat) (s : CountState C) (p : C) : CountState C :=
  let bitmapP := s.bitArrays p ∪ bitmap
  let walk := if bitmapP.card = commitsNr then { s.walk with marks := insert (p, .stale) s.walk.marks } else s.walk
  { s with
    walk := insertNoDup dag walk p
    bitArrays := Function.update s.bitArrays p bitmapP }

/-- The round for the commit `c`, which was taken from the queue. -/
def countStepCommit (commitsNr : Nat) (s : CountState C) (c : C) (queue : List C) : CountState C :=
  let bitmap := s.bitArrays c
  let s' := (dag.parents c).foldl (visitParent dag commitsNr bitmap)
    { s with walk := nonstaleQueueGet s.walk c queue, counts := s.counts.map (countCommit bitmap) }
  { s' with bitArrays := Function.update s'.bitArrays c ∅ }

/-- One round of the loop of `ahead_behind`. There is no result when a commit is taken from an empty
queue. -/
def countStep (commitsNr : Nat) (s : CountState C) : CountState C ⊕ Option (CountState C) :=
  match s.walk.maxNonstale, s.walk.queue with
  | none, _ => .inr (some s)
  | some _, [] => .inr none
  | some _, c :: queue => .inl (countStepCommit dag commitsNr s c queue)

def countStart (commits : List C) (counts : List AheadBehindCount) (marks : Marks C) : CountState C :=
  commits.zipIdx.foldl (startCommit dag)
    ⟨⟨marks, [], none, 0, []⟩, fun _ => ∅, counts.map (fun count => { count with ahead := 0, behind := 0 })⟩

section Size

variable {dag}

lemma mem_marks_insertNoDup {walk : PaintState C} {c d : C} {m : Mark} :
    (d, m) ∈ (insertNoDup dag walk c).marks ↔ (d, m) ∈ walk.marks ∨ (d = c ∧ m = .parent2) := by
  unfold insertNoDup
  split_ifs with hc
  · refine ⟨.inl, ?_⟩
    rintro (h | ⟨rfl, rfl⟩)
    · exact h
    · exact hc
  · simp [nonstaleQueuePut, Finset.mem_insert, or_comm]

lemma queue_insertNoDup (walk : PaintState C) (c : C) :
    (insertNoDup dag walk c).queue =
      if (c, .parent2) ∈ walk.marks then walk.queue
      else prioQueuePut (compareCommitsByGenThenCommitDate dag) c walk.queue := by
  unfold insertNoDup
  split_ifs <;> rfl

variable [Fintype C]

def walkSize (walk : PaintState C) : Nat :=
  ({c | (c, .parent2) ∉ walk.marks} : Finset C).card + walk.queue.length

def countSize (s : CountState C) : Nat :=
  walkSize s.walk

lemma walkSize_insertNoDup (walk : PaintState C) (c : C) : walkSize (insertNoDup dag walk c) ≤ walkSize walk := by
  unfold walkSize
  simp only [mem_marks_insertNoDup, queue_insertNoDup]
  split_ifs with hc
  · gcongr
    tauto
  · have hlt : ({d | ¬ ((d, Mark.parent2) ∈ walk.marks ∨ d = c ∧ True)} : Finset C).card <
        ({d | (d, Mark.parent2) ∉ walk.marks} : Finset C).card := by
      refine Finset.card_lt_card ((Finset.ssubset_iff_of_subset fun d hd => ?_).mpr ⟨c, by simpa using hc, by simp⟩)
      simp only [Finset.mem_filter, Finset.mem_univ, true_and, not_or] at hd ⊢
      exact hd.1
    rw [length_prioQueuePut]
    omega

lemma countSize_visitParents (commitsNr : Nat) (bitmap : Finset Nat) (parents : List C) (s : CountState C) :
    countSize (parents.foldl (visitParent dag commitsNr bitmap) s) ≤ countSize s := by
  induction parents generalizing s with
  | nil => exact le_rfl
  | cons p parents ih =>
    refine (ih _).trans ((walkSize_insertNoDup _ p).trans ?_)
    split_ifs
    · simp [countSize, walkSize]
    · exact le_rfl

lemma countSize_step {commitsNr : Nat} {s s' : CountState C} (h : countStep dag commitsNr s = .inl s') :
    countSize s' < countSize s := by
  unfold countStep at h
  split at h
  · cases h
  · cases h
  · rename_i c queue _ hqueue
    obtain rfl := Sum.inl.inj h
    refine (countSize_visitParents commitsNr (s.bitArrays c) (dag.parents c) _).trans_lt ?_
    have hlt : (nonstaleQueueGet s.walk c queue).queue.length < s.walk.queue.length := by
      rw [hqueue]
      exact Nat.lt_succ_self _
    exact Nat.add_lt_add_left hlt _

end Size

def aheadBehind [Fintype C] (marks : Marks C) (commits : List C) (counts : List AheadBehindCount) :
    Option (Marks C × List AheadBehindCount) :=
  if commits = [] ∨ counts = [] then some (marks, counts)
  else
    (loop (countStep dag commits.length) countSize (fun _ _ => countSize_step) (countStart dag commits counts marks)).map
      (fun s => (s.walk.marks.filter (fun x => x.2 ≠ .parent2 ∧ x.2 ≠ .stale), s.counts))

end GitCore.Reach

/-!
# Every commit is counted once

A commit is taken from the queue after all commits that lead to it, so its bits are those of the
starting commits that reach it. The commits that are left when the walk ends are reached from all.
-/

namespace GitCore.Reach

variable {C : Type} {dag : CommitDag C} {commits : List C}

def ReachesIndex (dag : CommitDag C) (commits : List C) (i : Nat) (c : C) : Prop :=
  ∃ start, commits[i]? = some start ∧ Reaches dag start c

lemma ReachesIndex.lt {i : Nat} {c : C} (h : ReachesIndex dag commits i c) : i < commits.length := by
  obtain ⟨start, hstart, -⟩ := h
  exact (List.getElem?_eq_some_iff.mp hstart).1

lemma ReachesIndex.trans {i : Nat} {c d : C} (h : ReachesIndex dag commits i c) (hreach : Reaches dag c d) :
    ReachesIndex dag commits i d := by
  obtain ⟨start, hstart, hc⟩ := h
  exact ⟨start, hstart, hc.trans hreach⟩

lemma reachedFrom_iff {c : C} : ReachedFrom dag commits c ↔ ∃ i, ReachesIndex dag commits i c := by
  constructor
  · rintro ⟨start, hstart, hreach⟩
    obtain ⟨i, hi⟩ := List.mem_iff_getElem?.mp hstart
    exact ⟨i, start, hi, hreach⟩
  · rintro ⟨i, start, hi, hreach⟩
    exact ⟨start, List.mem_of_getElem? hi, hreach⟩

lemma reachesIndex_iff {i : Nat} {c : C} :
    ReachesIndex dag commits i c ↔
      commits[i]? = some c ∨ ∃ d, c ∈ dag.parents d ∧ ReachesIndex dag commits i d := by
  constructor
  · rintro ⟨start, hstart, hreach⟩
    cases hreach with
    | refl => exact .inl hstart
    | tail hd hp => exact .inr ⟨_, hp, start, hstart, hd⟩
  · rintro (hc | ⟨d, hp, hd⟩)
    · exact ⟨c, hc, .refl⟩
    · exact hd.trans (.single hp)

variable [DecidableEq C]

section Queue

variable {walk : PaintState C}

structure QueueOk (dag : CommitDag C) (walk : PaintState C) : Prop where
  sorted : walk.queue.Pairwise (fun a b => compareCommitsByGenThenCommitDate dag a b = true)
  nodup : walk.queue.Nodup
  bounded : Bounded walk.marks walk.queue walk.maxNonstale
  queued : ∀ c ∈ walk.queue, (c, .parent2) ∈ walk.marks

lemma mem_queue_insertNoDup {c d : C} :
    d ∈ (insertNoDup dag walk c).queue ↔ d ∈ walk.queue ∨ (d = c ∧ (c, .parent2) ∉ walk.marks) := by
  rw [queue_insertNoDup]
  split_ifs with hc
  · simp [hc]
  · simp [mem_prioQueuePut, hc]

lemma QueueOk.insertNoDup (h : QueueOk dag walk) (c : C) : QueueOk dag (insertNoDup dag walk c) := by
  by_cases hc : (c, Mark.parent2) ∈ walk.marks
  · rw [Reach.insertNoDup, if_pos hc]
    exact h
  · refine ⟨?_, ?_, ?_, fun d hd => ?_⟩
    · rw [queue_insertNoDup, if_neg hc]
      exact sorted_prioQueuePut (queueOrder_gen dag) h.sorted
    · rw [queue_insertNoDup, if_neg hc, (perm_prioQueuePut _ c walk.queue).nodup_iff, List.nodup_cons]
      exact ⟨fun hin => hc (h.queued c hin), h.nodup⟩
    · rw [Reach.insertNoDup, if_neg hc]
      exact (h.bounded.put (queueOrder_gen dag) h.sorted c).mono fun d hd => Finset.mem_insert_of_mem hd
    · rw [mem_marks_insertNoDup]
      obtain hd | ⟨rfl, -⟩ := mem_queue_insertNoDup.mp hd
      · exact .inl (h.queued d hd)
      · exact .inr ⟨rfl, rfl⟩

lemma QueueOk.stale (h : QueueOk dag walk) (p : C) :
    QueueOk dag { walk with marks := insert (p, .stale) walk.marks } where
  sorted := h.sorted
  nodup := h.nodup
  bounded := h.bounded.mono fun _ hd => Finset.mem_insert_of_mem hd
  queued c hc := Finset.mem_insert_of_mem (h.queued c hc)

lemma QueueOk.get (h : QueueOk dag walk) {c : C} {queue : List C} (hqueue : walk.queue = c :: queue) :
    QueueOk dag (nonstaleQueueGet walk c queue) := by
  have hsorted := h.sorted
  have hnodup := h.nodup
  have hbounded := h.bounded
  rw [hqueue] at hsorted hnodup hbounded
  refine ⟨(List.pairwise_cons.mp hsorted).2, (List.nodup_cons.mp hnodup).2, ?_, fun d hd => ?_⟩
  · simp only [nonstaleQueueGet]
    cases hmax : walk.maxNonstale with
    | none =>
      rw [hmax] at hbounded
      exact fun d hd => hbounded d (List.mem_cons_of_mem _ hd)
    | some bound =>
      rw [hmax] at hbounded
      obtain ⟨before, after, hsplit, hafter⟩ := hbounded
      cases before with
      | nil =>
        obtain ⟨rfl, rfl⟩ := List.cons.inj hsplit
        rw [if_pos rfl]
        exact hafter
      | cons first before =>
        obtain ⟨rfl, rfl⟩ := List.cons.inj hsplit
        have hne : bound ≠ c := by
          rintro rfl
          exact (List.nodup_cons.mp hnodup).1 (by simp)
        rw [if_neg (by simpa using hne)]
        exact ⟨before, after, rfl, hafter⟩
  · exact h.queued d (hqueue ▸ List.mem_cons_of_mem _ hd)

end Queue

structure Started (dag : CommitDag C) (starts : List (C × Nat)) (s s' : CountState C) : Prop where
  put : ∀ c, (c, .parent2) ∈ s'.walk.marks ↔ (c, .parent2) ∈ s.walk.marks ∨ ∃ i, (c, i) ∈ starts
  other : ∀ c m, m ≠ Mark.parent2 → ((c, m) ∈ s'.walk.marks ↔ (c, m) ∈ s.walk.marks)
  queue : ∀ c, c ∈ s'.walk.queue ↔
    c ∈ s.walk.queue ∨ ((∃ i, (c, i) ∈ starts) ∧ (c, .parent2) ∉ s.walk.marks)
  ok : QueueOk dag s.walk → QueueOk dag s'.walk
  bits : ∀ c i, i ∈ s'.bitArrays c ↔ i ∈ s.bitArrays c ∨ (c, i) ∈ starts
  counts : s'.counts = s.counts

lemma foldl_startCommit (starts : List (C × Nat)) (s : CountState C) :
    Started dag starts s (starts.foldl (startCommit dag) s) := by
  induction starts generalizing s with
  | nil => exact ⟨by simp, fun _ _ _ => Iff.rfl, by simp, id, by simp, rfl⟩
  | cons x starts ih =>
    obtain ⟨first, i⟩ := x
    have hrest := ih (startCommit dag s (first, i))
    rw [List.foldl_cons]
    refine ⟨fun c => ?_, fun c m hm => ?_, fun c => ?_, fun h => hrest.ok (h.insertNoDup first), fun c j => ?_, hrest.counts⟩
    · rw [hrest.put, startCommit, mem_marks_insertNoDup]
      simp only [List.mem_cons, Prod.mk.injEq, exists_or, and_true]
      simp only [exists_and_left, exists_eq, and_true]
      tauto
    · rw [hrest.other c m hm, startCommit, mem_marks_insertNoDup]
      exact or_iff_left fun h => hm h.2
    · rw [hrest.queue, startCommit, mem_queue_insertNoDup, mem_marks_insertNoDup]
      simp only [List.mem_cons, Prod.mk.injEq, exists_or, exists_and_left, exists_eq, and_true]
      by_cases hc : c = first
      · subst hc
        tauto
      · simp [hc]
    · rw [hrest.bits, startCommit, List.mem_cons, Prod.mk.injEq]
      by_cases hc : c = first
      · subst hc
        simp only [Function.update_self, Finset.mem_insert]
        tauto
      · simp [hc]

structure Visited (dag : CommitDag C) (commitsNr : Nat) (bitmap : Finset Nat) (parents : List C) (s s' : CountState C) :
    Prop where
  put : ∀ c, (c, .parent2) ∈ s'.walk.marks ↔ (c, .parent2) ∈ s.walk.marks ∨ c ∈ parents
  stale : ∀ c, (c, .stale) ∈ s'.walk.marks →
    (c, .stale) ∈ s.walk.marks ∨ (c ∈ parents ∧ (s.bitArrays c ∪ bitmap).card = commitsNr)
  other : ∀ c m, m ≠ Mark.parent2 → m ≠ .stale → ((c, m) ∈ s'.walk.marks ↔ (c, m) ∈ s.walk.marks)
  queue : ∀ c, c ∈ s'.walk.queue ↔ c ∈ s.walk.queue ∨ (c ∈ parents ∧ (c, .parent2) ∉ s.walk.marks)
  ok : QueueOk dag s.walk → QueueOk dag s'.walk
  bits : ∀ c, s'.bitArrays c = if c ∈ parents then s.bitArrays c ∪ bitmap else s.bitArrays c
  counts : s'.counts = s.counts

lemma visited_visitParent (commitsNr : Nat) (bitmap : Finset Nat) (s : CountState C) (p : C) :
    Visited dag commitsNr bitmap [p] s (visitParent dag commitsNr bitmap s p) := by
  refine ⟨fun c => ?_, fun c hc => ?_, fun c m hm hstale => ?_, fun c => ?_, fun h => ?_, fun c => ?_, rfl⟩
  · simp only [visitParent, mem_marks_insertNoDup]
    split_ifs <;> simp
  · simp only [visitParent, mem_marks_insertNoDup] at hc
    split_ifs at hc with hcard
    · simp only [Finset.mem_insert, Prod.mk.injEq, and_true, and_false, or_false] at hc
      obtain rfl | hc := hc
      · exact .inr ⟨List.mem_singleton_self c, hcard⟩
      · exact .inl hc
    · exact .inl (hc.resolve_right (by simp))
  · simp only [visitParent, mem_marks_insertNoDup]
    split_ifs <;> simp [hm, hstale]
  · simp only [visitParent, mem_queue_insertNoDup]
    by_cases hc : c = p
    · subst hc
      split_ifs <;> simp
    · split_ifs <;> simp [hc]
  · simp only [visitParent]
    split_ifs
    · exact (h.stale p).insertNoDup p
    · exact h.insertNoDup p
  · simp only [visitParent, List.mem_singleton]
    by_cases hc : c = p
    · subst hc
      rw [Function.update_self, if_pos rfl]
    · rw [Function.update_of_ne hc, if_neg hc]

lemma Visited.trans {commitsNr : Nat} {bitmap : Finset Nat} {p : C} {parents : List C} {s s₁ s' : CountState C}
    (h : Visited dag commitsNr bitmap [p] s s₁) (h' : Visited dag commitsNr bitmap parents s₁ s') :
    Visited dag commitsNr bitmap (p :: parents) s s' := by
  have hunion : ∀ c, s₁.bitArrays c ∪ bitmap = s.bitArrays c ∪ bitmap := by
    intro c
    rw [h.bits]
    split_ifs
    · rw [Finset.union_assoc, Finset.union_self]
    · rfl
  refine ⟨fun c => ?_, fun c hc => ?_, fun c m hm hstale => ?_, fun c => ?_, fun hok => h'.ok (h.ok hok), fun c => ?_,
    h'.counts.trans h.counts⟩
  · rw [h'.put, h.put, List.mem_singleton, List.mem_cons, or_assoc]
  · obtain hc | ⟨hin, hcard⟩ := h'.stale c hc
    · exact (h.stale c hc).imp_right fun h => ⟨by simpa using .inl (List.mem_singleton.mp h.1), h.2⟩
    · exact .inr ⟨List.mem_cons_of_mem _ hin, hunion c ▸ hcard⟩
  · rw [h'.other c m hm hstale, h.other c m hm hstale]
  · rw [h'.queue, h.queue, h.put, List.mem_singleton, List.mem_cons]
    tauto
  · rw [h'.bits, hunion, h.bits]
    simp only [List.mem_cons]
    by_cases hin : c ∈ parents <;> by_cases hc : c = p <;> simp [hin, hc]

lemma foldl_visitParent (commitsNr : Nat) (bitmap : Finset Nat) (parents : List C) (s : CountState C) :
    Visited dag commitsNr bitmap parents s (parents.foldl (visitParent dag commitsNr bitmap) s) := by
  induction parents generalizing s with
  | nil => exact ⟨by simp, fun _ => .inl, fun _ _ _ _ => Iff.rfl, by simp, id, by simp, rfl⟩
  | cons p parents ih => exact (visited_visitParent commitsNr bitmap s p).trans (ih _)

def Popped (walk : PaintState C) (c : C) : Prop :=
  (c, .parent2) ∈ walk.marks ∧ c ∉ walk.queue

noncomputable def tally (dag : CommitDag C) (commits : List C) (P : C → Prop) (count : AheadBehindCount) :
    AheadBehindCount :=
  { count with
    ahead := {c | P c ∧ ReachesIndex dag commits count.tipIndex c ∧
      ¬ ReachesIndex dag commits count.baseIndex c}.ncard
    behind := {c | P c ∧ ReachesIndex dag commits count.baseIndex c ∧
      ¬ ReachesIndex dag commits count.tipIndex c}.ncard }

structure CountInv (dag : CommitDag C) (commits : List C) (counts : List AheadBehindCount) (marks : Marks C)
    (s : CountState C) : Prop where
  ok : QueueOk dag s.walk
  starts : ∀ c ∈ commits, (c, .parent2) ∈ s.walk.marks
  reached : ∀ c, (c, .parent2) ∈ s.walk.marks → ReachedFrom dag commits c
  parents : ∀ c, Popped s.walk c → ∀ p ∈ dag.parents c, (p, .parent2) ∈ s.walk.marks
  sound : ∀ c, ∀ i ∈ s.bitArrays c, ReachesIndex dag commits i c
  bits : ∀ c, ¬ Popped s.walk c → ∀ i,
    (commits[i]? = some c ∨ ∃ d, c ∈ dag.parents d ∧ Popped s.walk d ∧ ReachesIndex dag commits i d) → i ∈ s.bitArrays c
  stale : ∀ c, (c, .stale) ∈ s.walk.marks → ∀ i < commits.length, ReachesIndex dag commits i c
  other : ∀ c m, m ≠ Mark.parent2 → m ≠ .stale → ((c, m) ∈ s.walk.marks ↔ (c, m) ∈ marks)
  counts : s.counts = counts.map (tally dag commits (Popped s.walk))

variable {counts : List AheadBehindCount} {marks : Marks C} {s s' : CountState C}

lemma CountInv.exists_queued (h : CountInv dag commits counts marks s) {c : C} (hc : ReachedFrom dag commits c)
    (hno : ¬ Popped s.walk c) : ∃ e ∈ s.walk.queue, Reaches dag e c := by
  obtain ⟨start, hstart, hreach⟩ := hc
  have hput := h.starts start hstart
  clear hstart
  induction hreach using Relation.ReflTransGen.head_induction_on with
  | refl =>
    by_contra hno'
    exact hno ⟨hput, fun hin => hno' ⟨c, hin, .refl⟩⟩
  | @head d p hp hrest ih =>
    by_cases hd : d ∈ s.walk.queue
    · exact ⟨d, hd, .head hp hrest⟩
    · exact ih (h.parents d ⟨hput, hd⟩ p hp)

lemma CountInv.popped_child (h : CountInv dag commits counts marks s)
    (hfinite : ∀ c, dag.generation c < generationNumberInfinity) {c d : C} {queue : List C}
    (hqueue : s.walk.queue = c :: queue) (hd : ReachedFrom dag commits d) (hp : c ∈ dag.parents d) : Popped s.walk d := by
  by_contra hno
  obtain ⟨e, he, hreach⟩ := h.exists_queued hd hno
  have hlt : dag.generation c < dag.generation e :=
    (dag.generation_lt d c hp (hfinite d)).trans_le (generation_le_of_reaches hreach)
  have hsorted := h.ok.sorted
  rw [hqueue] at he hsorted
  obtain rfl | he := List.mem_cons.mp he
  · exact hlt.false
  · have hle := compareByGen_iff.mp ((List.pairwise_cons.mp hsorted).1 e he)
    omega

lemma CountInv.bits_first (h : CountInv dag commits counts marks s)
    (hfinite : ∀ c, dag.generation c < generationNumberInfinity) {c : C} {queue : List C}
    (hqueue : s.walk.queue = c :: queue) (i : Nat) : i ∈ s.bitArrays c ↔ ReachesIndex dag commits i c := by
  have hno : ¬ Popped s.walk c := fun hpop => hpop.2 (hqueue ▸ List.mem_cons_self ..)
  refine ⟨h.sound c i, fun hi => h.bits c hno i ?_⟩
  refine (reachesIndex_iff.mp hi).imp_right fun ⟨d, hp, hd⟩ => ?_
  exact ⟨d, hp, h.popped_child hfinite hqueue (reachedFrom_iff.mpr ⟨i, hd⟩) hp, hd⟩

omit [DecidableEq C] in
open Classical in
lemma ncard_add_one [Finite C] {P P' : C → Prop} {c : C} (hc : ¬ P c) (hP : ∀ d, P' d ↔ P d ∨ d = c) (Q : C → Prop) :
    {d | P' d ∧ Q d}.ncard = {d | P d ∧ Q d}.ncard + if Q c then 1 else 0 := by
  split_ifs with hQ
  · have hset : {d | P' d ∧ Q d} = insert c {d | P d ∧ Q d} := by
      ext d
      simp only [Set.mem_ofPred_eq, Set.mem_insert_iff, hP]
      constructor
      · rintro ⟨hd | rfl, hq⟩
        · exact .inr ⟨hd, hq⟩
        · exact .inl rfl
      · rintro (rfl | ⟨hd, hq⟩)
        · exact ⟨.inr rfl, hQ⟩
        · exact ⟨.inl hd, hq⟩
    rw [hset, Set.ncard_insert_of_notMem fun hin => hc hin.1]
  · have hset : {d | P' d ∧ Q d} = {d | P d ∧ Q d} := by
      ext d
      simp only [Set.mem_ofPred_eq, hP]
      refine ⟨fun ⟨hd, hq⟩ => ⟨hd.resolve_right ?_, hq⟩, fun ⟨hd, hq⟩ => ⟨.inl hd, hq⟩⟩
      rintro rfl
      exact hQ hq
    rw [hset, add_zero]

omit [DecidableEq C] in
lemma countCommit_tally [Finite C] {P P' : C → Prop} {c : C} {bitmap : Finset Nat}
    (hbits : ∀ i, i ∈ bitmap ↔ ReachesIndex dag commits i c) (hc : ¬ P c) (hP : ∀ d, P' d ↔ P d ∨ d = c)
    (count : AheadBehindCount) : countCommit bitmap (tally dag commits P count) = tally dag commits P' count := by
  simp only [countCommit, tally, ncard_add_one hc hP, ← hbits]
  by_cases htip : count.tipIndex ∈ bitmap <;> by_cases hbase : count.baseIndex ∈ bitmap <;> simp [htip, hbase]

lemma CountInv.step [Finite C] (h : CountInv dag commits counts marks s)
    (hfinite : ∀ c, dag.generation c < generationNumberInfinity) {c : C} {queue : List C}
    (hqueue : s.walk.queue = c :: queue) :
    CountInv dag commits counts marks (countStepCommit dag commits.length s c queue) := by
  have hbits := h.bits_first hfinite hqueue
  have hcput : (c, Mark.parent2) ∈ s.walk.marks := h.ok.queued c (hqueue ▸ List.mem_cons_self ..)
  have hnodup := h.ok.nodup
  rw [hqueue, List.nodup_cons] at hnodup
  have hvisit := @foldl_visitParent _ dag _ commits.length (s.bitArrays c) (dag.parents c)
    { s with walk := nonstaleQueueGet s.walk c queue, counts := s.counts.map (countCommit (s.bitArrays c)) }
  rw [countStepCommit]
  set s₁ := List.foldl (visitParent dag commits.length (s.bitArrays c)) _ (dag.parents c)
  have hput : ∀ d, (d, Mark.parent2) ∈ s₁.walk.marks ↔ (d, Mark.parent2) ∈ s.walk.marks ∨ d ∈ dag.parents c := hvisit.put
  have hin : ∀ d, d ∈ s₁.walk.queue ↔ d ∈ queue ∨ (d ∈ dag.parents c ∧ (d, Mark.parent2) ∉ s.walk.marks) := hvisit.queue
  have hpopped : ∀ d, Popped s₁.walk d ↔ Popped s.walk d ∨ d = c := by
    intro d
    simp only [Popped, hput, hin, hqueue, List.mem_cons]
    by_cases hd : d = c
    · subst hd
      simp [hcput, hnodup.1]
    · simp only [hd, or_false, false_or]
      tauto
  have hnot : ¬ Popped s.walk c := fun hpop => hpop.2 (hqueue ▸ List.mem_cons_self ..)
  have hsound : ∀ d, ∀ i ∈ s.bitArrays d ∪ s.bitArrays c, d ∈ dag.parents c → ReachesIndex dag commits i d := by
    intro d i hi hd
    obtain hi | hi := Finset.mem_union.mp hi
    · exact h.sound d i hi
    · exact ((hbits i).mp hi).trans (.single hd)
  have hfreed : ∀ d, d ≠ c → Function.update s₁.bitArrays c ∅ d =
      if d ∈ dag.parents c then s.bitArrays d ∪ s.bitArrays c else s.bitArrays d := by
    intro d hd
    rw [Function.update_of_ne hd]
    exact hvisit.bits d
  constructor
  case ok => exact hvisit.ok (h.ok.get hqueue)
  case starts => exact fun d hd => (hput d).mpr (.inl (h.starts d hd))
  case reached =>
    intro d hd
    obtain hd | hd := (hput d).mp hd
    · exact h.reached d hd
    · exact (h.reached c hcput).parent hd
  case parents =>
    intro d hd p hp
    rw [hput]
    obtain hd | rfl := (hpopped d).mp hd
    · exact .inl (h.parents d hd p hp)
    · exact .inr hp
  case sound =>
    intro d i hi
    by_cases hd : d = c
    · subst hd
      simp at hi
    · simp only [hfreed d hd] at hi
      split_ifs at hi with hpar
      · exact hsound d i hi hpar
      · exact h.sound d i hi
  case bits =>
    intro d hd i hi
    rw [hpopped, not_or] at hd
    simp only [hfreed d hd.2]
    have hold : (commits[i]? = some d ∨ ∃ e, d ∈ dag.parents e ∧ Popped s.walk e ∧ ReachesIndex dag commits i e) →
        i ∈ s.bitArrays d := h.bits d hd.1 i
    obtain hi | ⟨e, hpar, he, hreach⟩ := hi
    · split_ifs
      · exact Finset.mem_union_left _ (hold (.inl hi))
      · exact hold (.inl hi)
    · obtain he | rfl := (hpopped e).mp he
      · split_ifs
        · exact Finset.mem_union_left _ (hold (.inr ⟨e, hpar, he, hreach⟩))
        · exact hold (.inr ⟨e, hpar, he, hreach⟩)
      · rw [if_pos hpar]
        exact Finset.mem_union_right _ ((hbits i).mpr hreach)
  case stale =>
    intro d hd i hi
    obtain hd | ⟨hpar, hcard⟩ := hvisit.stale d hd
    · exact h.stale d hd i hi
    · have hsub : s.bitArrays d ∪ s.bitArrays c ⊆ Finset.range commits.length :=
        fun j hj => Finset.mem_range.mpr (hsound d j hj hpar).lt
      have heq := Finset.eq_of_subset_of_card_le hsub (by rw [hcard, Finset.card_range])
      exact hsound d i (heq ▸ Finset.mem_range.mpr hi) hpar
  case other => exact fun d m hm hstale => (hvisit.other d m hm hstale).trans (h.other d m hm hstale)
  case counts =>
    refine hvisit.counts.trans ?_
    rw [h.counts, List.map_map]
    exact List.map_congr_left fun count _ => countCommit_tally hbits hnot hpopped count

lemma CountInv.tally_eq (h : CountInv dag commits counts marks s) (hmax : s.walk.maxNonstale = none)
    {count : AheadBehindCount} (htip : count.tipIndex < commits.length) (hbase : count.baseIndex < commits.length) :
    tally dag commits (Popped s.walk) count = tally dag commits (fun _ => True) count := by
  have hbounded := h.ok.bounded
  rw [hmax] at hbounded
  -- one that was not taken is reached from all starting commits
  have hrest : ∀ i j c, j < commits.length → (Popped s.walk c ∧ ReachesIndex dag commits i c ∧ ¬ ReachesIndex dag commits j c ↔
      True ∧ ReachesIndex dag commits i c ∧ ¬ ReachesIndex dag commits j c) := by
    intro i j c hj
    refine and_congr_left fun ⟨hi, hno⟩ => iff_true_intro ?_
    by_contra hpop
    obtain ⟨e, he, hreach⟩ := h.exists_queued (reachedFrom_iff.mpr ⟨i, hi⟩) hpop
    exact hno ((h.stale e (hbounded e he) j hj).trans hreach)
  simp only [tally, hrest _ _ _ htip, hrest _ _ _ hbase]

lemma countInv_start (hmarks : ∀ c, (c, Mark.parent2) ∉ marks ∧ (c, Mark.stale) ∉ marks) :
    CountInv dag commits counts marks (countStart dag commits counts marks) := by
  have hstart := @foldl_startCommit _ dag _ commits.zipIdx
    ⟨⟨marks, [], none, 0, []⟩, fun _ => ∅, counts.map (fun count => { count with ahead := 0, behind := 0 })⟩
  rw [countStart]
  set s₁ := List.foldl (startCommit dag) _ commits.zipIdx
  have hindex : ∀ c, (∃ i, (c, i) ∈ commits.zipIdx) ↔ c ∈ commits := by
    intro c
    rw [List.mem_iff_getElem?]
    exact exists_congr fun i => List.mk_mem_zipIdx_iff_getElem?
  have hput : ∀ c, (c, Mark.parent2) ∈ s₁.walk.marks ↔ c ∈ commits := by
    intro c
    rw [hstart.put, hindex]
    simp [(hmarks c).1]
  have hpopped : ∀ c, ¬ Popped s₁.walk c := by
    intro c hpop
    refine hpop.2 ((hstart.queue c).mpr (.inr ⟨(hindex c).mpr ((hput c).mp hpop.1), ?_⟩))
    exact (hmarks c).1
  have hbits : ∀ c i, i ∈ s₁.bitArrays c ↔ commits[i]? = some c := by
    intro c i
    rw [hstart.bits, List.mk_mem_zipIdx_iff_getElem?]
    simp
  constructor
  case ok => exact hstart.ok ⟨.nil, .nil, by simp [Bounded], by simp⟩
  case starts => exact fun c hc => (hput c).mpr hc
  case reached => exact fun c hc => .self ((hput c).mp hc)
  case parents => exact fun c hc => absurd hc (hpopped c)
  case sound => exact fun c i hi => ⟨c, (hbits c i).mp hi, .refl⟩
  case bits =>
    rintro c - i (hi | ⟨d, -, hd, -⟩)
    · exact (hbits c i).mpr hi
    · exact absurd hd (hpopped d)
  case stale =>
    intro c hc
    exact absurd ((hstart.other c .stale (by decide)).mp hc) (hmarks c).2
  case other => exact fun c m hm _ => hstart.other c m hm
  case counts =>
    refine hstart.counts.trans (List.map_congr_left fun count _ => ?_)
    simp [tally, hpopped]

omit [DecidableEq C] in
lemma CountInv.cleared (h : CountInv dag commits counts marks s)
    (hmarks : ∀ c, (c, Mark.parent2) ∉ marks ∧ (c, Mark.stale) ∉ marks) :
    s.walk.marks.filter (fun x => x.2 ≠ .parent2 ∧ x.2 ≠ .stale) = marks := by
  ext ⟨c, m⟩
  rw [Finset.mem_filter]
  constructor
  · rintro ⟨hin, hm, hstale⟩
    exact (h.other c m hm hstale).mp hin
  · intro hin
    have hm : m ≠ .parent2 := by
      rintro rfl
      exact (hmarks c).1 hin
    have hstale : m ≠ .stale := by
      rintro rfl
      exact (hmarks c).2 hin
    exact ⟨(h.other c m hm hstale).mpr hin, hm, hstale⟩

/-- `ahead_behind` counts the commits that are reached from one of the two starting commits only, for
all pairs of indices, and leaves the flags as they were. -/
theorem aheadBehind_counts [Fintype C] (dag : CommitDag C) (hfinite : ∀ c, dag.generation c < generationNumberInfinity)
    (marks : Marks C) (hmarks : ∀ c, (c, Mark.parent2) ∉ marks ∧ (c, Mark.stale) ∉ marks) (commits : List C)
    (counts : List AheadBehindCount)
    (hcounts : ∀ count ∈ counts, count.tipIndex < commits.length ∧ count.baseIndex < commits.length) :
    aheadBehind dag marks commits counts = some (marks, counts.map fun count =>
      { count with
        ahead := {c | ReachesIndex dag commits count.tipIndex c ∧ ¬ ReachesIndex dag commits count.baseIndex c}.ncard
        behind := {c | ReachesIndex dag commits count.baseIndex c ∧
          ¬ ReachesIndex dag commits count.tipIndex c}.ncard }) := by
  unfold aheadBehind
  split_ifs with hempty
  · obtain rfl : counts = [] := by
      obtain rfl | rfl := hempty
      · exact List.eq_nil_iff_forall_not_mem.mpr fun count hin => absurd (hcounts count hin).1 (by simp)
      · rfl
    rfl
  · refine loop_inv (countStep dag commits.length) countSize (fun _ _ => countSize_step)
      (CountInv dag commits counts marks) (fun r => r.map _ = _) (fun s s' h hs => ?_) (fun s r h hs => ?_)
      (countInv_start hmarks)
    · unfold countStep at hs
      split at hs
      · cases hs
      · cases hs
      · rename_i hqueue
        obtain rfl := Sum.inl.inj hs
        exact h.step hfinite hqueue
    · unfold countStep at hs
      split at hs
      · rename_i hmax
        obtain rfl := Sum.inr.inj hs
        rw [Option.map_some, h.cleared hmarks, h.counts]
        refine congrArg (fun counts => some (marks, counts)) (List.map_congr_left fun count hin => ?_)
        rw [h.tally_eq hmax (hcounts count hin).1 (hcounts count hin).2]
        simp only [tally, true_and]
      · rename_i bound hmax hqueue
        -- the bound stands in the queue
        obtain ⟨before, after, hsplit, -⟩ := hmax ▸ h.ok.bounded
        rw [hqueue] at hsplit
        simp at hsplit
      · cases hs

theorem aheadBehind_counts_skewed :
    aheadBehind skewedDag ∅ [2, 3, 2] [⟨0, 1, 7, 7⟩, ⟨2, 0, 0, 0⟩] =
      some (∅, ([⟨0, 1, 7, 7⟩, ⟨2, 0, 0, 0⟩] : List AheadBehindCount).map fun count =>
        { count with
          ahead := {c | ReachesIndex skewedDag [2, 3, 2] count.tipIndex c ∧
            ¬ ReachesIndex skewedDag [2, 3, 2] count.baseIndex c}.ncard
          behind := {c | ReachesIndex skewedDag [2, 3, 2] count.baseIndex c ∧
            ¬ ReachesIndex skewedDag [2, 3, 2] count.tipIndex c}.ncard }) :=
  aheadBehind_counts skewedDag (fun c => by fin_cases c <;> simp [skewedDag, generationNumberInfinity]) ∅ (by simp)
    [2, 3, 2] [⟨0, 1, 7, 7⟩, ⟨2, 0, 0, 0⟩] (by simp)

end GitCore.Reach
