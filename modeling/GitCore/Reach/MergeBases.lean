import GitCore.Reach.Colours

/-!
# Merge bases

`merge_bases_many`, the two forms of `remove_redundant` and `get_merge_bases_many_0` of
`commit-reach.c`. `none` stands for a run that ends in a `BUG`.
-/

namespace GitCore.Reach

variable {C : Type} [DecidableEq C] [Fintype C] (dag : CommitDag C)

def mergeBasesMany (correctedCommitDatesEnabled : Bool) (marks : Marks C) (one : C) (twos : List C)
    (findAll : Bool) : Option (Marks C × List C) :=
  if one ∈ twos then some (marks, [one])
  else
    match paintDownToCommon dag correctedCommitDatesEnabled marks one twos 0 findAll with
    | .bug => none
    | .done marks list =>
      some (marks, commitListSortByDate dag (list.filter (fun c => (c, .stale) ∉ marks)))

/-- One round of `remove_redundant_no_gen`, with the marks and the indices that are redundant. -/
def noGenRound (correctedCommitDatesEnabled : Bool) (array : List C)
    (s : Marks C × Finset (Fin array.length)) (i : Fin array.length) :
    Option (Marks C × Finset (Fin array.length)) :=
  if i ∈ s.2 then some s
  else
    let filledIndex := (List.finRange array.length).filter (fun j => j ≠ i ∧ j ∉ s.2)
    let work := filledIndex.map array.get
    let minGeneration := work.foldl (fun g c => min g (dag.generation c)) (dag.generation (array.get i))
    match paintDownToCommon dag correctedCommitDatesEnabled s.1 (array.get i) work minGeneration true with
    | .bug => none
    | .done marks _ =>
      let redundant := if (array.get i, .parent2) ∈ marks then insert i s.2 else s.2
      some (clearCommitMarksMany dag allFlags marks (array.get i :: work),
        redundant ∪ (filledIndex.filter (fun j => (array.get j, .parent1) ∈ marks)).toFinset)

def removeRedundantNoGen (correctedCommitDatesEnabled : Bool) (marks : Marks C) (array : List C) :
    Option (Marks C × List C) :=
  ((List.finRange array.length).foldlM (noGenRound dag correctedCommitDatesEnabled array) (marks, ∅)).map
    fun s => (s.1, ((List.finRange array.length).filter (fun i => i ∉ s.2)).map array.get)

def compareCommitsByGen (a b : C) : Prop :=
  dag.generation a < dag.generation b ∨ (dag.generation a = dag.generation b ∧ dag.date a ≤ dag.date b)

omit [DecidableEq C] [Fintype C] in
instance decidableCompareCommitsByGen : DecidableRel (compareCommitsByGen dag) :=
  fun _ _ => inferInstanceAs (Decidable (_ ∨ _))

/-- The walk of `remove_redundant_with_gen`. `sorted` is the part from `min_gen_pos` on. -/
structure RedundantWalk (C : Type) where
  marks : Marks C
  stack : List C
  countStillIndependent : Nat
  sorted : List C
  minGeneration : Nat

/-- The parents of one commit of the array are marked and put in `walk_start`. -/
def markParents (s : Marks C × List C) (parents : List C) : Marks C × List C :=
  parents.foldl (fun s p => if (p, .stale) ∈ s.1 then s else (insert (p, .stale) s.1, s.2 ++ [p])) s

/-- `RESULT` for the commits of the array, `STALE` for their parents. -/
def markArray (marks : Marks C) (array : List C) : Marks C × List C :=
  array.foldl (fun s c => markParents (insert (c, .result) s.1, s.2) (dag.parents c)) (marks, [])

/-- `min_gen_pos` is moved behind the stale commits, but stays in the array. -/
def skipStale (marks : Marks C) : List C → List C
  | c :: next :: sorted => if (c, .stale) ∈ marks then skipStale marks (next :: sorted) else c :: next :: sorted
  | sorted => sorted

def dropResult (s : RedundantWalk C) (c : C) : RedundantWalk C :=
  { s with
    marks := s.marks.erase (c, .result)
    countStillIndependent := s.countStillIndependent - 1 }

/-- The lowest generation is raised when `c` is the commit at `min_gen_pos`. -/
def raiseMinGeneration (s : RedundantWalk C) (c : C) : RedundantWalk C :=
  if s.sorted.head? = some c then
    let sorted := skipStale s.marks s.sorted
    { s with sorted := sorted, minGeneration := (sorted.head?.map dag.generation).getD s.minGeneration }
  else s

/-- The first parent that is not stale is put on the stack; if there is none, the top is popped. -/
def walkParents (s : RedundantWalk C) (c : C) (stack : List C) : RedundantWalk C :=
  if dag.generation c < s.minGeneration then { s with stack := stack }
  else
    match (dag.parents c).find? (fun p => (p, .stale) ∉ s.marks) with
    | none => { s with stack := stack }
    | some p => { s with marks := insert (p, .stale) s.marks, stack := p :: c :: stack }

def redundantStep (s : RedundantWalk C) : RedundantWalk C ⊕ RedundantWalk C :=
  match s.stack with
  | [] => .inr s
  | c :: stack =>
    if (c, .result) ∈ s.marks then
      let s := dropResult s c
      if s.countStillIndependent ≤ 1 then .inr { s with stack := [] }
      else .inl (walkParents dag (raiseMinGeneration dag s c) c stack)
    else .inl (walkParents dag s c stack)

def nonstale (marks : Marks C) : Nat :=
  ({c | (c, Mark.stale) ∉ marks} : Finset C).card

def redundantSize (s : RedundantWalk C) : Nat :=
  2 * nonstale s.marks + s.stack.length

lemma nonstale_erase (marks : Marks C) (c : C) : nonstale (marks.erase (c, .result)) = nonstale marks := by
  simp [nonstale]

lemma nonstale_insert {marks : Marks C} {p : C} (h : (p, .stale) ∉ marks) :
    nonstale (insert (p, .stale) marks) < nonstale marks := by
  refine Finset.card_lt_card (Finset.ssubset_iff_of_subset (fun c hc => ?_) |>.mpr ⟨p, by simpa using h, by simp⟩)
  simp only [Finset.mem_filter, Finset.mem_univ, true_and, Finset.mem_insert, not_or] at hc ⊢
  exact hc.2

lemma walkParents_size (s : RedundantWalk C) (c : C) (stack : List C) :
    redundantSize (walkParents dag s c stack) < 2 * nonstale s.marks + (c :: stack).length := by
  unfold walkParents
  split_ifs
  · simp [redundantSize]
  · split
    · simp [redundantSize]
    · rename_i p hfind
      have hp : (p, Mark.stale) ∉ s.marks := by simpa using List.find?_some hfind
      have := nonstale_insert hp
      simp only [redundantSize, List.length_cons]
      omega

omit [Fintype C] in
lemma raiseMinGeneration_rest (s : RedundantWalk C) (c : C) :
    (raiseMinGeneration dag s c).marks = s.marks ∧ (raiseMinGeneration dag s c).stack = s.stack ∧
      (raiseMinGeneration dag s c).countStillIndependent = s.countStillIndependent := by
  unfold raiseMinGeneration
  split_ifs <;> simp

lemma redundantStep_size (s s' : RedundantWalk C) (h : redundantStep dag s = .inl s') :
    redundantSize s' < redundantSize s := by
  unfold redundantStep at h
  split at h
  · cases h
  · rename_i c stack hstack
    have hsize : redundantSize s = 2 * nonstale s.marks + (c :: stack).length := by
      rw [redundantSize, hstack]
    rw [hsize]
    dsimp only at h
    split_ifs at h
    · obtain rfl := Sum.inl.inj h
      refine (walkParents_size dag _ c stack).trans_eq ?_
      rw [(raiseMinGeneration_rest dag (dropResult s c) c).1, dropResult, nonstale_erase]
    · obtain rfl := Sum.inl.inj h
      exact walkParents_size dag s c stack

/-- The outer loop of `remove_redundant_with_gen` for one commit of `walk_start`. -/
def walkFrom (s : RedundantWalk C) (start : C) : RedundantWalk C :=
  if 1 < s.countStillIndependent then
    loop (redundantStep dag) redundantSize (redundantStep_size dag)
      { s with marks := insert (start, .stale) s.marks, stack := [start] }
  else s

def removeRedundantWithGen (marks : Marks C) (array : List C) : Option (Marks C × List C) :=
  let sorted := array.insertionSort (compareCommitsByGen dag)
  match sorted with
  | [] => none
  | lowest :: _ =>
    let (marked, starts) := markArray dag marks array
    let walkStart := starts.insertionSort (compareCommitsByGen dag)
    let unmarked := walkStart.foldl (fun marks c => marks.erase (c, .stale)) marked
    let s := walkStart.reverse.foldl (walkFrom dag) ⟨unmarked, [], array.length, sorted, dag.generation lowest⟩
    let cleared := array.foldl (fun marks c => marks.erase (c, .result)) s.marks
    some (clearCommitMarksMany dag [.stale] cleared walkStart, array.filter (fun c => (c, .stale) ∉ cleared))

def removeRedundant (generationNumbersEnabled correctedCommitDatesEnabled : Bool) (marks : Marks C)
    (array : List C) : Option (Marks C × List C) :=
  if generationNumbersEnabled ∧ ∃ c ∈ array, dag.generation c < generationNumberInfinity then
    removeRedundantWithGen dag marks array
  else removeRedundantNoGen dag correctedCommitDatesEnabled marks array

def getMergeBasesMany0 (generationNumbersEnabled correctedCommitDatesEnabled : Bool) (marks : Marks C) (one : C)
    (twos : List C) (cleanup findAll : Bool) : Option (Marks C × List C) :=
  match mergeBasesMany dag correctedCommitDatesEnabled marks one twos findAll with
  | none => none
  | some (marks, result) =>
    if one ∈ twos then some (marks, result)
    else if result.length ≤ 1 then
      some (if cleanup then clearCommitMarksMany dag allFlags marks (one :: twos) else marks, result)
    else
      (removeRedundant dag generationNumbersEnabled correctedCommitDatesEnabled
        (clearCommitMarksMany dag allFlags marks (one :: twos)) result).map
        fun (marks, rslt) => (marks, commitListSortByDate dag rslt)

def repoGetMergeBasesMany (generationNumbersEnabled correctedCommitDatesEnabled : Bool) (marks : Marks C)
    (one : C) (twos : List C) : Option (Marks C × List C) :=
  getMergeBasesMany0 dag generationNumbersEnabled correctedCommitDatesEnabled marks one twos true true

def repoGetMergeBasesManyDirty (generationNumbersEnabled correctedCommitDatesEnabled : Bool) (marks : Marks C)
    (one : C) (twos : List C) (findAll : Bool) : Option (Marks C × List C) :=
  getMergeBasesMany0 dag generationNumbersEnabled correctedCommitDatesEnabled marks one twos false findAll

end GitCore.Reach
