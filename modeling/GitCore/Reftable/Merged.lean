import GitCore.Lib.Heap
import GitCore.Reftable.Record

/-!
# The merged iterator

`merged.c` and `pq.c` over the records of one type. A table iterator is the sorted list of
the table's records with what it has not returned yet; its seek skips the records before the
wanted key.
-/

namespace GitCore.Reftable

variable {R : Type} (vt : RecordVtable R)

structure PqEntry (R : Type) where
  index : Nat
  record : R

def pqLess (a b : PqEntry R) : Bool :=
  if vt.cmp a.record b.record = 0 then a.index > b.index else vt.cmp a.record b.record < 0

/-- A table iterator: all records of the table, and those it has not returned yet. -/
structure SubIter (R : Type) where
  records : List R
  rest : List R

structure MergedIter (R : Type) where
  subiters : List (SubIter R)
  pq : Array (PqEntry R)
  suppressDeletions : Bool
  advanceIndex : Option Nat

def MergedIter.remaining (mi : MergedIter R) : Nat :=
  mi.pq.size + (mi.subiters.map (·.rest.length)).sum

def mergedIterAdvanceSubiter (mi : MergedIter R) (idx : Nat) : MergedIter R :=
  match mi.subiters[idx]? with
  | some ⟨records, rec :: rest⟩ =>
    { mi with
      subiters := mi.subiters.set idx ⟨records, rest⟩
      pq := Heap.add (pqLess vt) mi.pq ⟨idx, rec⟩ }
  | _ => mi

def mergedIterSeekSubiter (want : List UInt8) (mi : MergedIter R) (idx : Nat) : MergedIter R :=
  mergedIterAdvanceSubiter vt
    { mi with subiters := mi.subiters.modify idx (fun sub =>
        { sub with rest := sub.records.dropWhile (fun rec => vt.key rec < want) }) } idx

def mergedIterSeek (mi : MergedIter R) (want : List UInt8) : MergedIter R :=
  (List.range mi.subiters.length).foldl (mergedIterSeekSubiter vt want)
    { mi with advanceIndex := none, pq := #[] }

lemma sum_rest_set {subiters : List (SubIter R)} {idx : Nat} {records rest : List R} {rec : R}
    (h : subiters[idx]? = some ⟨records, rec :: rest⟩) :
    ((subiters.set idx ⟨records, rest⟩).map (·.rest.length)).sum + 1 =
      (subiters.map (·.rest.length)).sum := by
  induction subiters generalizing idx with
  | nil => simp at h
  | cons sub subiters ih =>
    cases idx with
    | zero =>
      obtain rfl : sub = ⟨records, rec :: rest⟩ := by simpa using h
      simp only [List.set_cons_zero, List.map_cons, List.sum_cons, List.length_cons]
      omega
    | succ idx =>
      have := @ih idx (by simpa using h)
      simp only [List.set_cons_succ, List.map_cons, List.sum_cons]
      omega

lemma size_heapAdd (less : PqEntry R → PqEntry R → Bool) (pq : Array (PqEntry R)) (e : PqEntry R) :
    (Heap.add less pq e).size = pq.size + 1 := by
  rw [(Heap.add_perm pq e).size_eq, Array.size_push]

lemma size_heapRemove (less : PqEntry R → PqEntry R → Bool) {pq : Array (PqEntry R)} (h : 0 < pq.size) :
    (Heap.remove less pq).size + 1 = pq.size := by
  have := (@Heap.remove_perm _ less pq h).length_eq
  simpa using this.symm

lemma remaining_advanceSubiter (mi : MergedIter R) (idx : Nat) :
    (mergedIterAdvanceSubiter vt mi idx).remaining = mi.remaining := by
  unfold mergedIterAdvanceSubiter MergedIter.remaining
  split
  · next h =>
    have := sum_rest_set h
    simp only [size_heapAdd]
    omega
  · rfl

/-- The loop of `merged_iter_next_entry` that drops the entries shadowed by `entry`. -/
def mergedIterDropShadowed (entry : PqEntry R) (mi : MergedIter R) : MergedIter R :=
  if h : 0 < mi.pq.size then
    let top := mi.pq[0]
    if vt.cmp top.record entry.record > 0 then mi
    else
      mergedIterDropShadowed entry
        (mergedIterAdvanceSubiter vt { mi with pq := Heap.remove (pqLess vt) mi.pq } top.index)
  else mi
termination_by mi.remaining
decreasing_by
  rw [remaining_advanceSubiter]
  have := size_heapRemove (pqLess vt) h
  simp only [MergedIter.remaining]
  omega

/-- The end of `merged_iter_next_entry`, for a queue that is not empty. -/
def mergedIterTakeTop (mi : MergedIter R) (h : 0 < mi.pq.size) : R × MergedIter R :=
  let entry := mi.pq[0]
  let mi := mergedIterDropShadowed vt entry { mi with pq := Heap.remove (pqLess vt) mi.pq }
  (entry.record, { mi with advanceIndex := some entry.index })

def mergedIterNextEntry (mi : MergedIter R) : Option (R × MergedIter R) :=
  match mi.advanceIndex with
  | some idx =>
    if mi.pq.size = 0 then
      -- only one subiter is left, its entries are in the correct order already
      match mi.subiters[idx]? with
      | some ⟨records, rec :: rest⟩ =>
        some (rec, { mi with subiters := mi.subiters.set idx ⟨records, rest⟩ })
      | _ => none
    else
      let mi := { mergedIterAdvanceSubiter vt mi idx with advanceIndex := none }
      if h : 0 < mi.pq.size then some (mergedIterTakeTop vt mi h) else none
  | none => if h : 0 < mi.pq.size then some (mergedIterTakeTop vt mi h) else none

lemma remaining_dropShadowed (entry : PqEntry R) (mi : MergedIter R) :
    (mergedIterDropShadowed vt entry mi).remaining ≤ mi.remaining := by
  induction mi using mergedIterDropShadowed.induct vt entry with
  | case1 mi h top hlt =>
    rw [mergedIterDropShadowed, dif_pos h]
    simp only [top] at hlt
    rw [if_pos hlt]
  | case2 mi h top hle ih =>
    rw [mergedIterDropShadowed, dif_pos h]
    simp only [top] at hle ih
    rw [if_neg hle]
    refine ih.trans ?_
    rw [remaining_advanceSubiter]
    have := size_heapRemove (pqLess vt) h
    simp only [MergedIter.remaining]
    omega
  | case3 mi h => rw [mergedIterDropShadowed, dif_neg h]

lemma remaining_takeTop (mi : MergedIter R) (h : 0 < mi.pq.size) :
    (mergedIterTakeTop vt mi h).2.remaining < mi.remaining := by
  have hdrop := remaining_dropShadowed vt mi.pq[0] { mi with pq := Heap.remove (pqLess vt) mi.pq }
  have hsize := size_heapRemove (pqLess vt) h
  simp only [MergedIter.remaining, mergedIterTakeTop] at *
  omega

lemma remaining_nextEntry {mi mi' : MergedIter R} {rec : R}
    (h : mergedIterNextEntry vt mi = some (rec, mi')) : mi'.remaining < mi.remaining := by
  unfold mergedIterNextEntry at h
  split at h
  · next idx _ =>
    split at h
    · split at h
      · next hget =>
        simp only [Option.some.injEq, Prod.mk.injEq] at h
        obtain ⟨-, rfl⟩ := h
        have := sum_rest_set hget
        simp only [MergedIter.remaining]
        omega
      · cases h
    · dsimp only at h
      split at h
      · next hpos =>
        rw [Option.some.injEq] at h
        have hlt := remaining_takeTop vt { mergedIterAdvanceSubiter vt mi idx with advanceIndex := none } hpos
        have hadv := remaining_advanceSubiter vt mi idx
        rw [h] at hlt
        exact hlt.trans_eq hadv
      · cases h
  · split at h
    · next hpos =>
      rw [Option.some.injEq] at h
      have := remaining_takeTop vt _ hpos
      rw [h] at this
      exact this
    · cases h

def mergedIterNext (mi : MergedIter R) : Option (R × MergedIter R) :=
  match _h : mergedIterNextEntry vt mi with
  | none => none
  | some (rec, mi') =>
    if mi'.suppressDeletions ∧ vt.isDeletion rec then mergedIterNext mi' else some (rec, mi')
termination_by mi.remaining
decreasing_by exact remaining_nextEntry vt _h

def mergedTableInitIter (tables : List (List R)) (suppressDeletions : Bool) : MergedIter R :=
  { subiters := tables.map (fun records => ⟨records, records⟩)
    pq := #[]
    suppressDeletions := suppressDeletions
    advanceIndex := none }

lemma remaining_next {mi mi' : MergedIter R} {rec : R}
    (h : mergedIterNext vt mi = some (rec, mi')) : mi'.remaining < mi.remaining := by
  induction mi using mergedIterNext.induct vt with
  | case1 mi hnone =>
    rw [mergedIterNext] at h
    split at h
    · cases h
    · next heq => rw [hnone] at heq; cases heq
  | case2 mi rec' mi'' hsome hdel ih =>
    rw [mergedIterNext] at h
    split at h
    · cases h
    · next heq =>
      rw [hsome] at heq
      cases heq
      rw [if_pos hdel] at h
      exact (ih h).trans (remaining_nextEntry vt hsome)
  | case3 mi rec' mi'' hsome hdel =>
    rw [mergedIterNext] at h
    split at h
    · cases h
    · next heq =>
      rw [hsome] at heq
      cases heq
      rw [if_neg hdel] at h
      cases h
      exact remaining_nextEntry vt hsome

def mergedIterDrain (mi : MergedIter R) : List R :=
  match _h : mergedIterNext vt mi with
  | none => []
  | some (rec, mi') => rec :: mergedIterDrain mi'
termination_by mi.remaining
decreasing_by exact remaining_next vt _h

/-- A lookup: the first record from `want` on, if it has the wanted key. -/
def mergedLookup (tables : List (List R)) (want : List UInt8) : Option R :=
  match mergedIterNext vt (mergedIterSeek vt (mergedTableInitIter tables true) want) with
  | some (rec, _) => if vt.key rec = want then some rec else none
  | none => none

end GitCore.Reftable
