import GitCore.Lib.Heap
import Mathlib.Order.Antisymmetrization
import Mathlib.Data.Prod.Lex

/-!
# Priority queues

`prio-queue.c`: a binary heap of elements with the counter of their insertion, or a stack when there is no comparison.
It is compared with a list in the order of insertion, from which the first of the smallest elements is taken.
-/

namespace GitCore.Queue

variable {α : Type*}

structure PrioQueueEntry (α : Type*) where
  ctr : Nat
  data : α

structure PrioQueue (α : Type*) where
  insertionCtr : Nat
  array : Array (PrioQueueEntry α)

section Heap

variable (cmp : α → α → Int)

def compare (a b : PrioQueueEntry α) : Int :=
  if cmp a.data b.data = 0 then (if a.ctr > b.ctr then 1 else 0) - (if a.ctr < b.ctr then 1 else 0)
  else cmp a.data b.data

/-- The loop of `prio_queue_put`. -/
def bubbleUp (array : Array (PrioQueueEntry α)) (ix : Nat) (hix : ix < array.size) : Array (PrioQueueEntry α) :=
  if 0 < ix then
    if compare cmp array[(ix - 1) / 2] array[ix] ≤ 0 then array
    else bubbleUp (array.swap ((ix - 1) / 2) ix) ((ix - 1) / 2) (by simp only [Array.size_swap]; omega)
  else array
termination_by ix

/-- The child that `sift_down_root` compares with its parent. -/
def childOf (array : Array (PrioQueueEntry α)) (ix : Nat) (hleft : ix * 2 + 1 < array.size) : Fin array.size :=
  if hright : ix * 2 + 1 + 1 < array.size then
    if compare cmp array[ix * 2 + 1] array[ix * 2 + 1 + 1] ≥ 0 then ⟨ix * 2 + 1 + 1, hright⟩ else ⟨ix * 2 + 1, hleft⟩
  else ⟨ix * 2 + 1, hleft⟩

lemma childOf_cases (array : Array (PrioQueueEntry α)) (ix : Nat) (hleft : ix * 2 + 1 < array.size) :
    (childOf cmp array ix hleft).val = ix * 2 + 1 ∨ (childOf cmp array ix hleft).val = ix * 2 + 2 := by
  unfold childOf
  split_ifs <;> simp

def siftDown (array : Array (PrioQueueEntry α)) (ix : Nat) : Array (PrioQueueEntry α) :=
  if hleft : ix * 2 + 1 < array.size then
    if compare cmp array[ix] array[childOf cmp array ix hleft] ≤ 0 then array
    else siftDown (array.swap (childOf cmp array ix hleft) ix) (childOf cmp array ix hleft)
  else array
termination_by array.size - ix
decreasing_by
  have := childOf_cases cmp array ix hleft
  simp only [Array.size_swap]
  omega

def siftDownRoot (array : Array (PrioQueueEntry α)) : Array (PrioQueueEntry α) := siftDown cmp array 0

end Heap

variable (cmp : Option (α → α → Int))

def prioQueuePut (queue : PrioQueue α) (thing : α) : PrioQueue α :=
  let array := queue.array.push ⟨queue.insertionCtr, thing⟩
  match cmp with
  | none => ⟨queue.insertionCtr + 1, array⟩
  | some cmp => ⟨queue.insertionCtr + 1, bubbleUp cmp array queue.array.size (by simp [array])⟩

def prioQueueGet (queue : PrioQueue α) : Option α × PrioQueue α :=
  if hpos : 0 < queue.array.size then
    match cmp with
    | none => (some queue.array[queue.array.size - 1].data, ⟨queue.insertionCtr, queue.array.pop⟩)
    | some cmp =>
      (some queue.array[0].data,
        if queue.array.size = 1 then ⟨queue.insertionCtr, queue.array.pop⟩
        else ⟨queue.insertionCtr, siftDownRoot cmp (queue.array.set 0 queue.array[queue.array.size - 1]).pop⟩)
  else (none, queue)

def prioQueuePeek (queue : PrioQueue α) : Option α :=
  if hpos : 0 < queue.array.size then
    match cmp with
    | none => some queue.array[queue.array.size - 1].data
    | some _ => some queue.array[0].data
  else none

def prioQueueReplace (queue : PrioQueue α) (thing : α) : PrioQueue α :=
  if hpos : 0 < queue.array.size then
    match cmp with
    | none =>
      ⟨queue.insertionCtr + 1, queue.array.set (queue.array.size - 1) ⟨queue.insertionCtr, thing⟩⟩
    | some cmp => ⟨queue.insertionCtr + 1, siftDownRoot cmp (queue.array.set 0 ⟨queue.insertionCtr, thing⟩)⟩
  else prioQueuePut cmp queue thing

inductive Call (α : Type*)
  | put (thing : α)
  | get
  | peek
  | replace (thing : α)

def call (queue : PrioQueue α) : Call α → Option α × PrioQueue α
  | .put thing => (none, prioQueuePut cmp queue thing)
  | .get => prioQueueGet cmp queue
  | .peek => (prioQueuePeek cmp queue, queue)
  | .replace thing => (none, prioQueueReplace cmp queue thing)

def run (queue : PrioQueue α) : List (Call α) → List (Option α) × PrioQueue α
  | [] => ([], queue)
  | c :: calls =>
    let (result, queue) := call cmp queue c
    let (results, queue) := run queue calls
    (result :: results, queue)

/-- Where the next element stands in the order of insertion: the first of the smallest ones, or the last one. -/
def nextIdx (pending : List α) : Nat :=
  match cmp with
  | none => pending.length - 1
  | some cmp => pending.findIdx fun x => pending.all fun y => cmp x y ≤ 0

/-- A call on the elements in the order of insertion; to replace is to get and to put. -/
def pendingCall (pending : List α) : Call α → Option α × List α
  | .put thing => (none, pending ++ [thing])
  | .get => (pending[nextIdx cmp pending]?, pending.eraseIdx (nextIdx cmp pending))
  | .peek => (pending[nextIdx cmp pending]?, pending)
  | .replace thing => (none, pending.eraseIdx (nextIdx cmp pending) ++ [thing])

def pendingRun (pending : List α) : List (Call α) → List (Option α) × List α
  | [] => ([], pending)
  | c :: calls =>
    let (result, pending) := pendingCall cmp pending c
    let (results, pending) := pendingRun pending calls
    (result :: results, pending)

structure IsTotalPreorder (cmp : α → α → Int) : Prop where
  swap : ∀ a b, cmp a b < 0 ↔ 0 < cmp b a
  trans : ∀ a b c, cmp a b ≤ 0 → cmp b c ≤ 0 → cmp a c ≤ 0

section Ranks

variable {cmp : α → α → Int} (h : IsTotalPreorder cmp)

def Keyed (_ : IsTotalPreorder cmp) : Type _ := α

instance : Preorder (Keyed h) where
  le a b := cmp a b ≤ 0
  lt a b := cmp a b < 0
  le_refl a := by
    by_contra hlt
    have := (h.swap a a).mpr (by omega)
    omega
  le_trans := h.trans
  lt_iff_le_not_ge a b := by
    have := h.swap a b
    omega

instance : DecidableLE (Keyed h) := fun a b => inferInstanceAs (Decidable (cmp a b ≤ 0))

instance : DecidableLT (Keyed h) := fun a b => inferInstanceAs (Decidable (cmp a b < 0))

instance : Std.Total (α := Keyed h) (· ≤ ·) where
  total a b := by
    have := h.swap b a
    change cmp a b ≤ 0 ∨ cmp b a ≤ 0
    omega

def rank (e : PrioQueueEntry α) : Antisymmetrization (Keyed h) (· ≤ ·) ×ₗ Nat :=
  toLex (toAntisymmetrization (α := Keyed h) (· ≤ ·) e.data, e.ctr)

lemma rank_lt_iff (a b : PrioQueueEntry α) : rank h a < rank h b ↔ compare cmp a b < 0 := by
  have hlt : toAntisymmetrization (α := Keyed h) (· ≤ ·) a.data < toAntisymmetrization (α := Keyed h) (· ≤ ·) b.data ↔
      cmp a.data b.data < 0 := Iff.rfl
  have heq : toAntisymmetrization (α := Keyed h) (· ≤ ·) a.data = toAntisymmetrization (α := Keyed h) (· ≤ ·) b.data ↔
      cmp a.data b.data = 0 := by
    have hswap := h.swap b.data a.data
    refine Quotient.eq.trans ⟨fun hrel => ?_, fun hzero => ?_⟩
    · have hab : cmp a.data b.data ≤ 0 := hrel.1
      have hba : cmp b.data a.data ≤ 0 := hrel.2
      have := h.swap a.data b.data
      omega
    · have := h.swap a.data b.data
      exact ⟨show cmp a.data b.data ≤ 0 by omega, show cmp b.data a.data ≤ 0 by omega⟩
  rw [rank, rank, Prod.Lex.toLex_lt_toLex, hlt, heq, compare]
  split_ifs <;> omega

lemma data_le_of_rank_le {a b : PrioQueueEntry α} (hle : rank h a ≤ rank h b) : cmp a.data b.data ≤ 0 := by
  have hnot := (rank_lt_iff h b a).not.mp (not_lt.mpr hle)
  have := h.swap b.data a.data
  have := h.swap a.data b.data
  rw [compare] at hnot
  split_ifs at hnot <;> omega

def less (cmp : α → α → Int) (a b : PrioQueueEntry α) : Bool := compare cmp a b < 0

lemma ranked (array : Array (PrioQueueEntry α)) : Heap.Ranked (rank h) (less cmp) array := fun a _ b _ => by
  rw [less, decide_eq_decide, rank_lt_iff]

def Distinct (array : Array (PrioQueueEntry α)) : Prop := (array.toList.map (·.ctr)).Nodup

lemma Distinct.perm {array array' : Array (PrioQueueEntry α)} (hd : Distinct array) (hp : array'.Perm array) :
    Distinct array' :=
  (hp.toList.map _).nodup_iff.mpr hd

variable {array : Array (PrioQueueEntry α)}

lemma Distinct.inj (hd : Distinct array) {i j : Nat} (hi : i < array.size)
    (hj : j < array.size) (heq : array[i].ctr = array[j].ctr) : i = j := by
  have hinj := List.nodup_iff_injective_getElem.mp hd
  have hij := @hinj ⟨i, by simpa using hi⟩ ⟨j, by simpa using hj⟩ (by simpa using heq)
  exact congrArg Fin.val hij

lemma Distinct.compare_le_iff (hd : Distinct array) {i j : Nat}
    (hi : i < array.size) (hj : j < array.size) (hne : i ≠ j) :
    compare cmp array[i] array[j] ≤ 0 ↔ rank h array[i] < rank h array[j] := by
  have hctr : array[i].ctr ≠ array[j].ctr := fun heq => hne (hd.inj hi hj heq)
  rw [rank_lt_iff, compare]
  split_ifs <;> omega

include h in
lemma bubbleUp_eq (array : Array (PrioQueueEntry α)) (ix : Nat) (hix : ix < array.size) (hd : Distinct array) :
    bubbleUp cmp array ix hix = Heap.siftUp (less cmp) array ix hix := by
  induction ix using Nat.strong_induction_on generalizing array with
  | _ ix ih =>
    rw [bubbleUp, Heap.siftUp]
    split_ifs with hpos hle hless hless
    · rfl
    · rw [hd.compare_le_iff h (by omega) hix (by omega), ← (ranked h array).getElem (by omega) hix] at hle
      exact absurd hle hless
    · rw [(ranked h array).getElem (by omega) hix, ← hd.compare_le_iff h (by omega) hix (by omega)] at hless
      exact absurd hless hle
    · have hstep := ih ((ix - 1) / 2) (by omega) (array.swap ix ((ix - 1) / 2)) (by simp only [Array.size_swap]; omega)
        (hd.perm (Array.swap_perm _ _))
      rw [← hstep]
      congr 1
      exact Array.swap_comm _ _
    · rfl

lemma childOf_le (hd : Distinct array) {ix : Nat} (hleft : ix * 2 + 1 < array.size)
    {c : Fin array.size} (hc : childOf cmp array ix hleft = c) {j : Nat} (hj : j < array.size)
    (hchild : j = ix * 2 + 1 ∨ j = ix * 2 + 2) : rank h array[c] ≤ rank h array[j] := by
  unfold childOf at hc
  by_cases hright : ix * 2 + 1 + 1 < array.size
  · rw [dif_pos hright] at hc
    have hlt := hd.compare_le_iff h hleft hright (by omega)
    have hgt := rank_lt_iff h array[ix * 2 + 1] array[ix * 2 + 1 + 1]
    split_ifs at hc with hge <;> subst hc <;> obtain rfl | rfl := hchild
    · exact not_lt.mp fun hless => absurd (hgt.mp hless) (by omega)
    · exact le_rfl
    · exact le_rfl
    · exact (hlt.mp (by omega)).le
  · rw [dif_neg hright] at hc
    subst hc
    obtain rfl | rfl := hchild
    · exact le_rfl
    · omega

lemma Distinct.rank_inj (hd : Distinct array) {i j : Fin array.size}
    (heq : rank h array[i] = rank h array[j]) : i = j :=
  Fin.ext (hd.inj i.isLt j.isLt (congrArg (fun r => (ofLex r).2) heq))

lemma minChild_eq (hd : Distinct array) {ix : Nat} (hix : ix < array.size)
    (hleft : ix * 2 + 1 < array.size) {c : Fin array.size} (hc : childOf cmp array ix hleft = c) :
    (rank h array[ix] < rank h array[c] → (Heap.minChild (less cmp) array ix hix).val = ix) ∧
      (¬rank h array[ix] < rank h array[c] → Heap.minChild (less cmp) array ix hix = c) := by
  obtain ⟨m, hm⟩ : ∃ m, Heap.minChild (less cmp) array ix hix = m := ⟨_, rfl⟩
  have hcases := Heap.minChild_cases (less cmp) array ix hix
  have hchild := childOf_cases cmp array ix hleft
  rw [hc] at hchild
  have hle : rank h array[m] ≤ rank h array[ix] := by
    subst hm
    exact (Heap.minChild_le array ix hix (ranked h array)).1
  have hbelow : rank h array[m] ≤ rank h array[c] := by
    subst hm
    exact (Heap.minChild_le array ix hix (ranked h array)).2 c.val c.isLt (by omega) (by omega)
  rw [hm] at hcases ⊢
  have hleast : m.val ≠ ix → rank h array[c] ≤ rank h array[m] := fun hne => childOf_le h hd hleft hc m.isLt (by omega)
  refine ⟨fun hlt => ?_, fun hge => hd.rank_inj h (le_antisymm hbelow (hleast fun heq => ?_))⟩
  · by_contra hne
    exact absurd ((hleast hne).trans hle) (not_le.mpr hlt)
  · obtain rfl : m = ⟨ix, hix⟩ := Fin.ext heq
    have hsame := congrArg Fin.val (hd.rank_inj h (le_antisymm hbelow (not_lt.mp hge)))
    simp only at hsame
    omega

include h in
lemma siftDown_eq (array : Array (PrioQueueEntry α)) (ix : Nat) (hd : Distinct array) :
    siftDown cmp array ix = Heap.siftDown (less cmp) array ix := by
  induction hn : array.size - ix using Nat.strong_induction_on generalizing array ix with
  | _ n ih =>
    rw [siftDown, Heap.siftDown]
    by_cases hleft : ix * 2 + 1 < array.size
    · have hix : ix < array.size := by omega
      have hchild := childOf_cases cmp array ix hleft
      rw [dif_pos hleft, dif_pos hix]
      have hle := hd.compare_le_iff h hix (childOf cmp array ix hleft).isLt (by omega)
      obtain ⟨hroot, hdown⟩ := minChild_eq h hd hix hleft rfl
      split_ifs with hstop hself hself
      · rfl
      · exact absurd (hroot (hle.mp hstop)) hself
      · rw [hdown fun hlt => hstop (hle.mpr hlt)] at hself
        omega
      · simp only [hdown fun hlt => hstop (hle.mpr hlt)]
        rw [Array.swap_comm, ih _ (by simp only [Array.size_swap]; omega) _ _ (hd.perm (Array.swap_perm _ _)) rfl]
    · rw [dif_neg hleft]
      split_ifs with hix hself
      · rfl
      · have := Heap.minChild_cases (less cmp) array ix hix
        omega
      · rfl

end Ranks

structure Represents (queue : PrioQueue α) (es : List (PrioQueueEntry α)) : Prop where
  sorted : (es.map (·.ctr)).Pairwise (· < ·)
  below : ∀ e ∈ es, e.ctr < queue.insertionCtr
  perm : queue.array.toList.Perm es
  lifo : cmp = none → queue.array.toList = es
  heap : ∀ c, cmp = some c → ∀ h : IsTotalPreorder c, Heap.IsHeap (rank h) queue.array

variable {cmp} {queue : PrioQueue α} {es : List (PrioQueueEntry α)}

lemma Represents.size_eq (hr : Represents cmp queue es) : queue.array.size = es.length := by
  rw [← hr.perm.length_eq, Array.length_toList]

lemma sorted_append {ctr : Nat} (hsorted : (es.map (·.ctr)).Pairwise (· < ·)) (hbelow : ∀ e ∈ es, e.ctr < ctr)
    (thing : α) : ((es ++ [(⟨ctr, thing⟩ : PrioQueueEntry α)]).map (·.ctr)).Pairwise (· < ·) := by
  rw [List.map_append]
  refine List.pairwise_append.mpr ⟨hsorted, List.pairwise_singleton _ _, fun a ha b hb => ?_⟩
  obtain ⟨e, he, rfl⟩ := List.mem_map.mp ha
  rw [List.mem_singleton.mp hb]
  exact hbelow e he

lemma below_append {ctr : Nat} (hbelow : ∀ e ∈ es, e.ctr < ctr) (thing : α) :
    ∀ e ∈ es ++ [(⟨ctr, thing⟩ : PrioQueueEntry α)], e.ctr < ctr + 1 := fun e he => by
  obtain he | he := List.mem_append.mp he
  · exact (hbelow e he).trans (Nat.lt_succ_self _)
  · rw [List.mem_singleton.mp he]
    exact Nat.lt_succ_self _

lemma distinct_of_perm (hsorted : (es.map (·.ctr)).Pairwise (· < ·))
    (hperm : array.toList.Perm es) : Distinct array :=
  (hperm.map _).nodup_iff.mpr (hsorted.imp ne_of_lt)

lemma prioQueuePut_represents (hcmp : ∀ c, cmp = some c → IsTotalPreorder c) (hr : Represents cmp queue es)
    (thing : α) : Represents cmp (prioQueuePut cmp queue thing) (es ++ [⟨queue.insertionCtr, thing⟩]) := by
  have hsorted := sorted_append hr.sorted hr.below thing
  have hpush : (queue.array.push ⟨queue.insertionCtr, thing⟩).toList.Perm (es ++ [⟨queue.insertionCtr, thing⟩]) := by
    rw [Array.toList_push]
    exact hr.perm.append_right _
  cases hc : cmp with
  | none =>
    exact ⟨hsorted, below_append hr.below thing, hpush,
      fun _ => by rw [prioQueuePut, Array.toList_push, hr.lifo hc], fun c h => absurd h (by simp)⟩
  | some c =>
    have h := hcmp c hc
    have hup := bubbleUp_eq h _ queue.array.size (by simp) (distinct_of_perm hsorted hpush)
    refine ⟨hsorted, below_append hr.below thing, ?_, fun h => absurd h (by simp), fun c' hc' h' => ?_⟩
    · rw [prioQueuePut, hup]
      exact (Heap.siftUp_perm _ _ _).toList.trans hpush
    · obtain rfl := Option.some.inj hc'
      rw [prioQueuePut, hup]
      exact Heap.add_isHeap (ranked h _) (hr.heap c hc h)

lemma Represents.next_spec (hcmp : ∀ c, cmp = some c → IsTotalPreorder c) (hr : Represents cmp queue es)
    (hpos : 0 < es.length) : ∃ hlt : nextIdx cmp (es.map (·.data)) < es.length,
      (cmp = none → nextIdx cmp (es.map (·.data)) = es.length - 1) ∧
      ∀ c, cmp = some c → ∀ hsize : 0 < queue.array.size, queue.array[0] = es[nextIdx cmp (es.map (·.data))] := by
  cases hc : cmp with
  | none => exact ⟨by simp [nextIdx, hpos], fun _ => by simp [nextIdx], fun c h => absurd h (by simp)⟩
  | some c =>
    have h := hcmp c hc
    have hsize : 0 < queue.array.size := hr.size_eq ▸ hpos
    obtain ⟨k, hk, hroot⟩ := List.getElem_of_mem (hr.perm.mem_iff.mp (Array.getElem_mem_toList hsize))
    have hleast : ∀ e ∈ es, rank h queue.array[0] ≤ rank h e := fun e he => by
      obtain ⟨i, hi, rfl⟩ := Array.getElem_of_mem (Array.mem_toList_iff.mp (hr.perm.mem_iff.mpr he))
      exact (hr.heap c hc h).root_le i hi
    have hnext : nextIdx (some c) (es.map (·.data)) = k := by
      refine (List.findIdx_eq (by simpa using hk)).mpr ⟨?_, fun j hj => ?_⟩
      · simp only [List.getElem_map, hroot, List.all_map, List.all_eq_true, Function.comp_apply, decide_eq_true_eq]
        exact fun e he => data_le_of_rank_le h (hleast e he)
      · simp only [List.getElem_map, List.all_map]
        by_contra hall
        rw [Bool.not_eq_false, List.all_eq_true] at hall
        have hle := hall es[k] (List.getElem_mem hk)
        have hctr := List.pairwise_iff_getElem.mp hr.sorted j k (by simp; omega) (by simpa using hk) hj
        simp only [Function.comp_apply, decide_eq_true_eq, List.getElem_map] at hle hctr
        have hlt : rank h es[j] < rank h es[k] := by
          rw [rank_lt_iff, compare]
          split_ifs <;> omega
        rw [hroot] at hlt
        exact absurd (hleast es[j] (List.getElem_mem _)) (not_le.mpr hlt)
    subst hnext
    exact ⟨hk, fun h => absurd h (by simp), fun c' hc' _ => hroot.symm⟩

lemma Represents.erase_perm (hr : Represents cmp queue es) {a : PrioQueueEntry α} {rest : List (PrioQueueEntry α)}
    {k : Nat} (hk : k < es.length) (ha : a = es[k]) (hrest : queue.array.toList.Perm (a :: rest)) :
    rest.Perm (es.eraseIdx k) := by
  have hes := (List.getElem_cons_eraseIdx_perm hk).symm
  rw [← ha] at hes
  exact (hrest.symm.trans (hr.perm.trans hes)).cons_inv

lemma sorted_eraseIdx (hsorted : (es.map (·.ctr)).Pairwise (· < ·)) (k : Nat) :
    ((es.eraseIdx k).map (·.ctr)).Pairwise (· < ·) :=
  hsorted.sublist ((List.eraseIdx_sublist es k).map _)

lemma siftDownRoot_last {c : α → α → Int} (h : IsTotalPreorder c) {array : Array (PrioQueueEntry α)}
    (hd : Distinct array) (hpos : 0 < array.size) :
    siftDownRoot c (array.set 0 array[array.size - 1]).pop = Heap.remove (less c) array := by
  have hperm := @Heap.remove_perm _ (less c) array hpos
  rw [Heap.remove, dif_pos hpos] at hperm ⊢
  have hrest := hperm.trans ((Heap.siftDown_perm _ 0).toList.cons _)
  have hnodup : Distinct (array.set 0 array[array.size - 1]).pop :=
    (List.nodup_cons.mp ((hrest.map PrioQueueEntry.ctr).nodup_iff.mp hd)).2
  exact siftDown_eq h _ 0 hnodup

lemma prioQueueGet_represents (hcmp : ∀ c, cmp = some c → IsTotalPreorder c) (hr : Represents cmp queue es) :
    (prioQueueGet cmp queue).1 = (es.map (·.data))[nextIdx cmp (es.map (·.data))]? ∧
      Represents cmp (prioQueueGet cmp queue).2 (es.eraseIdx (nextIdx cmp (es.map (·.data)))) := by
  obtain hzero | hpos := Nat.eq_zero_or_pos es.length
  · have hsize : ¬0 < queue.array.size := by rw [hr.size_eq]; omega
    obtain rfl := List.length_eq_zero_iff.mp hzero
    rw [prioQueueGet, dif_neg hsize]
    exact ⟨rfl, hr⟩
  · have hsize : 0 < queue.array.size := hr.size_eq ▸ hpos
    obtain ⟨hlt, hlast, hroot⟩ := hr.next_spec hcmp hpos
    have hsorted := sorted_eraseIdx hr.sorted (nextIdx cmp (es.map (·.data)))
    have hbelow : ∀ e ∈ es.eraseIdx (nextIdx cmp (es.map (·.data))), e.ctr < queue.insertionCtr :=
      fun e he => hr.below e (List.mem_of_mem_eraseIdx he)
    generalize hk : nextIdx cmp (es.map (·.data)) = k at *
    cases hc : cmp with
    | none =>
      have hlist := hr.lifo hc
      have hpop : queue.array.pop.toList = es.eraseIdx k := by
        rw [Array.toList_pop, hlist, hlast hc, List.eraseIdx_length_sub_one]
      rw [prioQueueGet, dif_pos hsize]
      refine ⟨?_, hsorted, hbelow, hpop ▸ .rfl, fun _ => hpop, fun c h => absurd h (by simp)⟩
      rw [List.getElem?_map, hlast hc, ← hlist, Array.length_toList, Array.getElem?_toList,
        Array.getElem?_eq_getElem (by omega), Option.map_some]
    | some c =>
      have h := hcmp c hc
      have hd := distinct_of_perm hr.sorted hr.perm
      have hget : prioQueueGet (some c) queue =
          (some queue.array[0].data, ⟨queue.insertionCtr, Heap.remove (less c) queue.array⟩) := by
        rw [← siftDownRoot_last h hd hsize, prioQueueGet, dif_pos hsize]
        split_ifs with hone
        · have hpop : (queue.array.set 0 queue.array[queue.array.size - 1]).pop = queue.array.pop := by
            refine Array.ext (by simp) fun i hi _ => ?_
            rw [Array.size_pop, Array.size_set] at hi
            omega
          rw [siftDownRoot, hpop, siftDown, dif_neg (by rw [Array.size_pop]; omega)]
        · rfl
      rw [hget]
      refine ⟨?_, hsorted, hbelow, hr.erase_perm hlt (hroot c hc hsize) (Heap.remove_perm _ hsize),
        fun h => absurd h (by simp), fun c' hc' h' => ?_⟩
      · rw [List.getElem?_map, List.getElem?_eq_getElem hlt, ← hroot c hc hsize, Option.map_some]
      · obtain rfl := Option.some.inj hc'
        exact Heap.remove_isHeap (ranked h _) (hr.heap c hc h)

lemma prioQueueReplace_represents (hcmp : ∀ c, cmp = some c → IsTotalPreorder c) (hr : Represents cmp queue es)
    (thing : α) : Represents cmp (prioQueueReplace cmp queue thing)
      (es.eraseIdx (nextIdx cmp (es.map (·.data))) ++ [⟨queue.insertionCtr, thing⟩]) := by
  obtain hzero | hpos := Nat.eq_zero_or_pos es.length
  · have hsize : ¬0 < queue.array.size := by rw [hr.size_eq]; omega
    have hput := prioQueuePut_represents hcmp hr thing
    obtain rfl := List.length_eq_zero_iff.mp hzero
    rw [prioQueueReplace, dif_neg hsize]
    exact hput
  · have hsize : 0 < queue.array.size := hr.size_eq ▸ hpos
    obtain ⟨hlt, hlast, hroot⟩ := hr.next_spec hcmp hpos
    have hbelow : ∀ e ∈ es.eraseIdx (nextIdx cmp (es.map (·.data))), e.ctr < queue.insertionCtr :=
      fun e he => hr.below e (List.mem_of_mem_eraseIdx he)
    have hsorted := sorted_append (sorted_eraseIdx hr.sorted (nextIdx cmp (es.map (·.data)))) hbelow thing
    generalize hk : nextIdx cmp (es.map (·.data)) = k at *
    cases hc : cmp with
    | none =>
      have hlist := hr.lifo hc
      have hset : (queue.array.set (queue.array.size - 1) ⟨queue.insertionCtr, thing⟩).toList =
          es.eraseIdx k ++ [⟨queue.insertionCtr, thing⟩] := by
        rw [Array.toList_set, hlist, hlast hc, List.eraseIdx_length_sub_one, hr.size_eq,
          List.set_eq_take_append_cons_drop, if_pos (by omega), List.drop_of_length_le (by omega), List.dropLast_eq_take]
      rw [prioQueueReplace, dif_pos hsize]
      exact ⟨hsorted, below_append hbelow thing, hset ▸ .rfl, fun _ => hset, fun c h => absurd h (by simp)⟩
    | some c =>
      have h := hcmp c hc
      have hset : (queue.array.set 0 ⟨queue.insertionCtr, thing⟩).toList.Perm
          (es.eraseIdx k ++ [⟨queue.insertionCtr, thing⟩]) := by
        have hrest := hr.erase_perm hlt (hroot c hc hsize) (List.getElem_cons_eraseIdx_perm hsize).symm
        rw [Array.toList_set]
        exact (List.set_perm_cons_eraseIdx hsize _).trans
          ((hrest.cons _).trans (List.perm_append_singleton _ _).symm)
      rw [prioQueueReplace, dif_pos hsize]
      have hdown := siftDown_eq h _ 0 (distinct_of_perm hsorted hset)
      refine ⟨hsorted, below_append hbelow thing, ?_, fun h => absurd h (by simp), fun c' hc' h' => ?_⟩
      · exact (hdown ▸ (Heap.siftDown_perm _ 0).toList).trans hset
      · obtain rfl := Option.some.inj hc'
        have hheap := hr.heap c hc h
        change Heap.IsHeap (rank h') (siftDown _ _ 0)
        rw [hdown]
        refine Heap.siftDown_isHeap _ 0 (ranked h _) (fun j hj hj0 hp => ?_) fun j hj hp hj0 h0 => absurd h0 (lt_irrefl 0)
        rw [Array.size_set] at hj
        rw [Array.getElem_set_ne (h := Ne.symm hp), Array.getElem_set_ne (h := hj0.ne)]
        exact hheap j hj hj0

lemma call_represents (hcmp : ∀ c, cmp = some c → IsTotalPreorder c) (hr : Represents cmp queue es) (c : Call α) :
    ∃ es', (call cmp queue c).1 = (pendingCall cmp (es.map (·.data)) c).1 ∧
      es'.map (·.data) = (pendingCall cmp (es.map (·.data)) c).2 ∧ Represents cmp (call cmp queue c).2 es' := by
  cases c with
  | put thing => exact ⟨_, rfl, by rw [List.map_append]; rfl, prioQueuePut_represents hcmp hr thing⟩
  | get =>
    obtain ⟨hresult, hqueue⟩ := prioQueueGet_represents hcmp hr
    exact ⟨_, hresult, (List.eraseIdx_map _ _ _).symm, hqueue⟩
  | peek =>
    have hpeek : prioQueuePeek cmp queue = (prioQueueGet cmp queue).1 := by
      rw [prioQueuePeek, prioQueueGet]
      split_ifs <;> cases cmp <;> rfl
    exact ⟨es, hpeek.trans (prioQueueGet_represents hcmp hr).1, rfl, hr⟩
  | replace thing =>
    refine ⟨_, rfl, ?_, prioQueueReplace_represents hcmp hr thing⟩
    rw [List.map_append, ← List.eraseIdx_map]
    rfl

lemma run_represents (hcmp : ∀ c, cmp = some c → IsTotalPreorder c) (calls : List (Call α))
    (hr : Represents cmp queue es) : ∃ es', (run cmp queue calls).1 = (pendingRun cmp (es.map (·.data)) calls).1 ∧
      es'.map (·.data) = (pendingRun cmp (es.map (·.data)) calls).2 ∧ Represents cmp (run cmp queue calls).2 es' := by
  induction calls generalizing queue es with
  | nil => exact ⟨es, rfl, rfl, hr⟩
  | cons c calls ih =>
    obtain ⟨es', hresult, hes', hr'⟩ := call_represents hcmp hr c
    obtain ⟨rest, hresults, hrest, hr''⟩ := ih hr'
    rw [hes'] at hresults hrest
    refine ⟨rest, ?_, hrest, hr''⟩
    simp only [run, pendingRun, hresult, hresults]

/-- Every sequence of calls on a new queue returns what it returns for the elements in the order of insertion, and none
is lost or there twice. To replace is to get and to put, whatever follows. -/
theorem prioQueue_run (hcmp : ∀ c, cmp = some c → IsTotalPreorder c) (calls : List (Call α)) :
    (run cmp ⟨0, #[]⟩ calls).1 = (pendingRun cmp [] calls).1 ∧
      ((run cmp ⟨0, #[]⟩ calls).2.array.toList.map (·.data)).Perm (pendingRun cmp [] calls).2 ∧
      ∀ thing later, (run cmp (run cmp ⟨0, #[]⟩ calls).2 (.replace thing :: later)).1.tail =
        (run cmp (run cmp ⟨0, #[]⟩ calls).2 (.get :: .put thing :: later)).1.tail.tail := by
  have hnew : Represents cmp (⟨0, #[]⟩ : PrioQueue α) [] :=
    ⟨.nil, fun e he => absurd he (by simp), .nil, fun _ => rfl, fun c _ h i hi => absurd hi (by simp)⟩
  obtain ⟨es, hresults, hes, hr⟩ := run_represents hcmp calls hnew
  refine ⟨hresults, hes ▸ hr.perm.map _, fun thing later => ?_⟩
  obtain ⟨-, hreplace, -⟩ := run_represents hcmp (.replace thing :: later) hr
  obtain ⟨-, hget, -⟩ := run_represents hcmp (.get :: .put thing :: later) hr
  rw [hreplace, hget]
  rfl

theorem prioQueue_run_numbers : (run (some fun a b : Int × Int => a.1 - b.1) ⟨0, #[]⟩
    [.put (2, 0), .put (1, 0), .put (1, 1), .replace (2, 1), .get, .get]).1 =
      [none, none, none, none, some (1, 1), some (2, 0)] := by
  have hcmp : IsTotalPreorder fun a b : Int × Int => a.1 - b.1 := ⟨fun a b => by omega, fun a b c => by omega⟩
  refine (prioQueue_run (fun c hc => Option.some.inj hc ▸ hcmp) _).1.trans ?_
  decide

end GitCore.Queue
