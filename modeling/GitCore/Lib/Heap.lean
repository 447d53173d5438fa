import Mathlib.Tactic
import Mathlib.Order.Basic

/-!
# Binary heaps in an array

The usual sift loops over an array, for any boolean comparison. The comparison need not
be an order: all results are for heaps on whose elements it agrees with a rank.
-/

namespace GitCore.Heap

variable {α β : Type*} (less : α → α → Bool)

/-- Moves the element at `i` up while its parent is not less. -/
def siftUp (h : Array α) (i : Nat) (hi : i < h.size) : Array α :=
  if 0 < i then
    if less h[(i - 1) / 2] h[i] then h
    else siftUp (h.swap i ((i - 1) / 2)) ((i - 1) / 2) (by simp only [Array.size_swap]; omega)
  else h
termination_by i

def add (h : Array α) (e : α) : Array α :=
  siftUp less (h.push e) h.size (by simp)

/-- The lesser of the elements at `m` and at `c`, where `c` may lie behind the end. -/
def lesser (h : Array α) (m : Fin h.size) (c : Nat) : Fin h.size :=
  if hc : c < h.size then if less h[c] h[m] then ⟨c, hc⟩ else m else m

/-- The least of `h[i]` and its children. -/
def minChild (h : Array α) (i : Nat) (hi : i < h.size) : Fin h.size :=
  lesser less h (lesser less h ⟨i, hi⟩ (2 * i + 1)) (2 * i + 2)

lemma lesser_cases (h : Array α) (m : Fin h.size) (c : Nat) :
    lesser less h m c = m ∨ (lesser less h m c).val = c := by
  unfold lesser
  split_ifs <;> simp

lemma minChild_cases (h : Array α) (i : Nat) (hi : i < h.size) :
    (minChild less h i hi).val = i ∨ (minChild less h i hi).val = 2 * i + 1 ∨
      (minChild less h i hi).val = 2 * i + 2 := by
  unfold minChild
  rcases lesser_cases less h (lesser less h ⟨i, hi⟩ (2 * i + 1)) (2 * i + 2) with h2 | h2
  · rcases lesser_cases less h ⟨i, hi⟩ (2 * i + 1) with h1 | h1
    · exact .inl (by rw [h2, h1])
    · exact .inr (.inl (by rw [h2, h1]))
  · exact .inr (.inr h2)

/-- Moves the element at `i` down while a child is less. -/
def siftDown (h : Array α) (i : Nat) : Array α :=
  if hi : i < h.size then
    if (minChild less h i hi).val = i then h
    else siftDown (h.swap i (minChild less h i hi)) (minChild less h i hi)
  else h
termination_by h.size - i
decreasing_by
  have := minChild_cases less h i hi
  simp only [Array.size_swap]
  omega

def remove (h : Array α) : Array α :=
  if hpos : 0 < h.size then siftDown less (h.set 0 h[h.size - 1]).pop 0 else h

section Rank

variable {less} [LinearOrder β] (rank : α → β)

def Ranked (less : α → α → Bool) (h : Array α) : Prop :=
  ∀ a ∈ h, ∀ b ∈ h, less a b = decide (rank a < rank b)

def IsHeap (h : Array α) : Prop :=
  ∀ i (hi : i < h.size), 0 < i → rank h[(i - 1) / 2] ≤ rank h[i]

variable {rank}

lemma Ranked.perm {h h' : Array α} (hr : Ranked rank less h) (hp : h'.Perm h) :
    Ranked rank less h' :=
  fun a ha b hb => hr a (hp.mem_iff.mp ha) b (hp.mem_iff.mp hb)

variable {h : Array α}

lemma Ranked.getElem (hr : Ranked rank less h) {i j : Nat} (hi : i < h.size)
    (hj : j < h.size) : less h[i] h[j] = true ↔ rank h[i] < rank h[j] := by
  rw [hr _ (Array.getElem_mem hi) _ (Array.getElem_mem hj), decide_eq_true_eq]

lemma IsHeap.root_le (hh : IsHeap rank h) (i : Nat) (hi : i < h.size) :
    rank h[0] ≤ rank h[i] := by
  induction i using Nat.strong_induction_on with
  | _ i ih =>
    by_cases h0 : 0 < i
    · exact (ih ((i - 1) / 2) (by omega) (by omega)).trans (hh i hi h0)
    · obtain rfl : i = 0 := by omega
      exact le_rfl

lemma siftUp_perm (h : Array α) (i : Nat) (hi : i < h.size) : (siftUp less h i hi).Perm h := by
  induction i using Nat.strong_induction_on generalizing h with
  | _ i ih =>
    rw [siftUp]
    split_ifs with h0 hl
    · exact .rfl
    · exact (ih _ (by omega) _ _).trans (Array.swap_perm _ _)
    · exact .rfl

lemma siftUp_isHeap (h : Array α) (i : Nat) (hi : i < h.size) (hr : Ranked rank less h)
    (hexcept : ∀ j (hj : j < h.size), 0 < j → j ≠ i → rank h[(j - 1) / 2] ≤ rank h[j])
    (hgrand : ∀ j (hj : j < h.size), 0 < j → 0 < i → (j - 1) / 2 = i →
      rank h[(i - 1) / 2] ≤ rank h[j]) : IsHeap rank (siftUp less h i hi) := by
  induction i using Nat.strong_induction_on generalizing h with
  | _ i ih =>
    rw [siftUp]
    split_ifs with h0 hl
    · intro j hj hj0
      by_cases hji : j = i
      · subst hji
        exact ((hr.getElem _ _).mp hl).le
      · exact hexcept j hj hj0 hji
    · have hle : rank h[i] ≤ rank h[(i - 1) / 2] := by
        rw [hr.getElem (by omega) hi] at hl
        exact not_lt.mp hl
      have hup (j : Nat) (hj : j < h.size) (hj0 : 0 < j) (hji : j ≠ i) (hp : (j - 1) / 2 = (i - 1) / 2) :
          rank h[(i - 1) / 2] ≤ rank h[j] := by
        have := hexcept j hj hj0 hji
        simpa only [hp] using this
      apply ih _ (by omega) _ _ (hr.perm (Array.swap_perm _ _))
      · intro j hj hj0 hjp
        simp only [Array.size_swap] at hj
        simp only [Array.getElem_swap]
        by_cases hji : j = i
        · subst hji
          rw [if_neg (by omega), if_pos rfl, if_pos rfl]
          exact hle
        · rw [if_neg hji, if_neg hjp]
          by_cases hpi : (j - 1) / 2 = i
          · rw [if_pos hpi]
            exact hgrand j hj hj0 h0 hpi
          · rw [if_neg hpi]
            by_cases hpp : (j - 1) / 2 = (i - 1) / 2
            · rw [if_pos hpp]
              exact hle.trans (hup j hj hj0 hji hpp)
            · rw [if_neg hpp]
              exact hexcept j hj hj0 hji
      · intro j hj hj0 hp0 hjp
        simp only [Array.size_swap] at hj
        have htop := hexcept ((i - 1) / 2) (by omega) hp0 (by omega)
        simp only [Array.getElem_swap]
        rw [if_neg (by omega), if_neg (by omega)]
        by_cases hji : j = i
        · rw [if_pos hji]
          exact htop
        · rw [if_neg hji, if_neg (by omega)]
          exact htop.trans (hup j hj hj0 hji hjp)
    · intro j hj hj0
      exact hexcept j hj hj0 (by omega)

lemma add_perm (h : Array α) (e : α) : (add less h e).Perm (h.push e) :=
  siftUp_perm _ _ _

lemma add_isHeap {e : α} (hr : Ranked rank less (h.push e)) (hh : IsHeap rank h) :
    IsHeap rank (add less h e) := by
  apply siftUp_isHeap _ _ _ hr
  · intro j hj hj0 hne
    have hlt : j < h.size := by
      rw [Array.size_push] at hj
      omega
    rw [Array.getElem_push_lt hlt, Array.getElem_push_lt (by omega)]
    exact hh j hlt hj0
  · intro j hj hj0 _ hp
    rw [Array.size_push] at hj
    omega

lemma lesser_le (hr : Ranked rank less h) (m : Fin h.size) (c : Nat) :
    rank h[lesser less h m c] ≤ rank h[m] ∧
      ∀ hc : c < h.size, rank h[lesser less h m c] ≤ rank h[c] := by
  unfold lesser
  split_ifs with hc hl
  · exact ⟨((hr.getElem hc m.isLt).mp hl).le, fun _ => le_rfl⟩
  · refine ⟨le_rfl, fun _ => ?_⟩
    rw [Fin.getElem_fin, hr.getElem hc m.isLt] at hl
    exact not_lt.mp hl
  · exact ⟨le_rfl, fun h => absurd h hc⟩

lemma minChild_le (h : Array α) (i : Nat) (hi : i < h.size) (hr : Ranked rank less h) :
    rank h[minChild less h i hi] ≤ rank h[i] ∧
      ∀ j (hj : j < h.size), 0 < j → (j - 1) / 2 = i → rank h[minChild less h i hi] ≤ rank h[j] := by
  obtain ⟨h1, h1c⟩ := lesser_le hr ⟨i, hi⟩ (2 * i + 1)
  obtain ⟨h2, h2c⟩ := lesser_le hr (lesser less h ⟨i, hi⟩ (2 * i + 1)) (2 * i + 2)
  refine ⟨h2.trans h1, fun j hj hj0 hp => ?_⟩
  obtain rfl | rfl : j = 2 * i + 1 ∨ j = 2 * i + 2 := by omega
  · exact h2.trans (h1c hj)
  · exact h2c hj

lemma siftDown_perm (h : Array α) (i : Nat) : (siftDown less h i).Perm h := by
  induction hn : h.size - i using Nat.strong_induction_on generalizing h i with
  | _ n ih =>
    rw [siftDown]
    split_ifs with hi hm
    · exact .rfl
    · have := minChild_cases less h i hi
      exact (ih _ (by simp only [Array.size_swap]; omega) _ _ rfl).trans (Array.swap_perm _ _)
    · exact .rfl

lemma siftDown_isHeap (h : Array α) (i : Nat) (hr : Ranked rank less h)
    (hexcept : ∀ j (hj : j < h.size), 0 < j → (j - 1) / 2 ≠ i → rank h[(j - 1) / 2] ≤ rank h[j])
    (hgrand : ∀ j (hj : j < h.size) (_hp : (j - 1) / 2 = i), 0 < j → 0 < i →
      rank h[(i - 1) / 2] ≤ rank h[j]) : IsHeap rank (siftDown less h i) := by
  induction hn : h.size - i using Nat.strong_induction_on generalizing h i with
  | _ n ih =>
    rw [siftDown]
    split_ifs with hi hm
    · intro j hj hj0
      by_cases hp : (j - 1) / 2 = i
      · have := (minChild_le h i hi hr).2 j hj hj0 hp
        simp only [Fin.getElem_fin, hm] at this
        simpa only [hp] using this
      · exact hexcept j hj hj0 hp
    · obtain ⟨hle, hmin⟩ := minChild_le h i hi hr
      have hcases := minChild_cases less h i hi
      set m := minChild less h i hi
      simp only [Fin.getElem_fin] at hle hmin
      have hmp : (m.val - 1) / 2 = i := by omega
      refine ih _ (by simp only [Array.size_swap]; omega) _ _ (hr.perm (Array.swap_perm _ _)) ?_ ?_ rfl
      · intro j hj hj0 hjp
        simp only [Array.size_swap] at hj
        simp only [Array.getElem_swap]
        rw [if_neg (c := (j - 1) / 2 = m.val) hjp]
        by_cases hji : j = i
        · subst hji
          rw [if_neg (by omega), if_pos rfl]
          exact hgrand m m.isLt hmp (by omega) hj0
        · rw [if_neg hji]
          by_cases hjm : j = m
          · rw [if_pos (by omega), if_pos hjm]
            exact hle
          · rw [if_neg hjm]
            by_cases hp : (j - 1) / 2 = i
            · rw [if_pos hp]
              exact hmin j hj hj0 hp
            · rw [if_neg hp]
              exact hexcept j hj hj0 hp
      · intro j hj hjp hj0 _
        simp only [Array.size_swap] at hj
        have hlow := hexcept j hj hj0 (by omega)
        simp only [Array.getElem_swap]
        rw [if_pos (by omega), if_neg (by omega), if_neg (by omega)]
        simpa only [hjp] using hlow
    · intro j hj hj0
      exact hexcept j hj hj0 (by omega)

lemma remove_perm (h : Array α) (hpos : 0 < h.size) :
    h.toList.Perm (h[0] :: (remove less h).toList) := by
  have hsift := Array.perm_iff_toList_perm.mp (@siftDown_perm _ less (h.set 0 h[h.size - 1]).pop 0)
  rw [remove, dif_pos hpos]
  refine List.Perm.trans ?_ (hsift.symm.cons _)
  obtain ⟨xs⟩ := h
  obtain ⟨ys, y, rfl⟩ : ∃ ys y, xs = ys ++ [y] :=
    ⟨xs.dropLast, xs.getLast (List.ne_nil_of_length_pos hpos), (List.dropLast_append_getLast _).symm⟩
  cases ys with
  | nil => simp
  | cons x zs =>
    have hdrop : (y :: (zs ++ [y])).dropLast = y :: zs := by
      rw [← List.cons_append, List.dropLast_concat]
    have hperm : (zs ++ [y]).Perm (y :: (zs ++ [y])).dropLast := by
      rw [hdrop]
      exact List.perm_append_singleton y zs
    simpa using hperm

lemma remove_isHeap (hr : Ranked rank less h) (hh : IsHeap rank h) :
    IsHeap rank (remove less h) := by
  rw [remove]
  split_ifs with hpos
  · apply siftDown_isHeap
    · intro a ha b hb
      have hmem (c : α) (hc : c ∈ (h.set 0 h[h.size - 1]).pop) : c ∈ h := by
        obtain ⟨i, hi, rfl⟩ := Array.getElem_of_mem hc
        rw [Array.getElem_pop, Array.getElem_set]
        split_ifs <;> exact Array.getElem_mem _
      exact hr a (hmem a ha) b (hmem b hb)
    · intro j hj hj0 hp
      simp only [Array.size_pop, Array.size_set] at hj
      rw [Array.getElem_pop, Array.getElem_pop, Array.getElem_set_ne, Array.getElem_set_ne]
      · exact hh j (by omega) hj0
      · omega
      · omega
    · intro j hj hp hj0 h0
      omega
  · exact hh

end Rank

end GitCore.Heap
