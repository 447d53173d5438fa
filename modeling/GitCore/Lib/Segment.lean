import Mathlib.Data.List.Forall2
import Mathlib.Tactic

/-!
# Segments of lists

A segment of a list lies between two positions. Segments that are related element by element have
related parts.
-/

namespace GitCore

variable {α β : Type*} {r : α → β → Prop}

/-- The elements `a`, …, `b - 1`. -/
def segment (l : List α) (a b : Nat) : List α :=
  (l.drop a).take (b - a)

@[simp]
lemma segment_self (l : List α) (a : Nat) : segment l a a = [] := by
  simp [segment]

lemma length_segment {l : List α} {a b : Nat} (h : b ≤ l.length) : (segment l a b).length = b - a := by
  rw [segment, List.length_take, List.length_drop]
  omega

lemma segment_length (l : List α) (a : Nat) : segment l a l.length = l.drop a := by
  rw [segment, List.take_of_length_le (by simp)]

lemma segment_append (l : List α) {a b c : Nat} (hab : a ≤ b) (hbc : b ≤ c) :
    segment l a b ++ segment l b c = segment l a c := by
  have hdrop : l.drop b = (l.drop a).drop (b - a) := by
    rw [List.drop_drop]
    congr 1
    omega
  rw [segment, segment, segment, hdrop, show c - a = (b - a) + (c - b) by omega, List.take_add]

lemma segment_append_drop (l : List α) {a b : Nat} (h : a ≤ b) : segment l a b ++ l.drop b = l.drop a := by
  have hdrop : l.drop b = (l.drop a).drop (b - a) := by
    rw [List.drop_drop]
    congr 1
    omega
  rw [segment, hdrop, List.take_append_drop]

lemma segment_cons (l : List α) {a b : Nat} (hab : a < b) (hb : b ≤ l.length) :
    segment l a b = l[a] :: segment l (a + 1) b := by
  rw [segment, List.drop_eq_getElem_cons (by omega), show b - a = (b - (a + 1)) + 1 by omega, List.take_succ_cons,
    ← segment]

lemma segment_one (l : List α) {a : Nat} (h : a < l.length) : segment l a (a + 1) = [l[a]] := by
  rw [segment_cons l (Nat.lt_succ_self a) h, segment_self]

lemma segment_segment (l : List α) {a b c d : Nat} (h : a + d ≤ b) :
    segment (segment l a b) c d = segment l (a + c) (a + d) := by
  rw [segment, segment, segment, List.drop_take, List.drop_drop, List.take_take]
  congr 1
  omega

lemma drop_segment (l : List α) {a b : Nat} (n : Nat) : (segment l a b).drop n = segment l (a + n) b := by
  rw [segment, segment, List.drop_take, List.drop_drop]
  congr 1
  omega

lemma forall₂_segment {x : List α} {y : List β} {a b c d k : Nat}
    (h : List.Forall₂ r (segment x a b) (segment y c d)) (n : Nat) (hb : a + k + n ≤ b) (hd : c + k + n ≤ d) :
    List.Forall₂ r (segment x (a + k) (a + k + n)) (segment y (c + k) (c + k + n)) := by
  have hpart := List.forall₂_take n (List.forall₂_drop k h)
  rw [segment, segment, List.drop_take, List.drop_take, List.drop_drop, List.drop_drop, List.take_take,
    List.take_take, Nat.min_eq_left (by omega), Nat.min_eq_left (by omega)] at hpart
  rw [segment, segment, show a + k + n - (a + k) = n by omega, show c + k + n - (c + k) = n by omega]
  exact hpart

lemma exists_left_of_forall₂ {x : List α} {y : List β} (h : List.Forall₂ r x y) {b : β} (hb : b ∈ y) :
    ∃ a ∈ x, r a b := by
  induction h with
  | nil => simp at hb
  | cons hxy _ ih =>
    obtain rfl | hb := List.mem_cons.mp hb
    · exact ⟨_, List.mem_cons_self, hxy⟩
    · obtain ⟨a, ha, h⟩ := ih hb
      exact ⟨a, List.mem_cons_of_mem _ ha, h⟩

lemma exists_right_of_forall₂ {x : List α} {y : List β} (h : List.Forall₂ r x y) {a : α} (ha : a ∈ x) :
    ∃ b ∈ y, r a b := by
  induction h with
  | nil => simp at ha
  | cons hxy _ ih =>
    obtain rfl | ha := List.mem_cons.mp ha
    · exact ⟨_, List.mem_cons_self, hxy⟩
    · obtain ⟨b, hb, h⟩ := ih ha
      exact ⟨b, List.mem_cons_of_mem _ hb, h⟩

end GitCore
