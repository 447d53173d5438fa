import Mathlib.Tactic

/-!
# Laying one sorted list over another

The union of two lists that are strictly sorted by a key. Where both have a key, the front list has the entry.
-/

namespace GitCore

variable {α K : Type*} [LinearOrder K] (key : α → K)

/-- The entries of both lists in the order of their keys, and those of `front` only where the keys are the same. -/
def overlay : List α → List α → List α
  | [], back => back
  | front, [] => front
  | a :: front, b :: back =>
    if key a < key b then a :: overlay front (b :: back)
    else if key b < key a then b :: overlay (a :: front) back
    else a :: overlay front back
termination_by front back => front.length + back.length

variable {key} {front back : List α} {a b x : α}

@[simp]
lemma overlay_nil_left (back : List α) : overlay key [] back = back := by rw [overlay]

@[simp]
lemma overlay_nil_right (front : List α) : overlay key front [] = front := by
  cases front <;> rw [overlay]
  exact fun h => by cases h

lemma overlay_of_lt (h : key a < key b) :
    overlay key (a :: front) (b :: back) = a :: overlay key front (b :: back) := by rw [overlay, if_pos h]

lemma overlay_of_gt (h : key b < key a) :
    overlay key (a :: front) (b :: back) = b :: overlay key (a :: front) back := by
  rw [overlay, if_neg h.not_gt, if_pos h]

lemma overlay_of_eq (h : key a = key b) :
    overlay key (a :: front) (b :: back) = a :: overlay key front back := by
  rw [overlay, if_neg h.not_lt, if_neg h.not_gt]

def Increasing (key : α → K) (l : List α) : Prop := l.Pairwise fun a b => key a < key b

lemma Increasing.lt (h : Increasing key (a :: front)) (hx : x ∈ front) : key a < key x :=
  (List.pairwise_cons.mp h).1 x hx

lemma Increasing.tail (h : Increasing key (a :: front)) : Increasing key front := (List.pairwise_cons.mp h).2

lemma Increasing.filter (h : Increasing key front) (p : α → Bool) : Increasing key (front.filter p) :=
  List.Pairwise.filter p h

/-- The union of the entries, but for those of the back list that the front list shadows. -/
theorem mem_overlay (hfront : Increasing key front) (hback : Increasing key back) :
    x ∈ overlay key front back ↔ x ∈ front ∨ (x ∈ back ∧ ∀ a ∈ front, key a ≠ key x) := by
  induction front, back using overlay.induct key with
  | case1 back => simp
  | case2 front => simp
  | case3 a front b back hlt ih =>
    have hne : x ∈ b :: back → key a ≠ key x := by
      intro hx
      obtain rfl | hx := List.mem_cons.mp hx
      · exact hlt.ne
      · exact (hlt.trans (hback.lt hx)).ne
    rw [overlay_of_lt hlt, List.mem_cons, ih hfront.tail hback, @List.mem_cons _ a front x, List.forall_mem_cons]
    tauto
  | case4 a front b back hlt hgt ih =>
    have hne : x = b → ∀ c ∈ a :: front, key c ≠ key x := by
      rintro rfl c hc
      obtain rfl | hc := List.mem_cons.mp hc
      · exact hgt.ne'
      · exact (hgt.trans (hfront.lt hc)).ne'
    rw [overlay_of_gt hgt, List.mem_cons, ih hfront hback.tail, @List.mem_cons _ b back x]
    tauto
  | case5 a front b back hlt hgt ih =>
    have heq : key a = key b := le_antisymm (not_lt.mp hgt) (not_lt.mp hlt)
    have hne : x ∈ back → key a ≠ key x := fun hx => by
      rw [heq]
      exact (hback.lt hx).ne
    have hsame : x = b → ¬key a ≠ key x := by
      rintro rfl
      exact not_not.mpr heq
    rw [overlay_of_eq heq, List.mem_cons, ih hfront.tail hback.tail, @List.mem_cons _ a front x,
      @List.mem_cons _ b back x, List.forall_mem_cons]
    constructor
    · rintro (rfl | hx | ⟨hx, hall⟩)
      · exact .inl (.inl rfl)
      · exact .inl (.inr hx)
      · exact .inr ⟨.inr hx, hne hx, hall⟩
    · rintro ((rfl | hx) | ⟨rfl | hx, hno, hall⟩)
      · exact .inl rfl
      · exact .inr (.inl hx)
      · exact absurd hno (hsame rfl)
      · exact .inr (.inr ⟨hx, hall⟩)

theorem increasing_overlay (hfront : Increasing key front) (hback : Increasing key back) :
    Increasing key (overlay key front back) := by
  induction front, back using overlay.induct key with
  | case1 back => simpa
  | case2 front => simpa
  | case3 a front b back hlt ih =>
    rw [overlay_of_lt hlt]
    refine List.pairwise_cons.mpr ⟨fun x hx => ?_, ih hfront.tail hback⟩
    obtain hx | ⟨hx, -⟩ := (mem_overlay hfront.tail hback).mp hx
    · exact hfront.lt hx
    · obtain rfl | hx := List.mem_cons.mp hx
      · exact hlt
      · exact hlt.trans (hback.lt hx)
  | case4 a front b back hlt hgt ih =>
    rw [overlay_of_gt hgt]
    refine List.pairwise_cons.mpr ⟨fun x hx => ?_, ih hfront hback.tail⟩
    obtain hx | ⟨hx, -⟩ := (mem_overlay hfront hback.tail).mp hx
    · obtain rfl | hx := List.mem_cons.mp hx
      · exact hgt
      · exact hgt.trans (hfront.lt hx)
    · exact hback.lt hx
  | case5 a front b back hlt hgt ih =>
    have heq : key a = key b := le_antisymm (not_lt.mp hgt) (not_lt.mp hlt)
    rw [overlay_of_eq heq]
    refine List.pairwise_cons.mpr ⟨fun x hx => ?_, ih hfront.tail hback.tail⟩
    obtain hx | ⟨hx, -⟩ := (mem_overlay hfront.tail hback.tail).mp hx
    · exact hfront.lt hx
    · rw [heq]
      exact hback.lt hx

end GitCore
