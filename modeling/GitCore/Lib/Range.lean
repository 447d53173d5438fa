import Mathlib.Tactic

/-!
# Ranges of a list

A list with a range of its elements that stand together, and what replacing another range does
to it.
-/

namespace GitCore.Range

variable {α : Type*}

def HasRange (l range : List α) (front : Prop) : Prop :=
  ∃ before after, l = before ++ range ++ after ∧ (front → before = [])

lemma HasRange.subset {l range : List α} {front : Prop} (h : HasRange l range front) : range ⊆ l := by
  obtain ⟨before, after, rfl, -⟩ := h
  intro x hx
  simp [hx]

lemma HasRange.append {l range : List α} {front : Prop} (h : HasRange l range front) (more : List α) :
    HasRange (l ++ more) range front := by
  obtain ⟨before, after, rfl, hfront⟩ := h
  exact ⟨before, after ++ more, by simp, hfront⟩

lemma HasRange.replace {range other before after new : List α} {front : Prop}
    (h : HasRange (before ++ other ++ after) range front) (hother : other ≠ []) (hrange : range ≠ [])
    (hdisj : ∀ x ∈ range, x ∉ other) : HasRange (before ++ new ++ after) range front := by
  obtain ⟨a, b, heq, hfront⟩ := h
  rw [List.append_assoc, List.append_assoc] at heq
  rcases List.append_eq_append_iff.mp heq with ⟨e, rfl, hrest⟩ | ⟨e, rfl, hrest⟩
  · -- the other range starts first, so `range` lies behind it
    have hbehind : ∃ f, e = other ++ f ∧ after = f ++ (range ++ b) := by
      rcases List.append_eq_append_iff.mp hrest with h | ⟨f, rfl, htail⟩
      · exact h
      · cases f with
        | nil => exact ⟨[], by simp, by simpa using htail.symm⟩
        | cons y f =>
          obtain ⟨z, zs, rfl⟩ := List.exists_cons_of_ne_nil hrange
          obtain ⟨rfl, -⟩ := List.cons.inj htail
          exact absurd (by simp) (hdisj z (by simp))
    obtain ⟨f, rfl, rfl⟩ := hbehind
    refine ⟨before ++ new ++ f, b, by simp, fun hf => ?_⟩
    exact absurd (hfront hf) (by simp [hother])
  · -- `range` starts first, so it lies before the other one
    have hbefore : ∃ f, e = range ++ f ∧ b = f ++ (other ++ after) := by
      rcases List.append_eq_append_iff.mp hrest with h | ⟨f, rfl, htail⟩
      · exact h
      · cases f with
        | nil => exact ⟨[], by simp, by simpa using htail.symm⟩
        | cons y f =>
          obtain ⟨z, zs, rfl⟩ := List.exists_cons_of_ne_nil hother
          obtain ⟨rfl, -⟩ := List.cons.inj htail
          exact absurd (by simp) (hdisj z (by simp))
    obtain ⟨f, rfl, rfl⟩ := hbefore
    exact ⟨a, f ++ new ++ after, by simp, hfront⟩

lemma eq_of_append_eq {range before after before' after' : List α} (hrange : range ≠ [])
    (hnodup : (before ++ range ++ after).Nodup)
    (h : before ++ range ++ after = before' ++ range ++ after') : before = before' ∧ after = after' := by
  obtain ⟨x, xs, rfl⟩ := List.exists_cons_of_ne_nil hrange
  simp only [List.append_assoc, List.cons_append] at h hnodup
  obtain ⟨-, hx, hdisj⟩ := List.nodup_append.mp hnodup
  have hb : before = before' := by
    rcases List.append_eq_append_iff.mp h with ⟨e, rfl, hrest⟩ | ⟨e, rfl, -⟩
    · cases e with
      | nil => simp
      | cons y e =>
        obtain ⟨-, hrest⟩ := List.cons.inj hrest
        exact absurd (by simp [hrest]) (List.nodup_cons.mp hx).1
    · cases e with
      | nil => simp
      | cons y e => exact absurd rfl (hdisj x (by simp_all) x (by simp))
  subst hb
  exact ⟨rfl, by simpa using h⟩

end GitCore.Range
