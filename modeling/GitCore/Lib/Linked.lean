import Mathlib.Data.List.Nodup
import Mathlib.Data.List.Perm.Basic
import Mathlib.Logic.Function.Basic
import Mathlib.Tactic

/-!
# Chains of links

Lists that are kept as a link from each member to the next one, and the insertion of a member behind another.
-/

namespace GitCore

variable {α : Type*}

def LinksThrough (next : α → Option α) : List α → Prop
  | [] => True
  | a :: l => next a = l.head? ∧ LinksThrough next l

def follow (next : α → Option α) : Nat → Option α → Option (List α)
  | _, none => some []
  | 0, some _ => none
  | fuel + 1, some a => (follow next fuel (next a)).map (a :: ·)

lemma follow_head? {next : α → Option α} {l : List α} (h : LinksThrough next l) {fuel : Nat} (hfuel : l.length ≤ fuel) :
    follow next fuel l.head? = some l := by
  induction l generalizing fuel with
  | nil => rw [List.head?_nil, follow]
  | cons a l ih =>
    cases fuel with
    | zero => exact absurd hfuel (Nat.not_succ_le_zero _)
    | succ fuel =>
      rw [List.head?_cons, follow, h.1, ih h.2 (Nat.le_of_succ_le_succ hfuel)]
      rfl

lemma LinksThrough.congr {next next' : α → Option α} {l : List α} (h : LinksThrough next l) (hsame : ∀ a ∈ l, next' a = next a) :
    LinksThrough next' l := by
  induction l with
  | nil => trivial
  | cons a l ih =>
    exact ⟨(hsame a List.mem_cons_self).trans h.1, ih h.2 fun b hb => hsame b (List.mem_cons_of_mem a hb)⟩

variable [DecidableEq α] {e i : α} {l l₁ l₂ : List α}

def insertAfter (e i : α) : List α → List α
  | [] => []
  | a :: l => if a = e then a :: i :: l else a :: insertAfter e i l

lemma insertAfter_of_not_mem (h : e ∉ l) : insertAfter e i l = l := by
  induction l with
  | nil => rfl
  | cons a l ih =>
    obtain ⟨hne, hl⟩ := not_or.mp (mt List.mem_cons.mpr h)
    rw [insertAfter, if_neg (Ne.symm hne), ih hl]

lemma insertAfter_append (hnodup : (l₁ ++ l₂).Nodup) :
    insertAfter e i (l₁ ++ l₂) = insertAfter e i l₁ ++ insertAfter e i l₂ := by
  induction l₁ with
  | nil => rfl
  | cons a l₁ ih =>
    obtain ⟨hout, hrest⟩ := List.nodup_cons.mp hnodup
    rw [List.cons_append, insertAfter, insertAfter]
    by_cases ha : a = e
    · have hl₂ : e ∉ l₂ := fun he => hout (List.mem_append_right l₁ (ha ▸ he))
      rw [if_pos ha, if_pos ha, insertAfter_of_not_mem hl₂]
      rfl
    · rw [if_neg ha, if_neg ha, ih hrest]
      rfl

lemma flatten_map_insertAfter {groups : List (List α)} (hnodup : groups.flatten.Nodup) :
    (groups.map (insertAfter e i)).flatten = insertAfter e i groups.flatten := by
  induction groups with
  | nil => rfl
  | cons g groups ih =>
    rw [List.flatten_cons] at hnodup ⊢
    rw [List.map_cons, List.flatten_cons, ih (List.nodup_append.mp hnodup).2.1, insertAfter_append hnodup]

lemma insertAfter_perm (h : e ∈ l) : (insertAfter e i l).Perm (i :: l) := by
  induction l with
  | nil => cases h
  | cons a l ih =>
    rw [insertAfter]
    by_cases ha : a = e
    · rw [if_pos ha]
      exact List.Perm.swap i a l
    · rw [if_neg ha]
      have hl : e ∈ l := (List.mem_cons.mp h).resolve_left (Ne.symm ha)
      exact ((ih hl).cons a).trans (List.Perm.swap i a l)

lemma head?_insertAfter (l : List α) : (insertAfter e i l).head? = l.head? := by
  cases l with
  | nil => rfl
  | cons a l =>
    rw [insertAfter]
    split <;> rfl

lemma mem_tail_insertAfter {a : α} (h : a ∈ (insertAfter e i l).tail) : a ∈ l.tail ∨ a = i ∧ e ∈ l := by
  by_cases he : e ∈ l
  · cases l with
    | nil => cases h
    | cons b l =>
      rw [insertAfter] at h
      by_cases hb : b = e
      · rw [if_pos hb] at h
        obtain rfl | hl := List.mem_cons.mp h
        · exact .inr ⟨rfl, he⟩
        · exact .inl hl
      · rw [if_neg hb] at h
        have hl : e ∈ l := (List.mem_cons.mp he).resolve_left (Ne.symm hb)
        obtain rfl | hmem := List.mem_cons.mp ((insertAfter_perm hl).mem_iff.mp h)
        · exact .inr ⟨rfl, he⟩
        · exact .inl hmem
  · rw [insertAfter_of_not_mem he] at h
    exact .inl h

lemma sublist_insertAfter (l : List α) : l.Sublist (insertAfter e i l) := by
  induction l with
  | nil => exact .slnil
  | cons a l ih =>
    rw [insertAfter]
    split
    · exact ((List.sublist_cons_self i l)).cons_cons a
    · exact ih.cons_cons a

lemma append_sublist_insertAfter (hnodup : l.Nodup) (h : (l₁ ++ [e]).Sublist l) :
    (l₁ ++ [e, i]).Sublist (insertAfter e i l) := by
  induction l generalizing l₁ with
  | nil => exact absurd (List.sublist_nil.mp h) (List.append_ne_nil_of_right_ne_nil l₁ (List.cons_ne_nil e []))
  | cons a l ih =>
    obtain ⟨hout, hrest⟩ := List.nodup_cons.mp hnodup
    rw [insertAfter]
    by_cases ha : a = e
    · subst ha
      have hnil : l₁ = [] := by
        cases l₁ with
        | nil => rfl
        | cons b l₁ =>
          have hlast : a ∈ l := by
            have hmem : a ∈ l₁ ++ [a] := List.mem_append_right l₁ List.mem_cons_self
            obtain hskip | ⟨r, hr, hsub⟩ := List.sublist_cons_iff.mp h
            · exact hskip.subset (List.mem_cons_of_mem b hmem)
            · obtain ⟨-, rfl⟩ := List.cons.inj hr
              exact hsub.subset hmem
          exact absurd hlast hout
      subst hnil
      rw [if_pos rfl]
      exact ((List.nil_sublist l).cons_cons i).cons_cons a
    · rw [if_neg ha]
      cases l₁ with
      | nil =>
        have hl : ([] ++ [e]).Sublist l := by
          refine List.singleton_sublist.mpr ?_
          exact (List.mem_cons.mp (List.singleton_sublist.mp h)).resolve_left (Ne.symm ha)
        exact (ih hrest hl).cons a
      | cons b l₁ =>
        obtain hskip | ⟨r, hr, hsub⟩ := List.sublist_cons_iff.mp h
        · exact (ih hrest hskip).cons a
        · obtain ⟨rfl, rfl⟩ := List.cons.inj hr
          exact (ih hrest hsub).cons_cons b

def linkAfter (next : α → Option α) (e i : α) : α → Option α :=
  Function.update (Function.update next i (next e)) e (some i)

lemma LinksThrough.linkAfter {next : α → Option α} (h : LinksThrough next l) (hnodup : l.Nodup) (hi : i ∉ l) :
    LinksThrough (linkAfter next e i) (insertAfter e i l) := by
  induction l with
  | nil => trivial
  | cons a l ih =>
    obtain ⟨hout, hrest⟩ := List.nodup_cons.mp hnodup
    obtain ⟨hia, hil⟩ := not_or.mp (mt List.mem_cons.mpr hi)
    rw [insertAfter]
    by_cases ha : a = e
    · subst ha
      rw [if_pos rfl]
      refine ⟨Function.update_self _ _ _, ?_, ?_⟩
      · rw [GitCore.linkAfter, Function.update_of_ne hia, Function.update_self]
        exact h.1
      · refine h.2.congr fun b hb => ?_
        have hba : b ≠ a := fun heq => hout (heq ▸ hb)
        have hbi : b ≠ i := fun heq => hil (heq ▸ hb)
        rw [GitCore.linkAfter, Function.update_of_ne hba, Function.update_of_ne hbi]
    · rw [if_neg ha]
      refine ⟨?_, ih h.2 hrest hil⟩
      rw [GitCore.linkAfter, Function.update_of_ne ha, Function.update_of_ne (Ne.symm hia), head?_insertAfter]
      exact h.1

end GitCore
