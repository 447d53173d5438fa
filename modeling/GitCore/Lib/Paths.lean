import Mathlib.Data.List.Lex
import Mathlib.Tactic

/-!
# Names with separators in lexicographic order

Names are lists over a linear order. The names that start with a given one stand together, and the
leading directories of a name are ordered by their length.
-/

namespace GitCore

variable {α : Type*}

def LeadingDir (sep : α) (d n : List α) : Prop := d ++ [sep] <+: n

instance decidableLeadingDir [DecidableEq α] (sep : α) (d n : List α) : Decidable (LeadingDir sep d n) :=
  inferInstanceAs (Decidable (d ++ [sep] <+: n))

variable {sep : α} {d e n : List α}

namespace LeadingDir

lemma isPrefix (h : LeadingDir sep d n) : d <+: n :=
  (List.prefix_append d [sep]).trans h

lemma length_lt (h : LeadingDir sep d n) : d.length < n.length := by
  have := List.IsPrefix.length_le h
  rw [List.length_append, List.length_singleton] at this
  omega

lemma trans (h : LeadingDir sep d e) (h' : LeadingDir sep e n) : LeadingDir sep d n :=
  List.IsPrefix.trans h h'.isPrefix

lemma of_lt (h : LeadingDir sep d n) (he : e <+: n) (hlt : d.length < e.length) : LeadingDir sep d e := by
  refine List.prefix_of_prefix_length_le h he ?_
  rw [List.length_append, List.length_singleton]
  omega

lemma eq_of_length (h : LeadingDir sep d n) (he : e <+: n) (hlength : d.length = e.length) : d = e :=
  List.IsPrefix.eq_of_length (List.prefix_of_prefix_length_le h.isPrefix he hlength.le) hlength

end LeadingDir

lemma leadingDir_iff : LeadingDir sep d n ↔ d <+: n ∧ n[d.length]? = some sep := by
  constructor
  · intro h
    refine ⟨h.isPrefix, ?_⟩
    obtain ⟨s, rfl⟩ := h
    simp
  · rintro ⟨⟨s, rfl⟩, hget⟩
    cases s with
    | nil => simp at hget
    | cons c s =>
      obtain rfl : c = sep := by simpa using hget
      exact ⟨s, by simp⟩

section

variable [LinearOrder α]

lemma lt_append_of_ne_nil (n : List α) {s : List α} (h : s ≠ []) : n < n ++ s := by
  induction n with
  | nil =>
    obtain ⟨b, t, rfl⟩ := List.exists_cons_of_ne_nil h
    exact List.nil_lt_cons b t
  | cons a n ih => exact List.cons_lt_cons_iff.mpr (.inr ⟨rfl, ih⟩)

lemma prefix_of_between {n p q : List α} (hlow : n ≤ p) (hhigh : p ≤ q) ( hprefix : n <+: q) : n <+: p := by
  obtain ⟨s, rfl⟩ := hprefix
  induction n generalizing p with
  | nil => exact List.nil_prefix
  | cons a n ih =>
    cases p with
    | nil => exact absurd hlow (not_le.mpr (List.nil_lt_cons a n))
    | cons c p =>
      rw [← not_lt, List.cons_lt_cons_iff] at hlow
      rw [List.cons_append, ← not_lt, List.cons_lt_cons_iff] at hhigh
      push Not at hlow hhigh
      obtain rfl : a = c := le_antisymm hlow.1 hhigh.1
      obtain ⟨t, rfl⟩ := ih (not_lt.mp fun h => absurd h (not_lt.mpr (hlow.2 rfl)))
        (not_lt.mp fun h => absurd h (not_lt.mpr (hhigh.2 rfl)))
      exact ⟨t, rfl⟩

lemma LeadingDir.lt (h : LeadingDir sep d n) : d < n := by
  obtain ⟨s, rfl⟩ := h
  rw [List.append_assoc]
  exact lt_append_of_ne_nil d (by simp)

/-- Where the names differ first, neither has ended and `u` has the smaller element. -/
def DivergesBelow (u v : List α) : Prop := ∃ p a b s t, u = p ++ a :: s ∧ v = p ++ b :: t ∧ a < b

namespace DivergesBelow

variable {u v w : List α}

lemma append_left (h : DivergesBelow u v) (p : List α) : DivergesBelow (p ++ u) (p ++ v) := by
  obtain ⟨q, a, b, s, t, rfl, rfl, hlt⟩ := h
  exact ⟨p ++ q, a, b, s, t, by simp, by simp, hlt⟩

lemma cons_iff {a b : α} : DivergesBelow (a :: u) (b :: v) ↔ a < b ∨ (a = b ∧ DivergesBelow u v) := by
  constructor
  · rintro ⟨p, c, d, s, t, hu, hv, hlt⟩
    cases p with
    | nil =>
      obtain ⟨rfl, rfl⟩ := List.cons.inj hu
      obtain ⟨rfl, rfl⟩ := List.cons.inj hv
      exact .inl hlt
    | cons x p =>
      obtain ⟨rfl, rfl⟩ := List.cons.inj hu
      obtain ⟨rfl, rfl⟩ := List.cons.inj hv
      exact .inr ⟨rfl, p, c, d, s, t, rfl, rfl, hlt⟩
  · rintro (hlt | ⟨rfl, h⟩)
    · exact ⟨[], a, b, u, v, rfl, rfl, hlt⟩
    · exact h.append_left [a]

lemma of_append_left {p : List α} (h : DivergesBelow (p ++ u) (p ++ v)) : DivergesBelow u v := by
  induction p with
  | nil => exact h
  | cons c p ih => exact ih (cons_iff.mp h |>.resolve_left (lt_irrefl c)).2

lemma append_right (h : DivergesBelow u v) (s : List α) : DivergesBelow u (v ++ s) := by
  obtain ⟨p, a, b, x, y, rfl, rfl, hlt⟩ := h
  exact ⟨p, a, b, x, y ++ s, rfl, by simp, hlt⟩

lemma not_nil_left : ¬DivergesBelow [] v := by
  rintro ⟨p, a, b, s, t, hu, -⟩
  simp at hu

lemma not_nil_right : ¬DivergesBelow u [] := by
  rintro ⟨p, a, b, s, t, -, hv, -⟩
  simp at hv

lemma trans_lt (h : DivergesBelow u v) (hlt : v < w) : DivergesBelow u w := by
  induction u generalizing v w with
  | nil => exact absurd h not_nil_left
  | cons a u ih =>
    cases v with
    | nil => exact absurd h not_nil_right
    | cons b v =>
      cases w with
      | nil => exact absurd hlt (List.not_lt_nil _)
      | cons c w =>
        rw [cons_iff] at h ⊢
        obtain hbc | ⟨rfl, hrest⟩ := List.cons_lt_cons_iff.mp hlt
        · exact .inl (h.elim (fun hab => hab.trans hbc) fun hab => hab.1 ▸ hbc)
        · exact h.imp_right fun hab => ⟨hab.1, ih hab.2 hrest⟩

lemma not_isPrefix_left (h : DivergesBelow u v) : ¬u <+: v := by
  induction u generalizing v with
  | nil => exact absurd h not_nil_left
  | cons a u ih =>
    cases v with
    | nil => exact absurd h not_nil_right
    | cons b v =>
      rw [List.cons_prefix_cons]
      rintro ⟨rfl, hrest⟩
      exact (cons_iff.mp h).elim (lt_irrefl a) fun hab => ih hab.2 hrest

lemma not_isPrefix_right (h : DivergesBelow u v) : ¬v <+: u := by
  induction u generalizing v with
  | nil => exact absurd h not_nil_left
  | cons a u ih =>
    cases v with
    | nil => exact absurd h not_nil_right
    | cons b v =>
      rw [List.cons_prefix_cons]
      rintro ⟨rfl, hrest⟩
      exact (cons_iff.mp h).elim (lt_irrefl b) fun hab => ih hab.2 hrest

lemma of_append_right {s : List α} (h : DivergesBelow u (v ++ s)) : DivergesBelow u v ∨ v <+: u := by
  induction u generalizing v with
  | nil => exact absurd h not_nil_left
  | cons a u ih =>
    cases v with
    | nil => exact .inr List.nil_prefix
    | cons b v =>
      rw [List.cons_append, cons_iff] at h
      rw [cons_iff, List.cons_prefix_cons]
      obtain hlt | ⟨rfl, hrest⟩ := h
      · exact .inl (.inl hlt)
      · exact (ih hrest).imp (fun h => .inr ⟨rfl, h⟩) fun h => ⟨rfl, h⟩

end DivergesBelow

end

end GitCore
