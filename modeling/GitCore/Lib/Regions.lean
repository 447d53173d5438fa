import Mathlib.Order.Lattice
import Mathlib.Tactic

/-!
# Regions of a linear order

Half-open regions in the order of their starts. Coalescing joins the regions that overlap or touch, so that the
same positions are held by regions with gaps between them.
-/

namespace GitCore

structure Region (α : Type*) where
  start : α
  stop : α
  deriving DecidableEq

namespace Region

variable {α : Type*} [LinearOrder α]

def Holds (r : Region α) (x : α) : Prop := r.start ≤ x ∧ x < r.stop

instance decidableHolds (r : Region α) (x : α) : Decidable (r.Holds x) :=
  inferInstanceAs (Decidable (r.start ≤ x ∧ x < r.stop))

def extend (r other : Region α) : Region α :=
  { r with stop := max r.stop other.stop }

@[simp]
lemma extend_start (r other : Region α) : (r.extend other).start = r.start := rfl

@[simp]
lemma extend_stop (r other : Region α) : (r.extend other).stop = max r.stop other.stop := rfl

lemma extend_of_le {r other : Region α} (h : other.stop ≤ r.stop) : r.extend other = r := by
  rw [extend, max_eq_left h]

lemma holds_extend_iff {r other : Region α} (hstart : r.start ≤ other.start) (htouch : other.start ≤ r.stop) (x : α) :
    (r.extend other).Holds x ↔ r.Holds x ∨ other.Holds x := by
  simp only [Holds, extend_start, extend_stop, lt_max_iff]
  constructor
  · rintro ⟨hlow, hhigh⟩
    obtain hx | hx := lt_or_ge x r.stop
    · exact .inl ⟨hlow, hx⟩
    · exact .inr ⟨htouch.trans hx, hhigh.resolve_left (not_lt.mpr hx)⟩
  · rintro (⟨hlow, hhigh⟩ | ⟨hlow, hhigh⟩)
    · exact ⟨hlow, .inl hhigh⟩
    · exact ⟨hstart.trans hlow, .inr hhigh⟩

def Ordered (rs : List (Region α)) : Prop := rs.Pairwise (fun r s => r.start ≤ s.start)

def Separated (rs : List (Region α)) : Prop := rs.Pairwise (fun r s => r.stop < s.start)

/-- The region `cur` and those behind it, joined where they overlap or touch. -/
def coalesce (cur : Region α) : List (Region α) → List (Region α)
  | [] => [cur]
  | r :: rs => if r.start ≤ cur.stop then coalesce (cur.extend r) rs else cur :: coalesce r rs

variable {cur : Region α} {rs : List (Region α)}

lemma start_le_of_mem_coalesce (h : Ordered (cur :: rs)) {e : Region α}
    (he : e ∈ coalesce cur rs) : cur.start ≤ e.start := by
  induction rs generalizing cur with
  | nil => exact (List.mem_singleton.mp he) ▸ le_rfl
  | cons r rs ih =>
    obtain ⟨hcur, hrest⟩ := List.pairwise_cons.mp h
    rw [coalesce] at he
    split_ifs at he with htouch
    · have hnext : Ordered (cur.extend r :: rs) :=
        List.pairwise_cons.mpr ⟨fun s hs => hcur s (List.mem_cons_of_mem r hs), hrest.tail⟩
      have hstart := ih hnext he
      exact hstart
    · obtain rfl | he := List.mem_cons.mp he
      · exact le_rfl
      · exact (hcur r (List.mem_cons_self ..)).trans (ih hrest he)

/-- The coalesced regions hold what the regions hold. -/
theorem exists_holds_coalesce_iff (h : Ordered (cur :: rs)) (x : α) :
    (∃ e ∈ coalesce cur rs, e.Holds x) ↔ ∃ e ∈ cur :: rs, e.Holds x := by
  induction rs generalizing cur with
  | nil => rfl
  | cons r rs ih =>
    obtain ⟨hcur, hrest⟩ := List.pairwise_cons.mp h
    rw [coalesce]
    split_ifs with htouch
    · have hnext : Ordered (cur.extend r :: rs) :=
        List.pairwise_cons.mpr ⟨fun s hs => hcur s (List.mem_cons_of_mem r hs), hrest.tail⟩
      rw [ih hnext]
      simp only [List.mem_cons, exists_eq_or_imp, holds_extend_iff (hcur r (List.mem_cons_self ..)) htouch x, or_assoc]
    · rw [List.exists_mem_cons_iff, ih hrest]
      simp only [List.mem_cons, exists_eq_or_imp]

/-- There is a gap behind each of the coalesced regions. -/
theorem separated_coalesce (h : Ordered (cur :: rs)) :
    Separated (coalesce cur rs) := by
  induction rs generalizing cur with
  | nil => exact List.pairwise_singleton ..
  | cons r rs ih =>
    obtain ⟨hcur, hrest⟩ := List.pairwise_cons.mp h
    rw [coalesce]
    split_ifs with htouch
    · exact ih (List.pairwise_cons.mpr ⟨fun s hs => hcur s (List.mem_cons_of_mem r hs), hrest.tail⟩)
    · refine List.pairwise_cons.mpr ⟨fun e he => ?_, ih hrest⟩
      exact (not_le.mp htouch).trans_le (start_le_of_mem_coalesce hrest he)

/-- The coalesced regions stand in the order of their starts too. -/
theorem ordered_coalesce (h : Ordered (cur :: rs)) :
    Ordered (coalesce cur rs) := by
  induction rs generalizing cur with
  | nil => exact List.pairwise_singleton ..
  | cons r rs ih =>
    obtain ⟨hcur, hrest⟩ := List.pairwise_cons.mp h
    rw [coalesce]
    split_ifs with htouch
    · exact ih (List.pairwise_cons.mpr ⟨fun s hs => hcur s (List.mem_cons_of_mem r hs), hrest.tail⟩)
    · refine List.pairwise_cons.mpr ⟨fun e he => ?_, ih hrest⟩
      exact (hcur r (List.mem_cons_self ..)).trans (start_le_of_mem_coalesce hrest he)

lemma bounds_of_mem_coalesce {e : Region α} (he : e ∈ coalesce cur rs) :
    (∃ r ∈ cur :: rs, e.start = r.start) ∧ ∃ r ∈ cur :: rs, e.stop = r.stop := by
  induction rs generalizing cur with
  | nil =>
    obtain rfl := List.mem_singleton.mp he
    exact ⟨⟨e, by simp⟩, ⟨e, by simp⟩⟩
  | cons r rs ih =>
    rw [coalesce] at he
    split_ifs at he with htouch
    · obtain ⟨⟨s, hs, hstart⟩, ⟨t, ht, hstop⟩⟩ := ih he
      constructor
      · obtain rfl | hs := List.mem_cons.mp hs
        · exact ⟨cur, by simp, hstart⟩
        · exact ⟨s, by simp [hs], hstart⟩
      · obtain rfl | ht := List.mem_cons.mp ht
        · obtain hmax | hmax := max_choice cur.stop r.stop
          · exact ⟨cur, by simp, by rw [hstop, extend_stop, hmax]⟩
          · exact ⟨r, by simp, by rw [hstop, extend_stop, hmax]⟩
        · exact ⟨t, by simp [ht], hstop⟩
    · obtain rfl | he := List.mem_cons.mp he
      · exact ⟨⟨e, by simp⟩, ⟨e, by simp⟩⟩
      · obtain ⟨⟨s, hs, hstart⟩, ⟨t, ht, hstop⟩⟩ := ih he
        exact ⟨⟨s, List.mem_cons_of_mem _ hs, hstart⟩, ⟨t, List.mem_cons_of_mem _ ht, hstop⟩⟩

end Region

end GitCore
