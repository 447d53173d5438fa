import Mathlib.Order.Basic
import Mathlib.Tactic

/-!
# Overlays of sorted tables

A table is a list of records sorted by key. In a stack of tables, the oldest first, a record
is shadowed by any record with its key in a later table.
-/

namespace GitCore.Overlay

variable {R K : Type*} [LinearOrder K] (key : R → K)

def Sorted (table : List R) : Prop :=
  table.Pairwise (fun a b => key a < key b)

def find (table : List R) (k : K) : Option R :=
  table.find? (fun r => key r = k)

/-- The record with key `k` in the newest table that has one. -/
def newest : List (List R) → K → Option R
  | [], _ => none
  | table :: tables, k => (newest tables k).or (find key table k)

variable {key} {table : List R}

lemma Sorted.eq_of_key_eq (h : Sorted key table) {a b : R} (ha : a ∈ table)
    (hb : b ∈ table) (hkey : key a = key b) : a = b := by
  induction table with
  | nil => simp at ha
  | cons c table ih =>
    obtain ⟨hc, htail⟩ := List.pairwise_cons.mp h
    cases ha with
    | head =>
      cases hb with
      | head => rfl
      | tail _ hb => exact absurd hkey (hc b hb).ne
    | tail _ ha =>
      cases hb with
      | head => exact absurd hkey.symm (hc a ha).ne
      | tail _ hb => exact ih htail ha hb

lemma find_eq_some (h : Sorted key table) {k : K} {r : R} :
    find key table k = some r ↔ r ∈ table ∧ key r = k := by
  constructor
  · intro hf
    exact ⟨List.mem_of_find?_eq_some hf, by simpa using List.find?_some hf⟩
  · rintro ⟨hmem, rfl⟩
    cases hf : find key table (key r) with
    | none => exact absurd (List.find?_eq_none.mp hf r hmem) (by simp)
    | some s =>
      have hs : key s = key r := by simpa using List.find?_some hf
      rw [h.eq_of_key_eq (List.mem_of_find?_eq_some hf) hmem hs]

lemma find_eq_none {k : K} : find key table k = none ↔ ∀ r ∈ table, key r ≠ k := by
  simp [find]

lemma Sorted.mem_dropWhile (h : Sorted key table) {k : K} {before : R → Bool}
    (hbefore : ∀ s, before s = true ↔ key s < k) {r : R} :
    r ∈ table.dropWhile before ↔ r ∈ table ∧ k ≤ key r := by
  induction table with
  | nil => simp
  | cons s table ih =>
    obtain ⟨hs, htail⟩ := List.pairwise_cons.mp h
    by_cases hlt : before s = true
    · rw [List.dropWhile_cons_of_pos hlt, ih htail, List.mem_cons]
      constructor
      · rintro ⟨hr, hk⟩
        exact ⟨.inr hr, hk⟩
      · rintro ⟨rfl | hr, hk⟩
        · exact absurd ((hbefore _).mp hlt) (not_lt_of_ge hk)
        · exact ⟨hr, hk⟩
    · rw [List.dropWhile_cons_of_neg hlt]
      refine ⟨fun hr => ⟨hr, ?_⟩, And.left⟩
      have hks : k ≤ key s := not_lt.mp ((hbefore s).not.mp hlt)
      rcases List.mem_cons.mp hr with rfl | hr
      · exact hks
      · exact hks.trans (hs r hr).le

lemma newest_eq_none {tables : List (List R)} {k : K} :
    newest key tables k = none ↔ ∀ table ∈ tables, ∀ r ∈ table, key r ≠ k := by
  induction tables with
  | nil => simp [newest]
  | cons table tables ih => simp [newest, ih, find_eq_none, and_comm]

lemma newest_append (older newer : List (List R)) (k : K) :
    newest key (older ++ newer) k = (newest key newer k).or (newest key older k) := by
  induction older with
  | nil => simp [newest]
  | cons table older ih => rw [List.cons_append, newest, newest, ih, Option.or_assoc]

@[simp]
lemma newest_nil (k : K) : newest key ([] : List (List R)) k = none := rfl

@[simp]
lemma newest_singleton (table : List R) (k : K) : newest key [table] k = find key table k := by
  simp [newest]

lemma newest_nil_cons (older newer : List (List R)) (k : K) :
    newest key (older ++ [] :: newer) k = newest key (older ++ newer) k := by
  have hnone : find key ([] : List R) k = none := rfl
  simp [newest_append, newest, hnone]

lemma newest_eq_some {tables : List (List R)} (h : ∀ table ∈ tables, Sorted key table) {k : K} {r : R} :
    newest key tables k = some r ↔ key r = k ∧ ∃ i : Nat, (∃ table, tables[i]? = some table ∧ r ∈ table) ∧
      ∀ (j : Nat) (table : List R) (s : R), tables[j]? = some table → s ∈ table → key s = k → j ≤ i := by
  induction tables with
  | nil => simp
  | cons table tables ih =>
    have ih := ih fun t ht => h t (by simp [ht])
    have hfind := find_eq_some (h table (by simp)) (k := k) (r := r)
    rw [newest, Option.or_eq_some_iff]
    constructor
    · rintro (hn | ⟨hnone, hf⟩)
      · obtain ⟨hk, i, ⟨t, ht, hr⟩, hmax⟩ := ih.mp hn
        refine ⟨hk, i + 1, ⟨t, by simpa using ht, hr⟩, fun j t' s hj hs hks => ?_⟩
        cases j with
        | zero => omega
        | succ j => exact Nat.succ_le_succ (hmax j t' s (by simpa using hj) hs hks)
      · obtain ⟨hr, hk⟩ := hfind.mp hf
        refine ⟨hk, 0, ⟨table, rfl, hr⟩, fun j t' s hj hs hks => ?_⟩
        cases j with
        | zero => exact le_rfl
        | succ j => exact absurd hks (newest_eq_none.mp hnone t' (List.mem_of_getElem? (by simpa using hj)) s hs)
    · rintro ⟨hk, i, ⟨t, ht, hr⟩, hmax⟩
      cases i with
      | zero =>
        obtain rfl : table = t := by simpa using ht
        refine .inr ⟨newest_eq_none.mpr fun t' ht' s hs hks => ?_, hfind.mpr ⟨hr, hk⟩⟩
        obtain ⟨j, hj⟩ := List.getElem?_of_mem ht'
        exact absurd (hmax (j + 1) t' s (by simpa using hj) hs hks) (by omega)
      | succ i =>
        refine .inl (ih.mpr ⟨hk, i, ⟨t, by simpa using ht, hr⟩, fun j t' s hj hs hks => ?_⟩)
        exact Nat.le_of_succ_le_succ (hmax (j + 1) t' s (by simpa using hj) hs hks)

lemma find_filter (h : Sorted key table) (keep : R → Bool) (k : K) :
    find key (table.filter keep) k = (find key table k).filter keep := by
  have hsub : Sorted key (table.filter keep) := h.sublist List.filter_sublist
  apply Option.ext
  intro r
  rw [find_eq_some hsub, List.mem_filter, Option.filter_eq_some_iff, find_eq_some h]
  tauto

lemma newest_replace {older mid : List (List R)} (newer : List (List R)) {table : List R} {visible : R → Bool} {k : K}
    (h : find key table k = newest key mid k ∨
      older = [] ∧ find key table k = (newest key mid k).filter visible) :
    (newest key (older ++ table :: newer) k).filter visible =
      (newest key (older ++ mid ++ newer) k).filter visible := by
  have hcons : older ++ table :: newer = older ++ [table] ++ newer := by simp
  rw [hcons, newest_append, newest_append, newest_append, newest_append, newest_singleton]
  rcases h with h | ⟨rfl, h⟩
  · rw [h]
  · rw [h]
    cases newest key newer k with
    | some r => rfl
    | none => simp [Option.filter_filter]

end GitCore.Overlay
