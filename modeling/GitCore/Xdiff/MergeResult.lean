import GitCore.Xdiff.MergeRun

/-!
# The result of a three-way merge

The hunks of `xdl_do_merge` in their order, the conflicts that are made smaller, and the lines that
come out where no hunk is a conflict.
-/

namespace GitCore.Xdiff

section

variable {α : Type*} (r : α → α → Prop) (base side1 side2 : List α)

/-- The hunks from a position on are in order, and between them both sides have the same lines. -/
def HunksFrom : Pos → List XdMerge → Prop
  | p, [] => p.p0 ≤ base.length ∧ p.p1 ≤ side1.length ∧ p.p2 ≤ side2.length ∧
      List.Forall₂ r (side1.drop p.p1) (side2.drop p.p2)
  | p, m :: rest => ∃ b e, (p.p0 ≤ b.p0 ∧ p.p1 ≤ b.p1 ∧ p.p2 ≤ b.p2) ∧
      List.Forall₂ r (segment side1 p.p1 b.p1) (segment side2 p.p2 b.p2) ∧ HunkAt r base side1 side2 m b e ∧
      HunksFrom e rest

def Merges : Pos → List XdMerge → Prop
  | p, [] => Between r base side1 side2 p ⟨base.length, side1.length, side2.length⟩
  | p, m :: rest => ∃ b e, Between r base side1 side2 p b ∧ HunkAt r base side1 side2 m b e ∧ Merges e rest

inductive Merged : List α → List α → List α → List α → Prop
  | nil : Merged [] [] [] []
  | common {b x y : α} {bs xs ys out : List α} (hx : r b x) (hy : r b y) (h : Merged bs xs ys out) :
      Merged (b :: bs) (x :: xs) (y :: ys) (x :: out)
  | same {x y bs xs ys out : List α} (b : List α) (hxy : List.Forall₂ r x y) (h : Merged bs xs ys out) :
      Merged (b ++ bs) (x ++ xs) (y ++ ys) (x ++ out)
  | first {b y bs xs ys out : List α} (x : List α) (hy : List.Forall₂ r b y) (h : Merged bs xs ys out) :
      Merged (b ++ bs) (x ++ xs) (y ++ ys) (x ++ out)
  | second {b x bs xs ys out : List α} (y : List α) (hx : List.Forall₂ r b x) (h : Merged bs xs ys out) :
      Merged (b ++ bs) (x ++ xs) (y ++ ys) (y ++ out)

variable {r base side1 side2}

lemma Agree.merged {b x y bs xs ys out : List α} (h : Agree r b x y) (hrest : Merged r bs xs ys out) :
    Merged r (b ++ bs) (x ++ xs) (y ++ ys) (x ++ out) := by
  induction h with
  | nil => exact hrest
  | common hx hy _ ih => exact .common hx hy ih
  | same b hxy _ ih =>
    simp only [List.append_assoc]
    exact .same b hxy ih

lemma Merged.mem_second {b x y out : List α} (h : Merged r b x y out) {l : α} (hl : l ∈ y) :
    l ∈ out ∨ (∃ l' ∈ b, r l' l) ∨ ∃ l' ∈ x, r l' l := by
  induction h with
  | nil => simp at hl
  | common hx hy _ ih =>
    obtain rfl | hl := List.mem_cons.mp hl
    · exact .inr (.inl ⟨_, List.mem_cons_self, hy⟩)
    · obtain hout | ⟨l', hl', h⟩ | ⟨l', hl', h⟩ := ih hl
      · exact .inl (List.mem_cons_of_mem _ hout)
      · exact .inr (.inl ⟨l', List.mem_cons_of_mem _ hl', h⟩)
      · exact .inr (.inr ⟨l', List.mem_cons_of_mem _ hl', h⟩)
  | same b hxy _ ih =>
    obtain hl | hl := List.mem_append.mp hl
    · obtain ⟨l', hl', h⟩ := exists_left_of_forall₂ hxy hl
      exact .inr (.inr ⟨l', List.mem_append_left _ hl', h⟩)
    · obtain hout | ⟨l', hl', h⟩ | ⟨l', hl', h⟩ := ih hl
      · exact .inl (List.mem_append_right _ hout)
      · exact .inr (.inl ⟨l', List.mem_append_right _ hl', h⟩)
      · exact .inr (.inr ⟨l', List.mem_append_right _ hl', h⟩)
  | first x hy _ ih =>
    obtain hl | hl := List.mem_append.mp hl
    · obtain ⟨l', hl', h⟩ := exists_left_of_forall₂ hy hl
      exact .inr (.inl ⟨l', List.mem_append_left _ hl', h⟩)
    · obtain hout | ⟨l', hl', h⟩ | ⟨l', hl', h⟩ := ih hl
      · exact .inl (List.mem_append_right _ hout)
      · exact .inr (.inl ⟨l', List.mem_append_right _ hl', h⟩)
      · exact .inr (.inr ⟨l', List.mem_append_right _ hl', h⟩)
  | second y hx _ ih =>
    obtain hl | hl := List.mem_append.mp hl
    · exact .inl (List.mem_append_left _ hl)
    · obtain hout | ⟨l', hl', h⟩ | ⟨l', hl', h⟩ := ih hl
      · exact .inl (List.mem_append_right _ hout)
      · exact .inr (.inl ⟨l', List.mem_append_right _ hl', h⟩)
      · exact .inr (.inr ⟨l', List.mem_append_right _ hl', h⟩)

lemma Built.merges {acc rest : List XdMerge} {e : Pos} (h : Built r base side1 side2 acc e)
    (hrest : Merges r base side1 side2 e rest) : Merges r base side1 side2 ⟨0, 0, 0⟩ (acc.reverse ++ rest) := by
  induction acc generalizing e rest with
  | nil =>
    rw [Built] at h
    rwa [h] at hrest
  | cons m acc ih =>
    obtain ⟨a, b, hbuilt, hbetween, hm⟩ := h
    rw [List.reverse_cons, List.append_assoc]
    exact ih hbuilt ⟨b, e, hbetween, hm, hrest⟩

lemma HunksFrom.retreat {e p : Pos} {hunks : List XdMerge} (h : HunksFrom r base side1 side2 e hunks)
    (h0 : p.p0 = e.p0) (h1 : p.p1 ≤ e.p1) (h2 : p.p2 ≤ e.p2)
    (hsame : List.Forall₂ r (segment side1 p.p1 e.p1) (segment side2 p.p2 e.p2)) :
    HunksFrom r base side1 side2 p hunks := by
  cases hunks with
  | nil =>
    obtain ⟨hle0, hle1, hle2, hrest⟩ := h
    refine ⟨h0.trans_le hle0, h1.trans hle1, h2.trans hle2, ?_⟩
    rw [← segment_length] at hrest ⊢
    rw [← segment_length] at hrest ⊢
    rw [← segment_append _ h1 hle1, ← segment_append _ h2 hle2]
    exact List.rel_append hsame hrest
  | cons m rest =>
    obtain ⟨b, e', ⟨hle0, hle1, hle2⟩, hgap, hm, hrest⟩ := h
    refine ⟨b, e', ⟨h0.trans_le hle0, h1.trans hle1, h2.trans hle2⟩, ?_, hm, hrest⟩
    rw [← segment_append _ h1 hle1, ← segment_append _ h2 hle2]
    exact List.rel_append hsame hgap

lemma Merges.hunksFrom (hr : Equivalence r) {p : Pos} {hunks : List XdMerge} (h : Merges r base side1 side2 p hunks) :
    HunksFrom r base side1 side2 p hunks := by
  induction hunks generalizing p with
  | nil =>
    have hsides := h.agree.sides hr
    rw [segment_length, segment_length] at hsides
    exact ⟨h.le0, h.le1, h.le2, hsides⟩
  | cons m rest ih =>
    obtain ⟨b, e, hbetween, hm, hrest⟩ := h
    exact ⟨b, e, ⟨hbetween.le0, hbetween.le1, hbetween.le2⟩, hbetween.agree.sides hr, hm, ih hrest⟩

lemma lineMatch_getElem {i j : Nat} (h : lineMatch r (side1[i]?) (side2[j]?)) :
    ∃ (hi : i < side1.length) (hj : j < side2.length), r side1[i] side2[j] := by
  cases hi : side1[i]? with
  | none => simp [hi, lineMatch] at h
  | some x =>
    cases hj : side2[j]? with
    | none => simp [hi, hj, lineMatch] at h
    | some y =>
      obtain ⟨hi', rfl⟩ := List.getElem?_eq_some_iff.mp hi
      obtain ⟨hj', rfl⟩ := List.getElem?_eq_some_iff.mp hj
      rw [hi, hj] at h
      exact ⟨hi', hj', h⟩

variable [DecidableRel r]

lemma trimStart_spec (n : Nat) {m : XdMerge} {b e : Pos} (hm : HunkAt r base side1 side2 m b e) (hmode : m.mode = 0) :
    ∃ k, HunkAt r base side1 side2 (trimStart r side1 side2 n m) ⟨b.p0, b.p1 + k, b.p2 + k⟩ e ∧
      (trimStart r side1 side2 n m).mode = 0 ∧
      List.Forall₂ r (segment side1 b.p1 (b.p1 + k)) (segment side2 b.p2 (b.p2 + k)) := by
  induction n generalizing m b with
  | zero => exact ⟨0, hm, hmode, by simp⟩
  | succ n ih =>
    rw [trimStart]
    split_ifs with hcond
    · obtain ⟨hchg1, hchg2, hline⟩ := hcond
      obtain ⟨hi0, hi1, hi2, hend0, hend1, hend2, hle0, hle1, hle2, -⟩ := hm
      rw [hi1, hi2, Int.toNat_natCast, Int.toNat_natCast] at hline
      obtain ⟨hlt1, hlt2, hline⟩ := lineMatch_getElem hline
      have hnext : HunkAt r base side1 side2
          { m with i1 := m.i1 + 1, chg1 := m.chg1 - 1, i2 := m.i2 + 1, chg2 := m.chg2 - 1 }
          ⟨b.p0, b.p1 + 1, b.p2 + 1⟩ e := by
        constructor <;> (try dsimp only) <;> omega
      obtain ⟨k, hm', hmode', hsame⟩ := ih hnext hmode
      refine ⟨k + 1, ?_, hmode', ?_⟩
      · rwa [show b.p1 + (k + 1) = b.p1 + 1 + k by omega, show b.p2 + (k + 1) = b.p2 + 1 + k by omega]
      · rw [← segment_append side1 (Nat.le_succ b.p1) (by omega), ← segment_append side2 (Nat.le_succ b.p2) (by omega),
          segment_one _ hlt1, segment_one _ hlt2, show b.p1 + (k + 1) = b.p1 + 1 + k by omega,
          show b.p2 + (k + 1) = b.p2 + 1 + k by omega]
        exact .cons hline hsame
    · exact ⟨0, hm, hmode, by simp⟩

lemma trimEnd_spec (n : Nat) {m : XdMerge} {b e : Pos} (hm : HunkAt r base side1 side2 m b e) (hmode : m.mode = 0) :
    ∃ k, k ≤ e.p1 ∧ k ≤ e.p2 ∧
      HunkAt r base side1 side2 (trimEnd r side1 side2 n m) b ⟨e.p0, e.p1 - k, e.p2 - k⟩ ∧
      (trimEnd r side1 side2 n m).mode = 0 ∧
      List.Forall₂ r (segment side1 (e.p1 - k) e.p1) (segment side2 (e.p2 - k) e.p2) := by
  induction n generalizing m e with
  | zero => exact ⟨0, Nat.zero_le _, Nat.zero_le _, hm, hmode, by simp⟩
  | succ n ih =>
    rw [trimEnd]
    split_ifs with hcond
    · obtain ⟨hchg1, hchg2, hline⟩ := hcond
      obtain ⟨hi0, hi1, hi2, hend0, hend1, hend2, hle0, hle1, hle2, -⟩ := hm
      rw [hend1, hend2, show ((e.p1 : Int) - 1).toNat = e.p1 - 1 by omega,
        show ((e.p2 : Int) - 1).toNat = e.p2 - 1 by omega] at hline
      obtain ⟨hlt1, hlt2, hline⟩ := lineMatch_getElem hline
      have hnext : HunkAt r base side1 side2 { m with chg1 := m.chg1 - 1, chg2 := m.chg2 - 1 } b
          ⟨e.p0, e.p1 - 1, e.p2 - 1⟩ := by
        constructor <;> (try dsimp only) <;> omega
      obtain ⟨k, hk1, hk2, hm', hmode', hsame⟩ := ih hnext hmode
      dsimp only at hk1 hk2 hm' hsame
      refine ⟨k + 1, by omega, by omega, ?_, hmode', ?_⟩
      · rwa [show e.p1 - (k + 1) = e.p1 - 1 - k by omega, show e.p2 - (k + 1) = e.p2 - 1 - k by omega]
      · have h1 : segment side1 (e.p1 - (k + 1)) e.p1 = segment side1 (e.p1 - 1 - k) (e.p1 - 1) ++ [side1[e.p1 - 1]] := by
          rw [← segment_one _ hlt1, show e.p1 - 1 + 1 = e.p1 by omega, segment_append _ (by omega) (by omega)]
          congr 1
          omega
        have h2 : segment side2 (e.p2 - (k + 1)) e.p2 = segment side2 (e.p2 - 1 - k) (e.p2 - 1) ++ [side2[e.p2 - 1]] := by
          rw [← segment_one _ hlt2, show e.p2 - 1 + 1 = e.p2 by omega, segment_append _ (by omega) (by omega)]
          congr 1
          omega
        rw [h1, h2]
        exact List.rel_append hsame (.cons hline .nil)
    · exact ⟨0, Nat.zero_le _, Nat.zero_le _, hm, hmode, by simp⟩

lemma Merges.refineZdiff3 (hr : Equivalence r) {p : Pos} {hunks : List XdMerge}
    (h : Merges r base side1 side2 p hunks) :
    HunksFrom r base side1 side2 p (hunks.map (refineZdiff3 r side1 side2)) := by
  induction hunks generalizing p with
  | nil => exact h.hunksFrom hr
  | cons m rest ih =>
    obtain ⟨b, e, hbetween, hm, hrest⟩ := h
    have hsides := hbetween.agree.sides hr
    rw [List.map_cons, Xdiff.refineZdiff3]
    by_cases hmode : m.mode ≠ 0
    · rw [if_pos hmode]
      exact ⟨b, e, ⟨hbetween.le0, hbetween.le1, hbetween.le2⟩, hsides, hm, ih hrest⟩
    · rw [if_neg hmode]
      obtain ⟨k, hm', hmode', hsame⟩ := trimStart_spec m.chg1.toNat hm (not_not.mp hmode)
      dsimp only
      generalize trimStart r side1 side2 m.chg1.toNat m = m' at hm' hmode' ⊢
      obtain ⟨j, hj1, hj2, hm'', hmode'', hsame'⟩ := trimEnd_spec m'.chg1.toNat hm' hmode'
      refine ⟨⟨b.p0, b.p1 + k, b.p2 + k⟩, ⟨e.p0, e.p1 - j, e.p2 - j⟩,
        ⟨hbetween.le0, hbetween.le1.trans (Nat.le_add_right _ _), hbetween.le2.trans (Nat.le_add_right _ _)⟩, ?_, hm'', (ih hrest).retreat rfl (Nat.sub_le _ _) (Nat.sub_le _ _) hsame'⟩
      dsimp only
      rw [← segment_append _ hbetween.le1 (Nat.le_add_right _ _), ← segment_append _ hbetween.le2 (Nat.le_add_right _ _)]
      exact List.rel_append hsides hsame

lemma trimStart_base (n : Nat) (m : XdMerge) :
    (trimStart r side1 side2 n m).mode = m.mode ∧ (trimStart r side1 side2 n m).i0 = m.i0 ∧
      (trimStart r side1 side2 n m).chg0 = m.chg0 := by
  induction n generalizing m with
  | zero => exact ⟨rfl, rfl, rfl⟩
  | succ n ih =>
    rw [trimStart]
    split_ifs
    · exact ih _
    · exact ⟨rfl, rfl, rfl⟩

lemma trimEnd_base (n : Nat) (m : XdMerge) :
    (trimEnd r side1 side2 n m).mode = m.mode ∧ (trimEnd r side1 side2 n m).i0 = m.i0 ∧
      (trimEnd r side1 side2 n m).chg0 = m.chg0 := by
  induction n generalizing m with
  | zero => exact ⟨rfl, rfl, rfl⟩
  | succ n ih =>
    rw [trimEnd]
    split_ifs
    · exact ih _
    · exact ⟨rfl, rfl, rfl⟩

lemma refineZdiff3_base {m : XdMerge} :
    (refineZdiff3 r side1 side2 m).mode = m.mode ∧ (refineZdiff3 r side1 side2 m).i0 = m.i0 ∧
      (refineZdiff3 r side1 side2 m).chg0 = m.chg0 := by
  rw [refineZdiff3]
  split_ifs
  · exact ⟨rfl, rfl, rfl⟩
  · obtain ⟨hmode, hi0, hchg0⟩ := @trimStart_base _ r side1 side2 _ m.chg1.toNat m
    dsimp only
    generalize trimStart r side1 side2 m.chg1.toNat m = m' at *
    obtain ⟨hmode', hi0', hchg0'⟩ := @trimEnd_base _ r side1 side2 _ m'.chg1.toNat m'
    exact ⟨hmode'.trans hmode, hi0'.trans hi0, hchg0'.trans hchg0⟩

lemma Covered.refineZdiff3 {x : Nat} {hunks : List XdMerge} (h : Covered x hunks) :
    Covered x (hunks.map (refineZdiff3 r side1 side2)) := by
  obtain ⟨m, hm, hmode, hx⟩ := h
  obtain ⟨hmode', hi0, hchg0⟩ := @refineZdiff3_base _ r side1 side2 _ m
  exact ⟨_, List.mem_map_of_mem hm, hmode'.trans hmode, by rwa [hi0, hchg0]⟩

variable (level style : Nat) {xscr1 xscr2 : List XdChange}

lemma mergeLoop_merges (hr : Equivalence r) (h1 : ValidScript r base side1 0 0 xscr1)
    (h2 : ValidScript r base side2 0 0 xscr2) :
    Merges r base side1 side2 ⟨0, 0, 0⟩ (mergeLoop r base side1 side2 level xscr1 xscr2 []).reverse ∧
      ∀ x, ChangedApart r side1 side2 level xscr1 xscr2 x →
        Covered x (mergeLoop r base side1 side2 level xscr1 xscr2 []).reverse := by
  have hstart : MergeState r base side1 side2 xscr1 xscr2 [] :=
    .inl ⟨⟨0, 0, 0⟩, ⟨0, 0, 0⟩, rfl, Between.refl (Nat.zero_le _) (Nat.zero_le _) (Nat.zero_le _), h1, h2,
      fun h => absurd rfl h⟩
  have hrun : MergedFrom r base side1 side2 level xscr1 xscr2 [] _ := mergeLoop_built hr hstart h1.apart h2.apart
  obtain ⟨⟨e, hbuilt, hbetween⟩, hcovered⟩ := hrun
  refine ⟨?_, fun x hx => ?_⟩
  · have := @Built.merges _ _ _ _ _ _ [] _ hbuilt hbetween
    rwa [List.append_nil] at this
  · obtain ⟨m, hm, hmode, hx⟩ := hcovered x (.inr hx)
    exact ⟨m, List.mem_reverse.mpr hm, hmode, hx⟩

theorem mergeHunks_spec (hr : Equivalence r) (h1 : ValidScript r base side1 0 0 xscr1)
    (h2 : ValidScript r base side2 0 0 xscr2) :
    HunksFrom r base side1 side2 ⟨0, 0, 0⟩ (mergeHunks r base side1 side2 level style xscr1 xscr2) ∧
      ∀ x, ChangedApart r side1 side2 level xscr1 xscr2 x →
        Covered x (mergeHunks r base side1 side2 level style xscr1 xscr2) := by
  obtain ⟨hmerges, hcovered⟩ := mergeLoop_merges level hr h1 h2
  rw [mergeHunks]
  split_ifs
  · exact ⟨hmerges.refineZdiff3 hr, fun x hx => (hcovered x hx).refineZdiff3⟩
  · exact ⟨hmerges.hunksFrom hr, hcovered⟩

lemma mergeHunks_merges (hr : Equivalence r) (h1 : ValidScript r base side1 0 0 xscr1)
    (h2 : ValidScript r base side2 0 0 xscr2)
    (hclean : ∀ m ∈ mergeHunks r base side1 side2 level style xscr1 xscr2, m.mode ≠ 0) :
    Merges r base side1 side2 ⟨0, 0, 0⟩ (mergeHunks r base side1 side2 level style xscr1 xscr2) := by
  obtain ⟨hmerges, -⟩ := mergeLoop_merges level hr h1 h2
  rw [mergeHunks] at hclean ⊢
  split_ifs at hclean ⊢
  · have hid : ∀ m ∈ (mergeLoop r base side1 side2 level xscr1 xscr2 []).reverse, refineZdiff3 r side1 side2 m = id m := by
      intro m hm
      have hmode := hclean _ (List.mem_map_of_mem hm)
      rw [refineZdiff3_base.1] at hmode
      rw [refineZdiff3, if_pos hmode]
      rfl
    rwa [List.map_congr_left hid, List.map_id]
  · exact hmerges

end

section Output

variable {base side1 side2 : List (List UInt8)} {recmatch : List UInt8 → List UInt8 → Prop} [DecidableRel recmatch]

lemma recsCopy_segment (recs : List (List UInt8)) {a b : Nat} (h : a ≤ b) (needsCr : Bool) :
    recsCopy recs a ((b : Int) - a) needsCr false = (segment recs a b).flatten := by
  rw [recsCopy, show ((b : Int) - a).toNat = b - a by omega, Int.toNat_natCast]
  by_cases hcount : (b : Int) - a < 1
  · rw [if_pos hcount, show b = a by omega, segment_self]
    rfl
  · rw [if_neg hcount]
    dsimp only
    rw [if_neg (by simp), List.append_nil, segment]

omit [DecidableRel recmatch] in
lemma Merges.fillMergeBuffer (xmp : XmParam) {p : Pos} {hunks : List XdMerge}
    (h : Merges recmatch base side1 side2 p hunks) (hclean : ∀ m ∈ hunks, m.mode ≠ 0) :
    ∃ out, fillMergeBuffer base side1 side2 xmp p.p1 hunks = out.flatten ∧
      Merged recmatch (base.drop p.p0) (side1.drop p.p1) (side2.drop p.p2) out := by
  induction hunks generalizing p with
  | nil =>
    refine ⟨side1.drop p.p1, ?_, ?_⟩
    · rw [← segment_length]
      exact recsCopy_segment side1 h.le1 false
    have := h.agree.merged Merged.nil
    simp only [List.append_nil] at this
    rwa [segment_length, segment_length, segment_length] at this
  | cons m rest ih =>
    obtain ⟨b, e, hbetween, hm, hrest⟩ := h
    obtain ⟨hmode, hclean⟩ := List.forall_mem_cons.mp hclean
    obtain ⟨out, hout, hmerged⟩ := ih hrest hclean
    have hfavor : favorMode xmp.favor m = m := if_neg fun h => hmode h.2
    have hcopy1 : m.chg1 = (e.p1 : Int) - b.p1 := by
      have := hm.end1
      have := hm.i1
      omega
    have hcopy2 : m.chg2 = (e.p2 : Int) - b.p2 := by
      have := hm.end2
      have := hm.i2
      omega
    rw [Xdiff.fillMergeBuffer, hfavor, if_neg hmode, hm.end1, hm.i1, hm.i2, hcopy1, hcopy2, hout,
      recsCopy_segment side1 hbetween.le1, ← segment_append_drop base hbetween.le0, ← segment_append_drop base hm.le0,
      ← segment_append_drop side1 hbetween.le1, ← segment_append_drop side1 hm.le1,
      ← segment_append_drop side2 hbetween.le2, ← segment_append_drop side2 hm.le2]
    have hmode' : m.mode = 1 ∨ m.mode = 2 := by
      have := hm.mode
      omega
    obtain hval | hval := hmode'
    · refine ⟨segment side1 p.p1 b.p1 ++ (segment side1 b.p1 e.p1 ++ out), ?_,
        hbetween.agree.merged (.first _ (hm.first hval) hmerged)⟩
      simp [hval, recsCopy_segment side1 hm.le1]
    · refine ⟨segment side1 p.p1 b.p1 ++ (segment side2 b.p2 e.p2 ++ out), ?_,
        hbetween.agree.merged (.second _ (hm.second hval) hmerged)⟩
      simp [hval, recsCopy_segment side2 hm.le2]

variable (xmp : XmParam) {xscr1 xscr2 : List XdChange}

/-- Where no hunk is a conflict the result has the changes of both sides and nothing else. -/
theorem doMerge_spec (hr : Equivalence recmatch) (h1 : ValidScript recmatch base side1 0 0 xscr1)
    (h2 : ValidScript recmatch base side2 0 0 xscr2) :
    let hunks := mergeHunks recmatch base side1 side2 xmp.level xmp.style xscr1 xscr2
    let result := doMerge base side1 side2 recmatch xmp xscr1 xscr2
    (HunksFrom recmatch base side1 side2 ⟨0, 0, 0⟩ hunks ∧
      ∀ x, ChangedApart recmatch side1 side2 xmp.level xscr1 xscr2 x → Covered x hunks) ∧
    (xmp.favor = 0 → (result.2 = 0 ↔ ∀ m ∈ hunks, m.mode ≠ 0)) ∧
    ((∀ m ∈ hunks, m.mode ≠ 0) → ∃ out, result.1 = out.flatten ∧ Merged recmatch base side1 side2 out) := by
  dsimp only
  refine ⟨mergeHunks_spec xmp.level xmp.style hr h1 h2, fun hfavor => ?_, fun hclean => ?_⟩
  · have hid : ∀ m, favorMode xmp.favor m = m := fun m => if_neg fun h => h.1 hfavor
    simp [doMerge, hid]
  · exact (mergeHunks_merges xmp.level xmp.style hr h1 h2 hclean).fillMergeBuffer xmp hclean

end Output

section Example

def letterLine (c : UInt8) : List UInt8 := [c, 0x0a]

/-- Git's default level, and `favor` as given. -/
def favoring (favor : Nat) : XmParam := ⟨7, XDL_MERGE_EAGER, favor, 0, [], [], []⟩

/-- Both sides replace the only line; the first one is favoured. -/
theorem doMerge_favor :
    let script : List XdChange := [⟨0, 0, 1, 1, false⟩]
    ValidScript Eq [letterLine 97] [letterLine 98] 0 0 script ∧
      ValidScript Eq [letterLine 97] [letterLine 99] 0 0 script ∧
      (doMerge [letterLine 97] [letterLine 98] [letterLine 99] Eq (favoring 1) script script).2 = 0 ∧
      ¬∃ out, (doMerge [letterLine 97] [letterLine 98] [letterLine 99] Eq (favoring 1) script script).1 = out.flatten ∧
        Merged Eq [letterLine 97] [letterLine 98] [letterLine 99] out := by
  dsimp only
  have hvalid : ∀ c, ValidScript Eq [letterLine 97] [letterLine c] 0 0 [⟨0, 0, 1, 1, false⟩] := by
    intro c
    simp [ValidScript, XdChange.end1, XdChange.end2]
  refine ⟨hvalid 98, hvalid 99, by decide +kernel, ?_⟩
  rintro ⟨out, hout, hmerged⟩
  have hresult : (doMerge [letterLine 97] [letterLine 98] [letterLine 99] Eq (favoring 1) [⟨0, 0, 1, 1, false⟩]
      [⟨0, 0, 1, 1, false⟩]).1 = letterLine 98 := by
    decide +kernel
  rw [hresult] at hout
  obtain hl | ⟨l, hl, heq⟩ | ⟨l, hl, heq⟩ := hmerged.mem_second (List.mem_singleton.mpr rfl)
  · have : (99 : UInt8) ∈ out.flatten := List.mem_flatten.mpr ⟨_, hl, by decide⟩
    rw [← hout] at this
    revert this
    decide
  · rw [List.mem_singleton.mp hl] at heq
    revert heq
    decide
  · rw [List.mem_singleton.mp hl] at heq
    revert heq
    decide

theorem doMerge_spec_two :
    ∃ out, (doMerge [letterLine 97, letterLine 98, letterLine 99] [letterLine 100, letterLine 98, letterLine 99]
      [letterLine 97, letterLine 98, letterLine 101] Eq (favoring 0) [⟨0, 0, 1, 1, false⟩] [⟨2, 2, 1, 1, false⟩]).1 =
        out.flatten ∧
      Merged Eq [letterLine 97, letterLine 98, letterLine 99] [letterLine 100, letterLine 98, letterLine 99]
        [letterLine 97, letterLine 98, letterLine 101] out := by
  have hspec := @doMerge_spec [letterLine 97, letterLine 98, letterLine 99] [letterLine 100, letterLine 98, letterLine 99]
    [letterLine 97, letterLine 98, letterLine 101] Eq _ (favoring 0) [⟨0, 0, 1, 1, false⟩] [⟨2, 2, 1, 1, false⟩]
    ⟨fun _ => rfl, Eq.symm, Eq.trans⟩ (by simp [ValidScript, XdChange.end1, XdChange.end2, segment])
    (by simp [ValidScript, XdChange.end1, XdChange.end2, segment])
  exact hspec.2.2 (by decide +kernel)

end Example

end GitCore.Xdiff
