import Mathlib.Data.List.Chain
import Mathlib.Data.List.GetD
import Mathlib.Tactic

/-!
# Segments for automatic compaction

`suggest_compaction_segment`: which tables to merge so that the sizes become a geometric
sequence again.
-/

namespace GitCore.Stack

structure Segment where
  start : Nat
  stop : Nat
  bytes : UInt64
deriving DecidableEq

def defaultGeometricFactor : UInt8 := 2

def segmentEnd (sizes : List UInt64) (factor : UInt64) : Nat → Option Nat
  | 0 => none
  | i + 1 =>
    if sizes.getD i 0 < sizes.getD (i + 1) 0 * factor then some (i + 1) else segmentEnd sizes factor i

def segmentStart (sizes : List UInt64) (factor : UInt64) : Nat → UInt64 → Segment → Segment
  | 0, _, seg => seg
  | i + 1, curr, seg =>
    let bytes := curr + sizes.getD i 0
    segmentStart sizes factor i bytes
      (if sizes.getD i 0 < curr * factor then { seg with start := i, bytes := bytes } else seg)

def suggestCompactionSegment (sizes : List UInt64) (factor : UInt8) : Segment :=
  let factor := (if factor = 0 then defaultGeometricFactor else factor).toUInt64
  match segmentEnd sizes factor (sizes.length - 1) with
  | none => ⟨0, 0, 0⟩
  | some i => segmentStart sizes factor i (sizes.getD i 0) ⟨0, i + 1, 0⟩

example : suggestCompactionSegment [512, 64, 17, 16, 9, 9, 9, 16, 2, 16] 2 = ⟨1, 10, 158⟩ := by decide

variable {sizes : List UInt64}

lemma segmentEnd_spec {factor : UInt64} {n i : Nat}
    (h : segmentEnd sizes factor n = some i) :
    0 < i ∧ i ≤ n ∧ sizes.getD (i - 1) 0 < sizes.getD i 0 * factor := by
  induction n with
  | zero => simp [segmentEnd] at h
  | succ n ih =>
    rw [segmentEnd] at h
    split_ifs at h with hlt
    · cases h
      exact ⟨by omega, le_rfl, hlt⟩
    · obtain ⟨hpos, hle, hlt⟩ := ih h
      exact ⟨hpos, by omega, hlt⟩

lemma segmentStart_stop (sizes : List UInt64) (factor : UInt64) (i : Nat) (curr : UInt64) (seg : Segment) :
    (segmentStart sizes factor i curr seg).stop = seg.stop := by
  induction i generalizing curr seg with
  | zero => rfl
  | succ i ih =>
    rw [segmentStart, ih]
    split <;> rfl

lemma segmentStart_start_le {factor : UInt64} {i bound : Nat} {curr : UInt64}
    {seg : Segment} (hi : i ≤ bound) (hseg : seg.start ≤ bound) :
    (segmentStart sizes factor i curr seg).start ≤ bound := by
  induction i generalizing curr seg with
  | zero => exact hseg
  | succ i ih =>
    rw [segmentStart]
    refine ih (by omega) ?_
    split
    · show i ≤ bound
      omega
    · exact hseg

lemma segmentStart_start_le_of_segmentEnd {factor : UInt64} {n i : Nat}
    (h : segmentEnd sizes factor n = some i) :
    (segmentStart sizes factor i (sizes.getD i 0) ⟨0, i + 1, 0⟩).start + 1 ≤ i := by
  obtain ⟨hpos, hle, hlt⟩ := segmentEnd_spec h
  obtain ⟨i, rfl⟩ := Nat.exists_eq_add_one.mpr hpos
  rw [Nat.add_sub_cancel] at hlt
  rw [segmentStart]
  exact Nat.succ_le_succ (segmentStart_start_le le_rfl (by rw [if_pos hlt]))

theorem suggestCompactionSegment_bounds {factor : UInt8}
    (h : 0 < (suggestCompactionSegment sizes factor).stop - (suggestCompactionSegment sizes factor).start) :
    (suggestCompactionSegment sizes factor).start + 1 < (suggestCompactionSegment sizes factor).stop ∧
      (suggestCompactionSegment sizes factor).stop ≤ sizes.length := by
  unfold suggestCompactionSegment at h ⊢
  generalize (if factor = 0 then defaultGeometricFactor else factor).toUInt64 = factor at h ⊢
  simp only at h ⊢
  cases hend : segmentEnd sizes factor (sizes.length - 1) with
  | none => simp [hend] at h
  | some i =>
    obtain ⟨-, hle, -⟩ := segmentEnd_spec hend
    have hstart := segmentStart_start_le_of_segmentEnd hend
    simp only [segmentStart_stop]
    omega

end GitCore.Stack

/-!
# Segments that make the sizes geometric

A list of table sizes is geometric when each size is at least a factor times the next one. Merging the
tables of a suggested segment into one table of their summed size makes the list geometric, and no
segment is suggested for a list that is.
-/

namespace GitCore.Stack

/-- Each size is at least `factor` times the next one. -/
def Geometric (factor : Nat) (sizes : List Nat) : Prop :=
  sizes.IsChain fun older newer => factor * newer ≤ older

instance (factor : Nat) (sizes : List Nat) : Decidable (Geometric factor sizes) :=
  inferInstanceAs (Decidable (sizes.IsChain fun older newer => factor * newer ≤ older))

/-- The summed size of the tables from `start` on and before `stop`. -/
def sumRange (sizes : List Nat) (start stop : Nat) : Nat :=
  ((sizes.take stop).drop start).sum

/-- The sizes after the tables from `start` on and before `stop` were merged. -/
def mergeRange (sizes : List Nat) (start stop : Nat) : List Nat :=
  sizes.take start ++ sumRange sizes start stop :: sizes.drop stop

lemma sumRange_succ {sizes : List Nat} {start stop : Nat} (h : start < stop) (hstop : stop ≤ sizes.length) :
    sumRange sizes start stop = sizes.getD start 0 + sumRange sizes (start + 1) stop := by
  have hlt : start < (sizes.take stop).length := by
    rw [List.length_take]
    omega
  rw [sumRange, List.drop_eq_getElem_cons hlt, List.sum_cons, List.getElem_take, sumRange,
    List.getD_eq_getElem _ _ (h.trans_le hstop)]

lemma sumRange_self (sizes : List Nat) (stop : Nat) : sumRange sizes stop stop = 0 := by
  rw [sumRange, List.drop_eq_nil_of_le (List.length_take_le _ _), List.sum_nil]

lemma le_sumRange {sizes : List Nat} {start stop : Nat} (h : start < stop) (hstop : stop ≤ sizes.length) :
    sizes.getD start 0 ≤ sumRange sizes start stop := by
  rw [sumRange_succ h hstop]
  exact Nat.le_add_right _ _

lemma getD_le_sumRange {sizes : List Nat} {start k stop : Nat} (hk : start ≤ k) (h : k < stop)
    (hstop : stop ≤ sizes.length) : sizes.getD k 0 ≤ sumRange sizes start stop := by
  induction hk using Nat.decreasingInduction with
  | self => exact le_sumRange h hstop
  | of_succ n hn ih =>
    rw [sumRange_succ (lt_of_lt_of_le (Nat.lt_of_lt_of_le hn le_rfl) h.le) hstop]
    exact ih.trans (Nat.le_add_left _ _)

lemma geometric_iff {factor : Nat} {sizes : List Nat} :
    Geometric factor sizes ↔ ∀ i, i + 1 < sizes.length → factor * sizes.getD (i + 1) 0 ≤ sizes.getD i 0 := by
  rw [Geometric, List.isChain_iff_getElem]
  constructor
  · intro h i hi
    rw [List.getD_eq_getElem _ _ hi, List.getD_eq_getElem _ _ (Nat.lt_of_succ_lt hi)]
    exact h i hi
  · intro h i hi
    have hle := h i hi
    rwa [List.getD_eq_getElem _ _ hi, List.getD_eq_getElem _ _ (Nat.lt_of_succ_lt hi)] at hle

theorem geometric_mergeRange {factor start stop : Nat} {sizes : List Nat} (h : start < stop)
    (hstop : stop ≤ sizes.length)
    (hhead : ∀ k < start, factor * sumRange sizes (k + 1) stop ≤ sizes.getD k 0)
    (htail : ∀ k, stop ≤ k + 1 → k + 1 < sizes.length → factor * sizes.getD (k + 1) 0 ≤ sizes.getD k 0) :
    Geometric factor (mergeRange sizes start stop) := by
  rw [geometric_iff]
  intro i hi
  have hlen : (sizes.take start).length = start := List.length_take_of_le (h.le.trans hstop)
  have hget : ∀ k, (mergeRange sizes start stop).getD k 0 =
      if k < start then sizes.getD k 0 else if k = start then sumRange sizes start stop
      else sizes.getD (stop + (k - start - 1)) 0 := by
    intro k
    simp only [mergeRange, List.getD_eq_getElem?_getD, List.getElem?_append, hlen]
    split
    · next hk => rw [List.getElem?_take_of_lt hk]
    · next hk =>
      split
      · next heq => simp [heq]
      · next hne =>
        obtain ⟨j, rfl⟩ : ∃ j, k = start + j + 1 := ⟨k - start - 1, by omega⟩
        rw [show start + j + 1 - start = j + 1 by omega, List.getElem?_cons_succ, List.getElem?_drop,
          Nat.add_sub_cancel]
  have hcount : (mergeRange sizes start stop).length = start + 1 + (sizes.length - stop) := by
    rw [mergeRange, List.length_append, hlen, List.length_cons, List.length_drop]
    omega
  rw [hcount] at hi
  rw [hget, hget]
  rcases lt_trichotomy (i + 1) start with hlt | heq | hgt
  · rw [if_pos hlt, if_pos (by omega)]
    have hsum : sizes.getD (i + 1) 0 ≤ sumRange sizes (i + 1) stop := le_sumRange (by omega) hstop
    exact (Nat.mul_le_mul_left factor hsum).trans (hhead i (by omega))
  · rw [if_neg (by omega), if_pos heq, if_pos (by omega), ← heq]
    exact hhead i (by omega)
  · rw [if_neg (by omega), if_neg (by omega), if_neg (by omega)]
    have hnext := htail (stop + (i + 1 - start - 1) - 1) (by omega) (by omega)
    rw [Nat.sub_add_cancel (by omega)] at hnext
    refine hnext.trans ?_
    by_cases heq : i = start
    · rw [if_pos heq, show stop + (i + 1 - start - 1) - 1 = stop - 1 by omega]
      exact getD_le_sumRange (by omega) (by omega) hstop
    · rw [if_neg heq, show stop + (i + 1 - start - 1) - 1 = stop + (i - start - 1) by omega]

def geometricFactor (factor : UInt8) : Nat :=
  (if factor = 0 then defaultGeometricFactor else factor).toNat

def toNats (sizes : List UInt64) : List Nat :=
  sizes.map UInt64.toNat

/-- The sums of the sizes fit 64 bits, and so do their products with the factor. No product is taken with
the size of the oldest table. -/
def SizesFit (factor : Nat) (sizes : List UInt64) : Prop :=
  (toNats sizes).sum < 2 ^ 64 ∧ factor * (toNats sizes).tail.sum < 2 ^ 64

instance (factor : Nat) (sizes : List UInt64) : Decidable (SizesFit factor sizes) :=
  inferInstanceAs (Decidable (_ ∧ _))

lemma toNats_length (sizes : List UInt64) : (toNats sizes).length = sizes.length :=
  List.length_map _

lemma toNats_getD (sizes : List UInt64) (i : Nat) : (sizes.getD i 0).toNat = (toNats sizes).getD i 0 :=
  (List.getD_map sizes 0 UInt64.toNat).symm

lemma lt_mul_iff {a b c : UInt64} (h : c.toNat * b.toNat < 2 ^ 64) : a < b * c ↔ ¬c.toNat * b.toNat ≤ a.toNat := by
  rw [UInt64.lt_iff_toNat_lt, UInt64.toNat_mul, Nat.mul_comm, Nat.mod_eq_of_lt h, not_le]

section Suggest

variable {sizes : List UInt64} {factor : UInt64}

lemma sumRange_le_tail {nats : List Nat} (start stop : Nat) : sumRange nats (start + 1) stop ≤ nats.tail.sum := by
  have hsub : ((nats.take stop).drop (start + 1)).Sublist nats.tail := by
    rw [← List.drop_one, ← Nat.add_comm 1, ← List.drop_drop]
    exact (List.drop_sublist _ _).trans ((List.take_sublist _ _).drop 1)
  exact hsub.sum_le_sum fun _ _ => Nat.zero_le _

lemma sumRange_le_sum {nats : List Nat} (start stop : Nat) : sumRange nats start stop ≤ nats.sum := by
  have hsub : ((nats.take stop).drop start).Sublist nats := (List.drop_sublist _ _).trans (List.take_sublist _ _)
  exact hsub.sum_le_sum fun _ _ => Nat.zero_le _

lemma getD_succ_le_tail (nats : List Nat) (i : Nat) : nats.getD (i + 1) 0 ≤ nats.tail.sum := by
  by_cases h : i + 1 < nats.length
  · exact (le_sumRange (Nat.lt_succ_self _) h).trans (sumRange_le_tail i (i + 2))
  · rw [List.getD_eq_default _ _ (not_lt.mp h)]
    exact Nat.zero_le _

lemma violates_iff (hfit : SizesFit factor.toNat sizes) (i : Nat) :
    sizes.getD i 0 < sizes.getD (i + 1) 0 * factor ↔
      ¬factor.toNat * (toNats sizes).getD (i + 1) 0 ≤ (toNats sizes).getD i 0 := by
  rw [← toNats_getD, ← toNats_getD]
  apply lt_mul_iff
  rw [toNats_getD]
  exact (Nat.mul_le_mul_left _ (getD_succ_le_tail _ i)).trans_lt hfit.2

lemma segmentEnd_eq_none_iff (hfit : SizesFit factor.toNat sizes) (n : Nat) :
    segmentEnd sizes factor n = none ↔
      ∀ i < n, factor.toNat * (toNats sizes).getD (i + 1) 0 ≤ (toNats sizes).getD i 0 := by
  induction n with
  | zero => simp [segmentEnd]
  | succ n ih =>
    rw [segmentEnd]
    split
    · next hlt =>
      have hviolates := (violates_iff hfit n).mp hlt
      simp only [reduceCtorEq, false_iff, not_forall]
      exact ⟨n, Nat.lt_succ_self n, hviolates⟩
    · next hge =>
      rw [violates_iff hfit, not_not] at hge
      rw [ih]
      constructor
      · intro h i hi
        rcases Nat.lt_succ_iff_lt_or_eq.mp hi with hi | rfl
        · exact h i hi
        · exact hge
      · exact fun h i hi => h i (Nat.lt_succ_of_lt hi)

lemma segmentEnd_tail (hfit : SizesFit factor.toNat sizes) {n i : Nat} (h : segmentEnd sizes factor n = some i) :
    ∀ k, i ≤ k → k < n → factor.toNat * (toNats sizes).getD (k + 1) 0 ≤ (toNats sizes).getD k 0 := by
  induction n with
  | zero => simp [segmentEnd] at h
  | succ n ih =>
    rw [segmentEnd] at h
    split at h
    · cases h
      intro k hk hlt
      omega
    · next hge =>
      rw [violates_iff hfit, not_not] at hge
      intro k hk hlt
      rcases Nat.lt_succ_iff_lt_or_eq.mp hlt with hlt | rfl
      · exact ih h k hk hlt
      · exact hge

/-- What the second loop knows of the segment: its bytes, and that from `i` up to its start every table is
large enough for all that comes before the end. -/
structure StartsAt (sizes : List UInt64) (factor : UInt64) (stop i : Nat) (seg : Segment) : Prop where
  le : i ≤ seg.start
  lt : seg.start < stop
  bytes : seg.bytes.toNat = sumRange (toNats sizes) seg.start stop
  head : ∀ k, i ≤ k → k < seg.start →
    factor.toNat * sumRange (toNats sizes) (k + 1) stop ≤ (toNats sizes).getD k 0

lemma add_toNat {stop i : Nat} {curr : UInt64} (hfit : SizesFit factor.toNat sizes) (hi : i + 1 < stop)
    (hstop : stop ≤ sizes.length) (hcurr : curr.toNat = sumRange (toNats sizes) (i + 1) stop) :
    (curr + sizes.getD i 0).toNat = sumRange (toNats sizes) i stop := by
  have hsum : sumRange (toNats sizes) i stop = (toNats sizes).getD i 0 + sumRange (toNats sizes) (i + 1) stop :=
    sumRange_succ (Nat.lt_of_succ_lt hi) (by rwa [toNats_length])
  have hle := (@sumRange_le_sum (toNats sizes) i stop).trans_lt hfit.1
  rw [UInt64.toNat_add, hcurr, toNats_getD, Nat.add_comm, ← hsum, Nat.mod_eq_of_lt hle]

lemma starts_iff {stop i : Nat} {curr : UInt64} (hfit : SizesFit factor.toNat sizes)
    (hcurr : curr.toNat = sumRange (toNats sizes) (i + 1) stop) :
    sizes.getD i 0 < curr * factor ↔
      ¬factor.toNat * sumRange (toNats sizes) (i + 1) stop ≤ (toNats sizes).getD i 0 := by
  rw [← toNats_getD, ← hcurr]
  apply lt_mul_iff
  rw [hcurr]
  exact (Nat.mul_le_mul_left _ (sumRange_le_tail i stop)).trans_lt hfit.2

lemma segmentStart_spec {stop i : Nat} {curr : UInt64} {seg : Segment} (hfit : SizesFit factor.toNat sizes)
    (hi : i < stop) (hstop : stop ≤ sizes.length) (hcurr : curr.toNat = sumRange (toNats sizes) i stop)
    (h : StartsAt sizes factor stop i seg) : StartsAt sizes factor stop 0 (segmentStart sizes factor i curr seg) := by
  induction i generalizing curr seg with
  | zero => exact h
  | succ i ih =>
    rw [segmentStart]
    have hbytes := add_toNat hfit hi hstop hcurr
    refine ih (Nat.lt_of_succ_lt hi) hbytes ?_
    split
    · exact ⟨le_refl i, Nat.lt_of_succ_lt hi, hbytes, fun k hk hlt => absurd hlt (not_lt.mpr hk)⟩
    · next hge =>
      rw [starts_iff hfit hcurr, not_not] at hge
      refine ⟨Nat.le_of_succ_le h.le, h.lt, h.bytes, fun k hk hlt => ?_⟩
      rcases Nat.eq_or_lt_of_le hk with rfl | hk
      · exact hge
      · exact h.head k hk hlt

lemma segmentStart_of_segmentEnd {i : Nat} (hfit : SizesFit factor.toNat sizes)
    (h : segmentEnd sizes factor (sizes.length - 1) = some i) :
    StartsAt sizes factor (i + 1) 0 (segmentStart sizes factor i (sizes.getD i 0) ⟨0, i + 1, 0⟩) := by
  obtain ⟨hpos, hle, hlt⟩ := segmentEnd_spec h
  obtain ⟨i, rfl⟩ := Nat.exists_eq_add_one.mpr hpos
  rw [Nat.add_sub_cancel] at hlt
  have hstop : i + 1 + 1 ≤ sizes.length := by omega
  have hcurr : (sizes.getD (i + 1) 0).toNat = sumRange (toNats sizes) (i + 1) (i + 1 + 1) := by
    rw [sumRange_succ (Nat.lt_succ_self _) (by rwa [toNats_length]), sumRange_self, toNats_getD]
    rfl
  have hbytes := add_toNat hfit (Nat.lt_succ_self _) hstop hcurr
  rw [segmentStart, if_pos hlt]
  refine segmentStart_spec hfit (by omega) hstop hbytes ?_
  exact ⟨le_refl i, by dsimp only; omega, hbytes, fun k hk hlt => absurd hlt (not_lt.mpr hk)⟩

end Suggest

lemma geometricFactor_toUInt64 (factor : UInt8) :
    (if factor = 0 then defaultGeometricFactor else factor).toUInt64.toNat = geometricFactor factor := by
  rw [UInt8.toNat_toUInt64, geometricFactor]

/-- No segment is suggested exactly for a geometric sequence. A suggested one has at least two tables of the
stack and their bytes, and with it merged the sequence is geometric. -/
theorem suggestCompactionSegment_geometric (sizes : List UInt64) (factor : UInt8)
    (hfit : SizesFit (geometricFactor factor) sizes) :
    let seg := suggestCompactionSegment sizes factor
    (seg.stop - seg.start = 0 ↔ Geometric (geometricFactor factor) (toNats sizes)) ∧
      (¬Geometric (geometricFactor factor) (toNats sizes) →
        seg.start + 2 ≤ seg.stop ∧ seg.stop ≤ sizes.length ∧
          seg.bytes.toNat = sumRange (toNats sizes) seg.start seg.stop ∧
          Geometric (geometricFactor factor) (mergeRange (toNats sizes) seg.start seg.stop)) := by
  have hfactor := geometricFactor_toUInt64 factor
  unfold suggestCompactionSegment
  dsimp only
  generalize (if factor = 0 then defaultGeometricFactor else factor).toUInt64 = used at hfactor
  rw [← hfactor] at hfit ⊢
  have hlen := toNats_length sizes
  cases hend : segmentEnd sizes used (sizes.length - 1) with
  | none =>
    have hgeo : Geometric used.toNat (toNats sizes) := by
      rw [geometric_iff, hlen]
      intro i hi
      exact (segmentEnd_eq_none_iff hfit _).mp hend i (by omega)
    exact ⟨iff_of_true rfl hgeo, fun h => absurd hgeo h⟩
  | some i =>
    obtain ⟨hpos, hle, hlt⟩ := segmentEnd_spec hend
    have hstop : (segmentStart sizes used i (sizes.getD i 0) ⟨0, i + 1, 0⟩).stop = i + 1 := segmentStart_stop ..
    have hstart := segmentStart_of_segmentEnd hfit hend
    have hbound := segmentStart_start_le_of_segmentEnd hend
    have hgeo : ¬Geometric used.toNat (toNats sizes) := by
      rw [geometric_iff, hlen]
      intro h
      obtain ⟨j, rfl⟩ := Nat.exists_eq_add_one.mpr hpos
      exact (violates_iff hfit j).mp hlt (h j (by omega))
    dsimp only
    generalize segmentStart sizes used i (sizes.getD i 0) ⟨0, i + 1, 0⟩ = seg at hstop hstart hbound ⊢
    rw [hstop]
    refine ⟨iff_of_false (by omega) hgeo, fun _ => ⟨by omega, by omega, hstart.bytes, ?_⟩⟩
    refine geometric_mergeRange hstart.lt (by omega) (fun k hk => hstart.head k (Nat.zero_le k) hk) ?_
    intro k hk hklt
    exact segmentEnd_tail hfit hend k (by omega) (by omega)

theorem suggestCompactionSegment_geometric_ten :
    Geometric 2 (mergeRange [512, 64, 17, 16, 9, 9, 9, 16, 2, 16] 1 10) := by
  have h := (suggestCompactionSegment_geometric [512, 64, 17, 16, 9, 9, 9, 16, 2, 16] 2 (by decide)).2 (by decide)
  exact h.2.2.2

/-- With the factor 0 taken as it is, every sequence would be geometric. -/
theorem suggestCompactionSegment_zero_factor :
    SizesFit (0 : UInt8).toNat [1, 1] ∧
      ¬((suggestCompactionSegment [1, 1] 0).stop - (suggestCompactionSegment [1, 1] 0).start = 0 ↔
        Geometric (0 : UInt8).toNat (toNats [1, 1])) := by
  decide

end GitCore.Stack
