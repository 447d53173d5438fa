import Mathlib.Algebra.Order.BigOperators.Group.List
import Mathlib.Algebra.Order.Ring.Nat
import Mathlib.Order.Bounds.Basic
import Mathlib.Data.List.Chain
import Mathlib.Data.List.GetD

/-!
# Rolling up packs into a geometric progression

The split of `repack-geometry.c` and the preferred pack above it. Packs come in ascending order of their object counts,
and the packs below the split are repacked into one.
-/

namespace GitCore.Repack

/-- The fields of `struct packed_git` that the split and the preferred pack look at. -/
structure PackedGit where
  packName : String
  numObjects : UInt32
  packLocal : Bool
  multiPackIndex : Bool

def packGeometryWeight (p : PackedGit) : Nat := p.numObjects.toNat

/-- The two ways to `die`, with the pack that is named. -/
inductive SplitError where
  | tooLargeToConsider (packName : String)
  | tooLargeToRollUp (packName : String)

def unsignedMultOverflows (a b : Nat) : Bool := a ≠ 0 ∧ (2 ^ 32 - 1) / a < b

def unsignedAddOverflows (a b : Nat) : Bool := 2 ^ 64 - 1 - a < b

/-- The loop from the heavy end, at `i`. -/
def countProgression (pack : Array PackedGit) (splitFactor : Nat) : Nat → Except SplitError Nat
  | 0 => .ok 0
  | i + 1 =>
    match pack[i + 1]?, pack[i]? with
    | some ours, some prev =>
      if unsignedMultOverflows splitFactor (packGeometryWeight prev) then .error (.tooLargeToConsider prev.packName)
      else if packGeometryWeight ours < splitFactor * packGeometryWeight prev % 2 ^ 32 then .ok (i + 1)
      else countProgression pack splitFactor i
    | _, _ => .ok (i + 1)

def sumWeights : List PackedGit → Nat → Except SplitError Nat
  | [], totalSize => .ok totalSize
  | p :: pack, totalSize =>
    if unsignedAddOverflows totalSize (packGeometryWeight p) then .error (.tooLargeToRollUp p.packName)
    else sumWeights pack (totalSize + packGeometryWeight p)

def joinHeavy (splitFactor : Nat) : List PackedGit → Nat → Nat → Except SplitError Nat
  | [], split, _ => .ok split
  | ours :: pack, split, totalSize =>
    if unsignedMultOverflows splitFactor totalSize then .error (.tooLargeToRollUp ours.packName)
    else if packGeometryWeight ours < splitFactor * totalSize then
      if unsignedAddOverflows totalSize (packGeometryWeight ours) then .error (.tooLargeToRollUp ours.packName)
      else joinHeavy splitFactor pack (split + 1) (totalSize + packGeometryWeight ours)
    else .ok split

def computePackGeometrySplit (pack : List PackedGit) (splitFactor : Nat) : Except SplitError Nat :=
  if pack.length = 0 then .ok 0
  else do
    let split ← countProgression pack.toArray splitFactor (pack.length - 1)
    let split := if split ≠ 0 then split + 1 else split
    let totalSize ← sumWeights (pack.take split) 0
    joinHeavy splitFactor (pack.drop split) split totalSize

structure PackGeometry where
  pack : List PackedGit
  split : Nat
  promisorPack : List PackedGit
  promisorSplit : Nat
  midxTipRewritten : Bool
  splitFactor : Nat

def packGeometrySplit (geometry : PackGeometry) : Except SplitError PackGeometry := do
  let split ← computePackGeometrySplit geometry.pack geometry.splitFactor
  let promisorSplit ← computePackGeometrySplit geometry.promisorPack geometry.splitFactor
  let rewritten := (geometry.pack.take split).any PackedGit.multiPackIndex
  .ok { geometry with
    split := split, promisorSplit := promisorSplit, midxTipRewritten := geometry.midxTipRewritten || rewritten }

def packGeometryPreferredPack (geometry : Option PackGeometry) : Option PackedGit :=
  match geometry with
  | none => none
  | some geometry =>
    if geometry.split = geometry.pack.length then none
    else (geometry.pack.drop geometry.split).reverse.find? PackedGit.packLocal

/-- Each count is at least `factor` times the one before. -/
def Geometric (factor : Nat) (counts : List Nat) : Prop :=
  counts.IsChain fun lighter heavier => factor * lighter ≤ heavier

instance (factor : Nat) (counts : List Nat) : Decidable (Geometric factor counts) :=
  inferInstanceAs (Decidable (counts.IsChain fun lighter heavier => factor * lighter ≤ heavier))

/-- The counts when the first `s` packs are replaced by one pack of all their objects. -/
def rollUp (counts : List Nat) : Nat → List Nat
  | 0 => counts
  | s + 1 => (counts.take (s + 1)).sum :: counts.drop (s + 1)

variable {factor s k : Nat} {counts : List Nat}

lemma geometric_iff : Geometric factor counts ↔
    ∀ i, i + 1 < counts.length → factor * counts.getD i 0 ≤ counts.getD (i + 1) 0 := by
  rw [Geometric, List.isChain_iff_getElem]
  refine forall_congr' fun i => ⟨fun h hi => ?_, fun h hi => ?_⟩
  · rw [List.getD_eq_getElem _ _ (Nat.lt_of_succ_lt hi), List.getD_eq_getElem _ _ hi]
    exact h hi
  · have := h hi
    rwa [List.getD_eq_getElem _ _ (Nat.lt_of_succ_lt hi), List.getD_eq_getElem _ _ hi] at this

lemma getD_drop (counts : List Nat) (s i : Nat) : (counts.drop s).getD i 0 = counts.getD (s + i) 0 := by
  rw [List.getD_eq_getElem?_getD, List.getElem?_drop, ← List.getD_eq_getElem?_getD]

lemma geometric_rollUp (hs : 0 < s) : Geometric factor (rollUp counts s) ↔
    (s < counts.length → factor * (counts.take s).sum ≤ counts.getD s 0) ∧
      ∀ j, s ≤ j → j + 1 < counts.length → factor * counts.getD j 0 ≤ counts.getD (j + 1) 0 := by
  obtain ⟨t, rfl⟩ := Nat.exists_eq_succ_of_ne_zero hs.ne'
  rw [rollUp, geometric_iff, List.length_cons, List.length_drop]
  constructor
  · intro h
    refine ⟨fun hlt => ?_, fun j hj hlt => ?_⟩
    · have hfirst := h 0 (by omega)
      rwa [List.getD_cons_zero, List.getD_cons_succ, getD_drop, Nat.add_zero] at hfirst
    · obtain ⟨i, rfl⟩ := Nat.exists_eq_add_of_le hj
      have hlater := h (i + 1) (by omega)
      rwa [List.getD_cons_succ, List.getD_cons_succ, getD_drop, getD_drop] at hlater
  · rintro ⟨hfirst, hlater⟩ i hi
    cases i with
    | zero =>
      rw [List.getD_cons_zero, List.getD_cons_succ, getD_drop]
      exact hfirst (by omega)
    | succ i =>
      rw [List.getD_cons_succ, List.getD_cons_succ, getD_drop, getD_drop]
      exact hlater _ (Nat.le_add_right _ _) (by omega)

lemma take_succ_sum (hk : k < counts.length) : (counts.take (k + 1)).sum = (counts.take k).sum + counts.getD k 0 := by
  rw [List.take_succ_eq_append_getElem hk, List.sum_append, List.sum_singleton, List.getD_eq_getElem _ _ hk]

variable {pack : List PackedGit} {splitFactor split i total : Nat}

def weights (pack : List PackedGit) : List Nat := pack.map packGeometryWeight

lemma weights_getD (hi : i < pack.length) : (weights pack).getD i 0 = packGeometryWeight pack[i] := by
  rw [weights, List.getD_eq_getElem _ _ (by rwa [List.length_map]), List.getElem_map]

lemma not_mult_overflows (hfactor : 0 < splitFactor) {b : Nat} :
    unsignedMultOverflows splitFactor b = false ↔ splitFactor * b < 2 ^ 32 := by
  rw [unsignedMultOverflows, decide_eq_false_iff_not, not_and, Nat.not_lt, Nat.le_div_iff_mul_le hfactor, Nat.mul_comm b,
    imp_iff_right hfactor.ne']
  omega

lemma countProgression_eq_ok (hfactor : 0 < splitFactor) (hi : i < pack.length)
    (h : countProgression pack.toArray splitFactor i = .ok k) :
    k ≤ i ∧ (∀ j, k ≤ j → j < i → splitFactor * (weights pack).getD j 0 ≤ (weights pack).getD (j + 1) 0) ∧
      (0 < k → (weights pack).getD k 0 < splitFactor * (weights pack).getD (k - 1) 0 ∧
        splitFactor * (weights pack).getD (k - 1) 0 < 2 ^ 32) := by
  induction i with
  | zero =>
    cases h
    exact ⟨le_rfl, fun j _ hj => absurd hj (Nat.not_lt_zero j), fun h => absurd h (lt_irrefl 0)⟩
  | succ i ih =>
    have hi' : i < pack.length := Nat.lt_of_succ_lt hi
    rw [countProgression, List.getElem?_toArray, List.getElem?_toArray, List.getElem?_eq_getElem hi,
      List.getElem?_eq_getElem hi'] at h
    simp only [← weights_getD hi, ← weights_getD hi'] at h
    split_ifs at h with hover hlight
    · rw [Bool.not_eq_true, not_mult_overflows hfactor] at hover
      rw [Nat.mod_eq_of_lt hover] at hlight
      cases h
      exact ⟨le_rfl, fun j hj hlt => absurd hlt (Nat.not_lt.mpr hj), fun _ => ⟨hlight, hover⟩⟩
    · rw [Bool.not_eq_true, not_mult_overflows hfactor] at hover
      rw [Nat.mod_eq_of_lt hover, Nat.not_lt] at hlight
      obtain ⟨hle, hchain, hstop⟩ := ih hi' h
      refine ⟨hle.trans (Nat.le_succ i), fun j hj hlt => ?_, hstop⟩
      rcases Nat.lt_succ_iff_lt_or_eq.mp hlt with hlt | rfl
      · exact hchain j hj hlt
      · exact hlight

lemma sumWeights_eq_ok {start : Nat} (h : sumWeights pack start = .ok total) : total = start + (weights pack).sum := by
  induction pack generalizing start with
  | nil => cases h; rfl
  | cons p pack ih =>
    rw [sumWeights] at h
    split_ifs at h
    rw [ih h, weights, weights, List.map_cons, List.sum_cons, Nat.add_assoc]

lemma joinHeavy_eq_ok (hfactor : 0 < splitFactor) (hsplit : split ≤ pack.length)
    (h : joinHeavy splitFactor (pack.drop split) split ((weights pack).take split).sum = .ok s) :
    split ≤ s ∧ s ≤ pack.length ∧
      (∀ k, split ≤ k → k < s → (weights pack).getD k 0 < splitFactor * ((weights pack).take k).sum ∧
        splitFactor * ((weights pack).take k).sum < 2 ^ 32) ∧
      (s < pack.length → splitFactor * ((weights pack).take s).sum ≤ (weights pack).getD s 0) := by
  induction hsize : pack.length - split generalizing split with
  | zero =>
    have hend : split = pack.length := by omega
    rw [hend, List.drop_length] at h
    cases h
    exact ⟨hsplit, le_rfl, fun k hk hlt => by omega, fun hlt => absurd hlt (lt_irrefl _)⟩
  | succ size ih =>
    have hlt : split < pack.length := by omega
    have hweights : split < (weights pack).length := by rwa [weights, List.length_map]
    rw [List.drop_eq_getElem_cons hlt, joinHeavy, ← weights_getD hlt] at h
    split_ifs at h with hover hlight
    · rw [Bool.not_eq_true, not_mult_overflows hfactor] at hover
      rw [← take_succ_sum hweights] at h
      obtain ⟨hle, hlen, hjoined, hstop⟩ := ih hlt h (by omega)
      refine ⟨Nat.le_of_succ_le hle, hlen, fun k hk hks => ?_, hstop⟩
      rcases Nat.eq_or_lt_of_le hk with rfl | hk
      · exact ⟨hlight, hover⟩
      · exact hjoined k hk hks
    · cases h
      exact ⟨le_rfl, hsplit, fun k hk hks => absurd hks (Nat.not_lt.mpr hk), fun _ => Nat.not_lt.mp hlight⟩

lemma getD_le_take_sum {j : Nat} (hj : j < k) (hk : k ≤ counts.length) : counts.getD j 0 ≤ (counts.take k).sum := by
  have hlt : j < (counts.take k).length := by
    rw [List.length_take]
    omega
  rw [List.getD_eq_getElem _ _ (hj.trans_le hk), ← List.getElem_take (h := hlt)]
  exact List.single_le_sum (fun _ _ => Nat.zero_le _) _ (List.getElem_mem hlt)

lemma computePackGeometrySplit_eq_ok (hfactor : 0 < splitFactor)
    (h : computePackGeometrySplit pack splitFactor = .ok s) :
    (s = 0 ∧ Geometric splitFactor (weights pack)) ∨
      ∃ k, 0 < k ∧ k < s ∧ s ≤ pack.length ∧
        (∀ j, k ≤ j → j + 1 < pack.length → splitFactor * (weights pack).getD j 0 ≤ (weights pack).getD (j + 1) 0) ∧
        ((weights pack).getD k 0 < splitFactor * (weights pack).getD (k - 1) 0 ∧
          splitFactor * (weights pack).getD (k - 1) 0 < 2 ^ 32) ∧
        (∀ t, k < t → t < s → (weights pack).getD t 0 < splitFactor * ((weights pack).take t).sum ∧
          splitFactor * ((weights pack).take t).sum < 2 ^ 32) ∧
        (s < pack.length → splitFactor * ((weights pack).take s).sum ≤ (weights pack).getD s 0) := by
  rw [computePackGeometrySplit] at h
  split_ifs at h with hempty
  · cases h
    rw [List.length_eq_zero_iff.mp hempty]
    exact .inl ⟨rfl, List.isChain_nil⟩
  · have hlength : pack.length - 1 < pack.length := by omega
    cases hcount : countProgression pack.toArray splitFactor (pack.length - 1) with
    | error e => rw [hcount] at h; cases h
    | ok k =>
      rw [hcount] at h
      obtain ⟨hk, hchain, hstop⟩ := countProgression_eq_ok hfactor hlength hcount
      have hlast : (if k ≠ 0 then k + 1 else k) ≤ pack.length := by split_ifs <;> omega
      cases hsum : sumWeights (pack.take (if k ≠ 0 then k + 1 else k)) 0 with
      | error e => simp only [bind, Except.bind, hsum] at h; cases h
      | ok total =>
        simp only [bind, Except.bind, hsum] at h
        have htotal := sumWeights_eq_ok hsum
        rw [Nat.zero_add, weights, List.map_take, ← weights] at htotal
        rw [htotal] at h
        obtain ⟨hle, hs, hjoined, hend⟩ := joinHeavy_eq_ok hfactor hlast h
        by_cases hzero : k = 0
        · rw [hzero] at hchain
          rw [if_neg (not_not.mpr hzero), hzero] at hjoined
          refine .inl ⟨?_, ?_⟩
          · by_contra hs'
            have hfirst := (hjoined 0 le_rfl (Nat.pos_of_ne_zero hs')).1
            rw [List.take_zero, List.sum_nil, Nat.mul_zero] at hfirst
            exact Nat.not_lt_zero _ hfirst
          · rw [geometric_iff, weights, List.length_map, ← weights]
            exact fun j hj => hchain j (Nat.zero_le j) (by omega)
        · rw [if_pos hzero] at hle hjoined
          exact .inr ⟨k, Nat.pos_of_ne_zero hzero, hle, hs, fun j hj hlt => hchain j hj (by omega),
            hstop (Nat.pos_of_ne_zero hzero), hjoined, hend⟩

/-- The split is the least number of packs to roll up that leaves a geometric progression, and it is zero when there
is one already. -/
theorem computePackGeometrySplit_isLeast (pack : List PackedGit) (splitFactor split : Nat) (hfactor : 2 ≤ splitFactor)
    (h : computePackGeometrySplit pack splitFactor = .ok split) :
    IsLeast {s | (s = 0 ∨ 2 ≤ s) ∧ s ≤ pack.length ∧ Geometric splitFactor (rollUp (weights pack) s)} split ∧
      (split = 0 ↔ Geometric splitFactor (weights pack)) := by
  have hlength : (weights pack).length = pack.length := List.length_map _
  rcases computePackGeometrySplit_eq_ok (by omega) h with ⟨rfl, hgeometric⟩ |
    ⟨k, hpos, hk, hs, hchain, ⟨hlight, -⟩, hjoined, hstop⟩
  · exact ⟨⟨⟨.inl rfl, Nat.zero_le _, hgeometric⟩, fun t _ => Nat.zero_le t⟩, iff_of_true rfl hgeometric⟩
  · have hpair : ¬ splitFactor * (weights pack).getD (k - 1) 0 ≤ (weights pack).getD (k - 1 + 1) 0 := by
      rw [Nat.sub_add_cancel hpos]
      exact Nat.not_le.mpr hlight
    have hnot : ¬ Geometric splitFactor (weights pack) := fun hgeometric =>
      hpair (geometric_iff.mp hgeometric (k - 1) (by omega))
    refine ⟨⟨⟨.inr (by omega), hs, ?_⟩, ?_⟩, iff_of_false (by omega) hnot⟩
    · rw [geometric_rollUp (by omega), hlength]
      exact ⟨hstop, fun j hj => hchain j (by omega)⟩
    · rintro t ⟨ht, -, hgeometric⟩
      by_contra hlt
      rcases ht with rfl | ht
      · exact hnot hgeometric
      · rw [geometric_rollUp (by omega), hlength] at hgeometric
        obtain ⟨hfirst, hlater⟩ := hgeometric
        rcases Nat.lt_trichotomy t k with hcase | rfl | hcase
        · exact hpair (hlater (k - 1) (by omega) (by omega))
        · -- the pack that does not fit behind its neighbour does not fit behind more packs either
          have hle := getD_le_take_sum (show t - 1 < t by omega) (show t ≤ (weights pack).length by omega)
          exact Nat.not_lt.mpr (hfirst (by omega)) (hlight.trans_le (Nat.mul_le_mul_left _ hle))
        · exact Nat.not_lt.mpr (hfirst (by omega)) (hjoined t hcase (by omega)).1

theorem computePackGeometrySplit_isLeast_four :
    2 ≤ 2 ∧ IsLeast {s | (s = 0 ∨ 2 ≤ s) ∧ s ≤ 4 ∧ Geometric 2 (rollUp [1, 2, 3, 20] s)} 3 :=
  ⟨le_rfl, (computePackGeometrySplit_isLeast
    [⟨"a", 1, true, false⟩, ⟨"b", 2, true, false⟩, ⟨"c", 3, true, false⟩, ⟨"d", 20, true, false⟩] 2 3 le_rfl rfl).1⟩

/-- The sum of the packs that are rolled up never leaves an `off_t`. -/
theorem computePackGeometrySplit_sum_lt (pack : List PackedGit) (splitFactor split : Nat) (hfactor : 0 < splitFactor)
    (hsorted : (weights pack).Pairwise (· ≤ ·)) (hlength : pack.length < 2 ^ 32)
    (h : computePackGeometrySplit pack splitFactor = .ok split) : ((weights pack).take split).sum < 2 ^ 63 := by
  have hweights : (weights pack).length = pack.length := List.length_map _
  rcases computePackGeometrySplit_eq_ok hfactor h with ⟨rfl, -⟩ |
    ⟨k, hpos, hk, hs, -, ⟨hlight, hover⟩, hjoined, -⟩
  · rw [List.take_zero, List.sum_nil]
    decide
  · obtain ⟨t, rfl⟩ := Nat.exists_eq_succ_of_ne_zero (show split ≠ 0 by omega)
    rw [Nat.succ_eq_add_one, take_succ_sum (by omega)]
    have hle : (weights pack).getD (k - 1) 0 ≤ (weights pack).getD k 0 := by
      rw [List.getD_eq_getElem _ _ (by omega), List.getD_eq_getElem _ _ (by omega)]
      exact List.pairwise_iff_getElem.mp hsorted (k - 1) k _ _ (by omega)
    have htwo : 2 ≤ splitFactor := by
      by_contra hlt
      have := Nat.mul_le_mul_right ((weights pack).getD (k - 1) 0) (show splitFactor ≤ 1 by omega)
      omega
    have hhalf : ∀ n, splitFactor * n < 2 ^ 32 → n < 2 ^ 31 := fun n hn => by
      have := Nat.mul_le_mul_right n htwo
      omega
    rcases Nat.eq_or_lt_of_le (Nat.le_of_lt_succ hk) with rfl | hlt
    · have hbound : ∀ w ∈ (weights pack).take k, w ≤ 2 ^ 31 - 1 := by
        intro w hw
        obtain ⟨j, hj, rfl⟩ := List.mem_take_iff_getElem.mp hw
        have hlast := hhalf _ hover
        have hle : (weights pack)[j] ≤ (weights pack)[k - 1] := by
          rcases Nat.eq_or_lt_of_le (show j ≤ k - 1 by omega) with hj' | hj'
          · simp only [hj', le_refl]
          · exact List.pairwise_iff_getElem.mp hsorted j (k - 1) _ _ hj'
        rw [List.getD_eq_getElem _ _ (by omega)] at hlast
        omega
      have hsum := List.sum_le_card_nsmul _ _ hbound
      rw [List.length_take, min_eq_left (by omega), nsmul_eq_mul, Nat.cast_id] at hsum
      have hmul := Nat.mul_le_mul_right (2 ^ 31 - 1) (show k ≤ 2 ^ 32 - 1 by omega)
      omega
    · obtain ⟨hw, hsum⟩ := hjoined t hlt (Nat.lt_succ_self t)
      have := hhalf _ hsum
      omega

theorem computePackGeometrySplit_sum_lt_two : ((weights [⟨"a", 3, true, false⟩, ⟨"b", 4, true, false⟩]).take 2).sum < 2 ^ 63 :=
  computePackGeometrySplit_sum_lt [⟨"a", 3, true, false⟩, ⟨"b", 4, true, false⟩] 2 2 (by decide) (by decide) (by decide) rfl

theorem packGeometryPreferredPack_eq_some {geometry : PackGeometry} {p : PackedGit}
    (h : packGeometryPreferredPack (some geometry) = some p) :
    p.packLocal = true ∧ ∃ lower upper, geometry.pack.drop geometry.split = lower ++ p :: upper ∧
      ∀ q ∈ upper, q.packLocal = false := by
  rw [packGeometryPreferredPack] at h
  split_ifs at h
  obtain ⟨hlocal, heavier, lighter, hreverse, hnot⟩ := List.find?_eq_some_iff_append.mp h
  refine ⟨hlocal, lighter.reverse, heavier.reverse, ?_, fun q hq => ?_⟩
  · have hdrop := congrArg List.reverse hreverse
    rw [List.reverse_reverse, List.reverse_append, List.reverse_cons, List.append_assoc] at hdrop
    exact hdrop
  · exact (Bool.not_eq_true' _).mp (hnot q (List.mem_reverse.mp hq))

end GitCore.Repack
