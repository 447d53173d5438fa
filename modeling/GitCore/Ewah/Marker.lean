import GitCore.Ewah.Model

/-!
# The fields of a run-length word

The setters change one field and leave the other two.
-/

namespace GitCore.Ewah

lemma getLsbD_one (i : Nat) : (1 : Eword).getLsbD i = decide (i = 0) := by
  rw [show (1 : Eword) = BitVec.twoPow 64 0 from rfl, BitVec.getLsbD_twoPow]
  simp [eq_comm]

lemma getLsbD_rlwLargestRunningCount {i : Nat} (hi : i < 64) : rlwLargestRunningCount.getLsbD i = decide (i < 32) := by
  have hall : ∀ i : Fin 64, rlwLargestRunningCount.getLsbD i = decide (i.val < 32) := by decide
  exact hall ⟨i, hi⟩

lemma getLsbD_rlwLargestRunningCountShift {i : Nat} (hi : i < 64) :
    rlwLargestRunningCountShift.getLsbD i = decide (0 < i ∧ i < 33) := by
  have hall : ∀ i : Fin 64, rlwLargestRunningCountShift.getLsbD i = decide (0 < i.val ∧ i.val < 33) := by decide
  exact hall ⟨i, hi⟩

lemma getLsbD_rlwRunningLenPlusBit {i : Nat} (hi : i < 64) : rlwRunningLenPlusBit.getLsbD i = decide (i < 33) := by
  have hall : ∀ i : Fin 64, rlwRunningLenPlusBit.getLsbD i = decide (i.val < 33) := by decide
  exact hall ⟨i, hi⟩

lemma rlwGetRunBit_eq (word : Eword) : rlwGetRunBit word = word.getLsbD 0 := by
  rw [rlwGetRunBit, show (1 : Eword) = 1#64 from rfl, BitVec.and_one_eq_setWidth_ofBool_getLsbD]
  cases word.getLsbD 0 <;> decide

lemma getLsbD_setRunBit (word : Eword) (b : Bool) (i : Nat) :
    (rlwSetRunBit word b).getLsbD i = if i = 0 then b else word.getLsbD i := by
  unfold rlwSetRunBit
  split
  · rename_i hb
    rw [BitVec.getLsbD_or, getLsbD_one, hb]
    split <;> simp [*]
  · rename_i hb
    rw [BitVec.getLsbD_and, BitVec.getLsbD_not, getLsbD_one, Bool.eq_false_iff.mpr hb]
    split
    · simp [*]
    · by_cases hi : i < 64
      · simp [*]
      · rw [BitVec.getLsbD_of_ge word i (by omega), Bool.false_and]

lemma getLsbD_setRunningLen (word l : Eword) {i : Nat} (hi : i < 64) :
    (rlwSetRunningLen word l).getLsbD i = if 0 < i ∧ i < 33 then l.getLsbD (i - 1) else word.getLsbD i := by
  rw [rlwSetRunningLen, BitVec.getLsbD_and, BitVec.getLsbD_or, BitVec.getLsbD_or, BitVec.getLsbD_not,
    getLsbD_rlwLargestRunningCountShift hi, BitVec.getLsbD_shiftLeft]
  by_cases h : 0 < i ∧ i < 33
  · simp [h, hi]
    omega
  · simp [h, hi]

lemma getLsbD_setLiteralWords (word l : Eword) {i : Nat} (hi : i < 64) :
    (rlwSetLiteralWords word l).getLsbD i = if i < 33 then word.getLsbD i else l.getLsbD (i - 33) := by
  rw [rlwSetLiteralWords, BitVec.getLsbD_and, BitVec.getLsbD_or, BitVec.getLsbD_or, BitVec.getLsbD_not,
    getLsbD_rlwRunningLenPlusBit hi, BitVec.getLsbD_shiftLeft]
  by_cases h : i < 33
  · simp [h, hi]
  · simp [h, hi, rlwRunningBits]

lemma getLsbD_runningLen (word : Eword) {i : Nat} (hi : i < 64) :
    (rlwGetRunningLen word).getLsbD i = (decide (i < 32) && word.getLsbD (i + 1)) := by
  rw [rlwGetRunningLen, BitVec.getLsbD_and, BitVec.getLsbD_ushiftRight, getLsbD_rlwLargestRunningCount hi,
    Bool.and_comm, Nat.add_comm]

lemma getLsbD_literalWords (word : Eword) (i : Nat) : (rlwGetLiteralWords word).getLsbD i = word.getLsbD (33 + i) := by
  rw [rlwGetLiteralWords, BitVec.getLsbD_ushiftRight]
  rfl

lemma getLsbD_of_le_count {l : Eword} {n i : Nat} (hl : l.toNat < 2 ^ n) (hi : n ≤ i) : l.getLsbD i = false := by
  rw [BitVec.getLsbD]
  exact Nat.testBit_lt_two_pow (hl.trans_le (Nat.pow_le_pow_right (by norm_num) hi))

@[simp]
lemma rlwGetRunBit_setRunBit (word : Eword) (b : Bool) : rlwGetRunBit (rlwSetRunBit word b) = b := by
  rw [rlwGetRunBit_eq, getLsbD_setRunBit, if_pos rfl]

@[simp]
lemma rlwGetRunningLen_setRunBit (word : Eword) (b : Bool) :
    rlwGetRunningLen (rlwSetRunBit word b) = rlwGetRunningLen word := by
  refine BitVec.eq_of_getLsbD_eq fun i hi => ?_
  rw [getLsbD_runningLen _ hi, getLsbD_runningLen _ hi, getLsbD_setRunBit, if_neg (by omega)]

@[simp]
lemma rlwGetLiteralWords_setRunBit (word : Eword) (b : Bool) :
    rlwGetLiteralWords (rlwSetRunBit word b) = rlwGetLiteralWords word := by
  refine BitVec.eq_of_getLsbD_eq fun i hi => ?_
  rw [getLsbD_literalWords, getLsbD_literalWords, getLsbD_setRunBit, if_neg (by omega)]

@[simp]
lemma rlwGetRunBit_setRunningLen (word l : Eword) : rlwGetRunBit (rlwSetRunningLen word l) = rlwGetRunBit word := by
  rw [rlwGetRunBit_eq, rlwGetRunBit_eq, getLsbD_setRunningLen _ _ (by omega), if_neg (by omega)]

lemma rlwGetRunningLen_setRunningLen (word : Eword) {l : Eword} (hl : l.toNat < 2 ^ 32) :
    rlwGetRunningLen (rlwSetRunningLen word l) = l := by
  refine BitVec.eq_of_getLsbD_eq fun i hi => ?_
  rw [getLsbD_runningLen _ hi]
  by_cases h : i < 32
  · rw [getLsbD_setRunningLen _ _ (by omega), if_pos (by omega), decide_eq_true h, Bool.true_and, Nat.add_sub_cancel]
  · rw [decide_eq_false h, Bool.false_and, getLsbD_of_le_count hl (by omega)]

@[simp]
lemma rlwGetLiteralWords_setRunningLen (word l : Eword) :
    rlwGetLiteralWords (rlwSetRunningLen word l) = rlwGetLiteralWords word := by
  refine BitVec.eq_of_getLsbD_eq fun i hi => ?_
  rw [getLsbD_literalWords, getLsbD_literalWords]
  by_cases h : 33 + i < 64
  · rw [getLsbD_setRunningLen _ _ h, if_neg (by omega)]
  · rw [BitVec.getLsbD_of_ge _ _ (by omega), BitVec.getLsbD_of_ge _ _ (by omega)]

@[simp]
lemma rlwGetRunBit_setLiteralWords (word l : Eword) : rlwGetRunBit (rlwSetLiteralWords word l) = rlwGetRunBit word := by
  rw [rlwGetRunBit_eq, rlwGetRunBit_eq, getLsbD_setLiteralWords _ _ (by omega), if_pos (by omega)]

@[simp]
lemma rlwGetRunningLen_setLiteralWords (word l : Eword) :
    rlwGetRunningLen (rlwSetLiteralWords word l) = rlwGetRunningLen word := by
  refine BitVec.eq_of_getLsbD_eq fun i hi => ?_
  rw [getLsbD_runningLen _ hi, getLsbD_runningLen _ hi]
  by_cases h : i < 32
  · rw [getLsbD_setLiteralWords _ _ (by omega), if_pos (by omega)]
  · rw [decide_eq_false h, Bool.false_and, Bool.false_and]

lemma rlwGetLiteralWords_setLiteralWords (word : Eword) {l : Eword} (hl : l.toNat < 2 ^ 31) :
    rlwGetLiteralWords (rlwSetLiteralWords word l) = l := by
  refine BitVec.eq_of_getLsbD_eq fun i hi => ?_
  rw [getLsbD_literalWords]
  by_cases h : 33 + i < 64
  · rw [getLsbD_setLiteralWords _ _ h, if_neg (by omega), Nat.add_sub_cancel_left]
  · rw [BitVec.getLsbD_of_ge _ _ (by omega), getLsbD_of_le_count hl (by omega)]

lemma runningLen_lt (word : Eword) : (rlwGetRunningLen word).toNat < 2 ^ 32 := by
  rw [rlwGetRunningLen, BitVec.toNat_and]
  exact Nat.and_lt_two_pow _ (by decide)

lemma literalWords_lt (word : Eword) : (rlwGetLiteralWords word).toNat < 2 ^ 31 := by
  rw [rlwGetLiteralWords, BitVec.toNat_ushiftRight, Nat.shiftRight_eq_div_pow]
  have hlt := word.isLt
  change word.toNat / 2 ^ 33 < 2 ^ 31
  omega

end GitCore.Ewah
