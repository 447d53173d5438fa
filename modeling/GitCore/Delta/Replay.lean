import GitCore.Delta.Create
import GitCore.Delta.Patch

/-!
# Replaying single delta ops

The decoder undoes each thing the encoder emits: a size header, a run of literals, a copy.
`Replays src ops t` says that `ops` produces `t` in front of whatever follows.
-/

namespace GitCore.Delta

lemma or_mul_two_pow {a b i : Nat} (h : a < 2 ^ i) : a ||| b * 2 ^ i = a + b * 2 ^ i := by
  rw [← Nat.shiftLeft_eq, Nat.lor_comm, ← Nat.shiftLeft_add_eq_or_of_lt h, Nat.shiftLeft_eq,
    Nat.add_comm]

lemma stLeftShift_eq {a i : Nat} (hi : i < 64) (h : a * 2 ^ i < 2 ^ 64) :
    stLeftShift a i = .ok (a * 2 ^ i) := by
  have hle : ¬ a > (2 ^ 64 - 1) >>> i := by
    rw [Nat.shiftRight_eq_div_pow, not_lt, Nat.le_div_iff_mul_le (by positivity)]
    omega
  rw [stLeftShift, if_pos hi, if_neg hle, Nat.shiftLeft_eq]

lemma hdr_continue_toNat (l : Nat) :
    (UInt8.ofNat (l ||| 0x80)).toNat &&& 0x7f = l % 128 ∧
      (UInt8.ofNat (l ||| 0x80)).toNat &&& 0x80 ≠ 0 := by
  rw [UInt8.toNat_ofNat']
  constructor
  · rw [show 0x7f = 2 ^ 7 - 1 from rfl, Nat.and_two_pow_sub_one_eq_mod,
      Nat.mod_mod_of_dvd _ (by decide), Nat.or_mod_two_pow]
    simp
  · intro h
    have h7 := congrArg (Nat.testBit · 7) h
    rw [Nat.testBit_and, Nat.testBit_mod_two_pow, Nat.testBit_or,
      show Nat.testBit 0x80 7 = true by decide] at h7
    simp at h7

lemma hdr_last_toNat : ∀ l < 0x80,
    (UInt8.ofNat l).toNat &&& 0x7f = l ∧ (UInt8.ofNat l).toNat &&& 0x80 = 0 := by
  decide

lemma getDeltaHdrSizeAux_put (l : Nat) (rest : List UInt8) (i size : Nat) (hi : i < 64)
    (hl : l * 2 ^ i < 2 ^ 64) (hs : size < 2 ^ i) :
    getDeltaHdrSizeAux (putDeltaHdrSize l ++ rest) i size = .ok (size + l * 2 ^ i, rest) := by
  induction l using Nat.strong_induction_on generalizing i size with
  | _ l ih =>
    rw [putDeltaHdrSize]
    split
    · next hlt =>
      obtain ⟨hlow, hhigh⟩ := hdr_last_toNat l hlt
      rw [List.singleton_append, getDeltaHdrSizeAux, hlow, hhigh, stLeftShift_eq hi hl]
      simp only [bind, Except.bind, pure, Except.pure, ne_eq, not_true_eq_false, false_and,
        if_false, or_mul_two_pow hs]
    · next hge =>
      obtain ⟨hlow, hhigh⟩ := hdr_continue_toNat l
      have hpow : 2 ^ (i + 7) = 128 * 2 ^ i := by rw [pow_add, Nat.mul_comm]; rfl
      have hdiv : l % 128 * 2 ^ i + l / 128 * 2 ^ (i + 7) = l * 2 ^ i := by
        rw [hpow, ← Nat.mul_assoc, ← Nat.add_mul]
        congr 1
        omega
      have hi7 : i + 7 < 64 := by
        rw [← Nat.pow_lt_pow_iff_right (a := 2) (by decide), hpow]
        exact (Nat.mul_le_mul_right _ (by omega)).trans_lt hl
      have hlt : l % 128 * 2 ^ i < 2 ^ (i + 7) := by
        rw [hpow]
        exact Nat.mul_lt_mul_of_pos_right (Nat.mod_lt _ (by decide)) (by positivity)
      have hne : putDeltaHdrSize (l >>> 7) ++ rest ≠ [] := by
        rw [putDeltaHdrSize]
        split <;> simp
      have hsum : size + l % 128 * 2 ^ i < 2 ^ (i + 7) := by
        have : l % 128 * 2 ^ i ≤ 127 * 2 ^ i := Nat.mul_le_mul_right _ (by omega)
        omega
      rw [List.cons_append, getDeltaHdrSizeAux, hlow, stLeftShift_eq hi (by omega)]
      simp only [bind, Except.bind, hhigh, hne, ne_eq, not_false_eq_true, and_self, if_true,
        or_mul_two_pow hs]
      rw [Nat.shiftRight_eq_div_pow] at *
      rw [ih (l / 2 ^ 7) (by omega) (i + 7) _ hi7 (by simp only [Nat.reducePow] at *; omega) hsum]
      congr 2
      simp only [Nat.reducePow]
      omega

lemma getDeltaHdrSize_put {l : Nat} (hl : l < 2 ^ 64) (rest : List UInt8) :
    getDeltaHdrSize (putDeltaHdrSize l ++ rest) = .ok (l, rest) := by
  rw [getDeltaHdrSize, getDeltaHdrSizeAux_put l rest 0 0 (by decide) (by simpa using hl) (by decide)]
  simp

lemma length_putDeltaHdrSize_pos (l : Nat) : 0 < (putDeltaHdrSize l).length := by
  rw [putDeltaHdrSize]
  split <;> simp

lemma length_putDeltaHdrSize_of_le {l : Nat} (h : 0x10000 ≤ l) :
    2 < (putDeltaHdrSize l).length := by
  have h1 : l >>> 7 ≥ 512 := by simp only [Nat.shiftRight_eq_div_pow]; omega
  rw [putDeltaHdrSize, if_neg (by omega), putDeltaHdrSize, if_neg (by omega)]
  have := length_putDeltaHdrSize_pos (l >>> 7 >>> 7)
  simp only [List.length_cons]
  omega

lemma and_byteMask (value shift : Nat) :
    value &&& (0xff <<< shift) = (value / 2 ^ shift % 256) <<< shift := by
  apply Nat.eq_of_testBit_eq
  intro i
  rw [Nat.testBit_and, Nat.testBit_shiftLeft, Nat.testBit_shiftLeft, show 0xff = 2 ^ 8 - 1 from rfl,
    Nat.testBit_two_pow_sub_one, show 256 = 2 ^ 8 from rfl, Nat.testBit_mod_two_pow,
    ← Nat.shiftRight_eq_div_pow, Nat.testBit_shiftRight]
  by_cases h : shift ≤ i
  · rw [Nat.add_sub_cancel' h]
    simp [h, Bool.and_comm]
  · simp [h]

def cpParamBytes (value shift : Nat) : List UInt8 :=
  if value &&& (0xff <<< shift) ≠ 0 then [UInt8.ofNat (value >>> shift)] else []

def cpParamBit (value shift : Nat) (bit : UInt8) : UInt8 :=
  if value &&& (0xff <<< shift) ≠ 0 then bit else 0

lemma putCpParam_eq (value shift : Nat) (bit : UInt8) (op : UInt8 × List UInt8) :
    putCpParam value shift bit op =
      (op.1 ||| cpParamBit value shift bit, op.2 ++ cpParamBytes value shift) := by
  unfold putCpParam cpParamBit cpParamBytes
  split <;> simp

lemma parseCpParam_put {value shift : Nat} {cmd bit : UInt8} (rest : List UInt8)
    (hcmd : cmd &&& bit ≠ 0 ↔ value &&& (0xff <<< shift) ≠ 0) :
    parseCpParam cmd bit shift (value % 2 ^ shift, cpParamBytes value shift ++ rest) =
      .ok (value % 2 ^ (shift + 8), rest) := by
  have hmod : value % 2 ^ shift + value / 2 ^ shift % 256 * 2 ^ shift = value % 2 ^ (shift + 8) := by
    rw [pow_add, Nat.mod_mul, Nat.mul_comm (2 ^ shift)]
    rfl
  have hlt : value % 2 ^ shift < 2 ^ shift := Nat.mod_lt _ (by positivity)
  unfold parseCpParam cpParamBytes
  by_cases h : value &&& (0xff <<< shift) ≠ 0
  · rw [if_pos (hcmd.mpr h), if_pos h]
    simp only [List.singleton_append, Nat.shiftLeft_eq, or_mul_two_pow hlt, UInt8.toNat_ofNat',
      Nat.shiftRight_eq_div_pow, ← hmod]
  · rw [if_neg (hcmd.not.mpr h), if_neg h]
    rw [and_byteMask, Nat.shiftLeft_eq, not_not, Nat.mul_eq_zero] at h
    have hzero : value / 2 ^ shift % 256 = 0 := h.resolve_right (by positivity)
    rw [← hmod, hzero]
    simp

def copyOpcode (b0 b1 b2 b3 b4 b5 : Bool) : UInt8 :=
  0x80 ||| (bif b0 then 0x01 else 0) ||| (bif b1 then 0x02 else 0) |||
    (bif b2 then 0x04 else 0) ||| (bif b3 then 0x08 else 0) |||
    (bif b4 then 0x10 else 0) ||| (bif b5 then 0x20 else 0)

lemma copyOpcode_bits : ∀ b0 b1 b2 b3 b4 b5 : Bool,
    let cmd := copyOpcode b0 b1 b2 b3 b4 b5
    cmd &&& 0x80 ≠ 0 ∧ (cmd &&& 0x01 ≠ 0 ↔ b0) ∧ (cmd &&& 0x02 ≠ 0 ↔ b1) ∧
      (cmd &&& 0x04 ≠ 0 ↔ b2) ∧ (cmd &&& 0x08 ≠ 0 ↔ b3) ∧ (cmd &&& 0x10 ≠ 0 ↔ b4) ∧
      (cmd &&& 0x20 ≠ 0 ↔ b5) ∧ cmd &&& 0x40 = 0 := by
  decide

lemma copyOp_eq (moff msize : Nat) :
    ∃ cmd, copyOp moff msize = cmd :: (cpParamBytes moff 0 ++ cpParamBytes moff 8 ++
        cpParamBytes moff 16 ++ cpParamBytes moff 24 ++ cpParamBytes msize 0 ++
        cpParamBytes msize 8) ∧
      cmd &&& 0x80 ≠ 0 ∧ (cmd &&& 0x01 ≠ 0 ↔ moff &&& (0xff <<< 0) ≠ 0) ∧
      (cmd &&& 0x02 ≠ 0 ↔ moff &&& (0xff <<< 8) ≠ 0) ∧
      (cmd &&& 0x04 ≠ 0 ↔ moff &&& (0xff <<< 16) ≠ 0) ∧
      (cmd &&& 0x08 ≠ 0 ↔ moff &&& (0xff <<< 24) ≠ 0) ∧
      (cmd &&& 0x10 ≠ 0 ↔ msize &&& (0xff <<< 0) ≠ 0) ∧
      (cmd &&& 0x20 ≠ 0 ↔ msize &&& (0xff <<< 8) ≠ 0) ∧ cmd &&& 0x40 = 0 := by
  have hbit (value shift : Nat) (bit : UInt8) : cpParamBit value shift bit =
      bif decide (value &&& (0xff <<< shift) ≠ 0) then bit else 0 := by
    unfold cpParamBit
    split <;> simp_all
  have hbits := copyOpcode_bits (moff &&& (0xff <<< 0) ≠ 0) (moff &&& (0xff <<< 8) ≠ 0)
    (moff &&& (0xff <<< 16) ≠ 0) (moff &&& (0xff <<< 24) ≠ 0)
    (msize &&& (0xff <<< 0) ≠ 0) (msize &&& (0xff <<< 8) ≠ 0)
  simp only [decide_eq_true_eq] at hbits
  refine ⟨_, ?_, hbits⟩
  simp only [copyOp, putCpParam_eq, hbit, List.nil_append, copyOpcode]

lemma parseCopy_copyOp {moff msize : Nat} (hoff : moff < 2 ^ 32) (hpos : 0 < msize)
    (hsize : msize ≤ 0x10000) (rest : List UInt8) :
    ∃ cmd params, copyOp moff msize = cmd :: params ∧ cmd &&& 0x80 ≠ 0 ∧
      parseCopy cmd (params ++ rest) = .ok (moff, msize, rest) := by
  obtain ⟨cmd, heq, h80, h0, h1, h2, h3, h4, h5, h6⟩ := copyOp_eq moff msize
  refine ⟨cmd, _, heq, h80, ?_⟩
  have p0 := fun rest => @parseCpParam_put moff _ _ _ rest h0
  have p1 := fun rest => @parseCpParam_put moff _ _ _ rest h1
  have p2 := fun rest => @parseCpParam_put moff _ _ _ rest h2
  have p3 := fun rest => @parseCpParam_put moff _ _ _ rest h3
  have p4 := fun rest => @parseCpParam_put msize _ _ _ rest h4
  have p5 := fun rest => @parseCpParam_put msize _ _ _ rest h5
  have p6 (p) : parseCpParam cmd 0x40 16 p = .ok p := by
    rw [parseCpParam, if_neg (by simp [h6])]
  simp only [pow_zero, Nat.mod_one, Nat.zero_add, Nat.reduceAdd] at p0 p1 p2 p3 p4 p5
  simp only [parseCopy, parseCpParams, bind, Except.bind, pure, Except.pure, List.append_assoc,
    p0, p1, p2, p3, p4, p5, p6]
  have hmod : (if msize % 2 ^ 16 = 0 then 0x10000 else msize % 2 ^ 16) = msize := by
    split <;> omega
  rw [hmod, Nat.mod_eq_of_lt hoff]

def Replays (src ops t : List UInt8) : Prop :=
  ∀ rest size out, patchLoop src (ops ++ rest) (t.length + size) out = patchLoop src rest size (out ++ t)

lemma replays_nil (src : List UInt8) : Replays src [] [] := by
  intro rest size out
  simp

lemma Replays.append {src ops ops' t t' : List UInt8} (h : Replays src ops t)
    (h' : Replays src ops' t') : Replays src (ops ++ ops') (t ++ t') := by
  intro rest size out
  rw [List.append_assoc, List.length_append, Nat.add_assoc, h, h', List.append_assoc]

lemma literal_opcode : ∀ n < 0x80, 0 < n →
    UInt8.ofNat n &&& 0x80 = 0 ∧ UInt8.ofNat n ≠ 0 ∧ (UInt8.ofNat n).toNat = n := by
  decide

lemma replays_literal (src : List UInt8) {run : List UInt8} (hpos : run ≠ [])
    (hlen : run.length ≤ 0x7f) : Replays src (UInt8.ofNat run.length :: run) run := by
  intro rest size out
  obtain ⟨h80, h0, hn⟩ := literal_opcode run.length (by omega) (List.length_pos_iff.mpr hpos)
  rw [List.cons_append, patchLoop, if_neg (by simp [h80]), if_pos h0, hn,
    if_neg (by simp), List.drop_left, List.take_left, Nat.add_sub_cancel_left]

lemma replays_copy {src : List UInt8} {moff msize : Nat} (hoff : moff < 2 ^ 32) (hpos : 0 < msize)
    (hsize : msize ≤ 0x10000) (hsrc : moff + msize ≤ src.length) :
    Replays src (copyOp moff msize) ((src.drop moff).take msize) := by
  intro rest size out
  obtain ⟨cmd, params, heq, h80, hparse⟩ := parseCopy_copyOp hoff hpos hsize rest
  have hlen : ((src.drop moff).take msize).length = msize := by simp; omega
  rw [heq, List.cons_append, patchLoop, if_pos h80]
  split
  · next h => rw [hparse] at h; cases h
  · next h =>
    rw [hparse] at h
    cases h
    rw [if_neg (by omega), hlen, Nat.add_sub_cancel_left]

lemma parseCpParams_nil {cmd : UInt8} {params : List (UInt8 × Nat)} {var : Nat}
    {q : Nat × List UInt8} (h : parseCpParams cmd params (var, []) = .ok q) : q = (var, []) := by
  induction params with
  | nil =>
    cases h
    rfl
  | cons param params ih =>
    simp only [parseCpParams, parseCpParam, bind, Except.bind] at h
    split at h
    · cases h
    · next hp =>
      split at hp
      · cases hp
      · cases hp
        exact ih h

lemma parseCopy_nil {cmd : UInt8} {off size : Nat} {rest : List UInt8}
    (h : parseCopy cmd [] = .ok (off, size, rest)) : size = 0x10000 := by
  simp only [parseCopy, bind, Except.bind, pure, Except.pure] at h
  split at h
  · cases h
  · next hp =>
    cases parseCpParams_nil hp
    split at h
    · cases h
    · next hq =>
      cases parseCpParams_nil hq
      cases h
      rfl

lemma Replays.singleton {src t : List UInt8} {cmd : UInt8} (h : Replays src [cmd] t) :
    0x10000 ≤ src.length := by
  have hloop := h [] 0 []
  rw [List.append_nil, List.nil_append, Nat.add_zero, patchLoop, patchLoop] at hloop
  split at hloop
  · split at hloop
    · cases hloop
    · next hparse =>
      have hsize := parseCopy_nil hparse
      split at hloop
      · cases hloop
      · omega
  · split at hloop
    · next h0 =>
      have hpos : cmd.toNat ≠ 0 := fun h => h0 (UInt8.toNat_inj.mp h)
      rw [if_pos (by simp only [List.length_nil]; omega)] at hloop
      cases hloop
    · cases hloop

end GitCore.Delta
