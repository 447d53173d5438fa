import GitCore.Ewah.Runs
import GitCore.Lib.Popcount

/-!
# The bits of a list of words

`bitsAt pos words` are the positions of the set bits, the first word being at `pos`.
-/

namespace GitCore.Ewah

def bitsAt : Nat → List Eword → List Nat
  | _, [] => []
  | pos, w :: ws => (wordBits w).map (pos + ·) ++ bitsAt (pos + bitsInEword) ws

lemma bitsAt_append (pos : Nat) (a b : List Eword) :
    bitsAt pos (a ++ b) = bitsAt pos a ++ bitsAt (pos + a.length * bitsInEword) b := by
  induction a generalizing pos with
  | nil => rw [List.length_nil, Nat.zero_mul]; rfl
  | cons w ws ih =>
    rw [List.cons_append, bitsAt, ih, bitsAt, List.append_assoc, List.length_cons, Nat.succ_mul, Nat.add_assoc,
      Nat.add_comm bitsInEword]

lemma bitsAt_flatMap (pos : Nat) (words : List Eword) :
    bitsAt pos words = (List.range words.length).flatMap fun k =>
      (wordBits (words.getD k 0)).map (pos + k * bitsInEword + ·) := by
  induction words generalizing pos with
  | nil => rfl
  | cons w ws ih =>
    rw [bitsAt, ih, List.length_cons, List.range_succ_eq_map, List.flatMap_cons, List.flatMap_map, Nat.zero_mul]
    congr 1
    refine List.flatMap_congr fun k _ => ?_
    rw [List.getD_cons_succ, Nat.succ_mul, Nat.add_assoc pos, Nat.add_comm bitsInEword]

lemma mem_wordBits {w : Eword} {c : Nat} : c ∈ wordBits w ↔ w.getLsbD c = true := by
  rw [wordBits, List.mem_filter, List.mem_range, and_iff_right_iff_imp]
  intro hc
  by_contra hge
  rw [BitVec.getLsbD_of_ge w c (by exact Nat.not_lt.mp hge)] at hc
  cases hc

lemma wordBits_zero : wordBits 0 = [] := by decide

lemma wordBits_ones : wordBits (~~~0) = List.range bitsInEword := by decide

lemma bitsAt_zeros (pos k : Nat) : bitsAt pos (List.replicate k 0) = [] := by
  induction k generalizing pos with
  | zero => rfl
  | succ k ih => rw [List.replicate_succ, bitsAt, wordBits_zero, ih]; rfl

lemma bitsAt_ones (pos k : Nat) : bitsAt pos (List.replicate k (~~~0)) = (List.range (k * bitsInEword)).map (pos + ·) := by
  induction k generalizing pos with
  | zero => rw [Nat.zero_mul]; rfl
  | succ k ih =>
    rw [List.replicate_succ, bitsAt, wordBits_ones, ih, Nat.succ_mul, Nat.add_comm (k * bitsInEword) bitsInEword, List.range_add,
      List.map_append, List.map_map, List.append_cancel_left_eq]
    refine List.map_congr_left fun j _ => ?_
    rw [Function.comp_apply, Nat.add_assoc]

lemma bitsAt_fill (pos k : Nat) (b : Bool) :
    bitsAt pos (List.replicate k (fillWord b)) = if b then (List.range (k * bitsInEword)).map (pos + ·) else [] := by
  cases b with
  | false => exact bitsAt_zeros pos k
  | true => exact bitsAt_ones pos k

lemma mem_bitsAt {words : List Eword} {pos p : Nat} :
    p ∈ bitsAt pos words ↔ ∃ k, k < words.length ∧ ∃ c, (words.getD k 0).getLsbD c = true ∧
      p = pos + k * bitsInEword + c := by
  rw [bitsAt_flatMap, List.mem_flatMap]
  constructor
  · rintro ⟨k, hk, hp⟩
    obtain ⟨c, hc, rfl⟩ := List.mem_map.mp hp
    exact ⟨k, List.mem_range.mp hk, c, mem_wordBits.mp hc, rfl⟩
  · rintro ⟨k, hk, c, hc, rfl⟩
    exact ⟨k, List.mem_range.mpr hk, List.mem_map.mpr ⟨c, mem_wordBits.mpr hc, rfl⟩⟩

lemma lt_of_getLsbD {w : Eword} {c : Nat} (h : w.getLsbD c = true) : c < bitsInEword := by
  by_contra hge
  rw [BitVec.getLsbD_of_ge w c (Nat.not_lt.mp hge)] at h
  cases h

lemma getLsbD_bit {c : Nat} (hc : c < bitsInEword) (i : Nat) : ((1 : Eword) <<< c).getLsbD i = decide (i = c) := by
  rw [show (1 : Eword) = 1#64 from rfl, ← BitVec.twoPow_eq, BitVec.getLsbD_twoPow]
  have hc' : c < 64 := hc
  simp [hc', eq_comm]

lemma wordBits_bit {c : Nat} (hc : c < bitsInEword) : wordBits ((1 : Eword) <<< c) = [c] := by
  have hall : ∀ c : Fin 64, wordBits ((1 : Eword) <<< c.val) = [c.val] := by decide
  exact hall ⟨c, hc⟩

lemma wordBits_or {w : Eword} {c : Nat} (hc : c < bitsInEword) (hw : ∀ d ∈ wordBits w, d < c) :
    wordBits (w ||| (1 : Eword) <<< c) = wordBits w ++ [c] := by
  obtain ⟨rest, hrest⟩ := Nat.exists_eq_add_of_lt hc
  have hrange : List.range bitsInEword = List.range c ++ ([c] ++ (List.range rest).map (c + 1 + ·)) := by
    rw [hrest, Nat.add_right_comm, List.range_add, List.range_succ, List.append_assoc]
  have hlow : (List.range c).filter (w ||| (1 : Eword) <<< c).getLsbD = (List.range c).filter w.getLsbD := by
    refine List.filter_congr fun d hd => ?_
    have hne : d ≠ c := Nat.ne_of_lt (List.mem_range.mp hd)
    rw [BitVec.getLsbD_or, getLsbD_bit hc, decide_eq_false hne, Bool.or_false]
  have hhigh : ∀ j, w.getLsbD (c + j) = false := by
    intro j
    rw [Bool.eq_false_iff]
    intro hbit
    have hlt := hw _ (mem_wordBits.mpr hbit)
    omega
  have hzero : ((List.range rest).map (c + 1 + ·)).filter w.getLsbD = [] := by
    rw [List.filter_eq_nil_iff]
    intro d hd
    obtain ⟨j, -, rfl⟩ := List.mem_map.mp hd
    rw [Nat.add_assoc, hhigh]
    exact Bool.false_ne_true
  have hzero' : ((List.range rest).map (c + 1 + ·)).filter (w ||| (1 : Eword) <<< c).getLsbD = [] := by
    rw [List.filter_eq_nil_iff]
    intro d hd
    obtain ⟨j, -, rfl⟩ := List.mem_map.mp hd
    have hne : c + 1 + j ≠ c := by omega
    rw [BitVec.getLsbD_or, getLsbD_bit hc, decide_eq_false hne, Nat.add_assoc, hhigh]
    exact Bool.false_ne_true
  have hself : [c].filter w.getLsbD = [] := by
    have hbit := hhigh 0
    rw [Nat.add_zero] at hbit
    rw [List.filter_singleton, hbit]
    rfl
  have hself' : [c].filter (w ||| (1 : Eword) <<< c).getLsbD = [c] := by
    rw [List.filter_singleton, BitVec.getLsbD_or, getLsbD_bit hc, decide_eq_true rfl, Bool.or_true]
    rfl
  rw [wordBits, wordBits, hrange, List.filter_append, List.filter_append, List.filter_append, List.filter_append,
    hlow, hzero, hzero', hself, hself', List.append_nil, List.append_nil, List.append_nil]

lemma toNat_addFields (x m : Eword) {s : Nat} (hm : 2 * m.toNat < 2 ^ 64) :
    ((x &&& m) + (x >>> s &&& m)).toNat = Popcount.addFields s m.toNat x.toNat := by
  have h1 : x.toNat &&& m.toNat ≤ m.toNat := Nat.and_le_right
  have h2 : x.toNat >>> s &&& m.toNat ≤ m.toNat := Nat.and_le_right
  rw [BitVec.toNat_add, BitVec.toNat_and, BitVec.toNat_and, BitVec.toNat_ushiftRight, Nat.mod_eq_of_lt (by omega)]
  rfl

theorem ewahBitPopcount64_eq (x : Eword) : ewahBitPopcount64 x = (wordBits x).length := by
  have hcount : (wordBits x).length = Popcount.bitCount 64 x.toNat := by
    rw [wordBits, ← List.countP_eq_length_filter]
    rfl
  rw [hcount, ← Popcount.popcount64 x.isLt, ewahBitPopcount64, BitVec.toNat_ushiftRight, BitVec.toNat_mul,
    toNat_addFields _ _ (by decide), toNat_addFields _ _ (by decide), toNat_addFields _ _ (by decide),
    Nat.shiftRight_eq_div_pow]
  rfl

end GitCore.Ewah
