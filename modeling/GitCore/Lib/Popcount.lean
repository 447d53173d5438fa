import Mathlib.Data.Nat.Bitwise
import Mathlib.Data.Nat.Digits.Defs
import Mathlib.Tactic

/-!
# Counting bits in parallel

Words as lists of bytes, the least significant first. The steps of a parallel bit count work on
each byte by itself, and one multiplication sums the bytes up.
-/

namespace GitCore.Popcount

def bitCount (n x : Nat) : Nat := (List.range n).countP x.testBit

def periodic (c : Nat) : Nat → Nat
  | 0 => 0
  | n + 1 => c + 256 * periodic c n

def addFields (s m x : Nat) : Nat := (x &&& m) + ((x >>> s) &&& m)

lemma testBit_byte {b : Nat} (hb : b < 256) (y i : Nat) :
    (b + 256 * y).testBit i = if i < 8 then b.testBit i else y.testBit (i - 8) := by
  rw [Nat.add_comm, show 256 = 2 ^ 8 from rfl, Nat.testBit_two_pow_mul_add y hb]

lemma and_byte {b c : Nat} (hb : b < 256) (hc : c < 256) (y m : Nat) :
    (b + 256 * y) &&& (c + 256 * m) = (b &&& c) + 256 * (y &&& m) := by
  apply Nat.eq_of_testBit_eq
  intro i
  have hbc : b &&& c < 256 := Nat.and_lt_two_pow (n := 8) b hc
  rw [Nat.testBit_and, testBit_byte hb, testBit_byte hc, testBit_byte hbc, Nat.testBit_and, Nat.testBit_and]
  split_ifs <;> rfl

lemma shift_and_byte {b c s : Nat} (hb : b < 256) (hs : s ≤ 8) (hc : c < 2 ^ (8 - s)) (y m : Nat) :
    (b + 256 * y) >>> s &&& (c + 256 * m) = (b >>> s &&& c) + 256 * (y >>> s &&& m) := by
  have hc' : c < 256 := hc.trans_le (Nat.pow_le_pow_right (by omega) (by omega) |>.trans_eq (by rfl : 2 ^ 8 = 256))
  have hbc : b >>> s &&& c < 256 := Nat.and_lt_two_pow (n := 8) _ hc'
  apply Nat.eq_of_testBit_eq
  intro i
  rw [Nat.testBit_and, Nat.testBit_shiftRight, testBit_byte hb, testBit_byte hc', testBit_byte hbc, Nat.testBit_and,
    Nat.testBit_and, Nat.testBit_shiftRight, Nat.testBit_shiftRight]
  by_cases hi : i < 8
  · rw [if_pos hi, if_pos hi]
    by_cases his : s + i < 8
    · rw [if_pos his]
    · have hzero : c.testBit i = false :=
        Nat.testBit_lt_two_pow (hc.trans_le (Nat.pow_le_pow_right (by omega) (by omega)))
      rw [hzero, Bool.and_false, Bool.and_false]
  · rw [if_neg hi, if_neg hi, if_neg (by omega), Nat.add_sub_assoc (by omega)]

lemma addFields_ofDigits {s c : Nat} (hs : s ≤ 8) (hc : c < 2 ^ (8 - s)) {bytes : List Nat} (hbytes : ∀ b ∈ bytes, b < 256) :
    addFields s (periodic c bytes.length) (Nat.ofDigits 256 bytes) = Nat.ofDigits 256 (bytes.map (addFields s c)) := by
  have hc' : c < 256 := hc.trans_le (Nat.pow_le_pow_right (by omega) (by omega) |>.trans_eq (by rfl : 2 ^ 8 = 256))
  induction bytes with
  | nil => simp [addFields, periodic, Nat.ofDigits]
  | cons b bytes ih =>
    have hb := hbytes b (by simp)
    have ih := ih fun d hd => hbytes d (by simp [hd])
    rw [List.map_cons, Nat.ofDigits_cons, Nat.ofDigits_cons, ← ih, List.length_cons, periodic, addFields,
      and_byte hb hc', shift_and_byte hb hs hc]
    simp only [addFields]
    ring

lemma bitCount_ofDigits {bytes : List Nat} (hbytes : ∀ b ∈ bytes, b < 256) :
    bitCount (8 * bytes.length) (Nat.ofDigits 256 bytes) = (bytes.map (bitCount 8)).sum := by
  induction bytes with
  | nil => simp [bitCount, Nat.ofDigits]
  | cons b bytes ih =>
    have hb := hbytes b (by simp)
    have hrange : List.range (8 * (bytes.length + 1)) = List.range 8 ++ (List.range (8 * bytes.length)).map (8 + ·) := by
      rw [Nat.mul_succ, Nat.add_comm, List.range_add]
    have hlow : (List.range 8).countP (Nat.ofDigits 256 (b :: bytes)).testBit = bitCount 8 b := by
      refine List.countP_congr fun i hi => ?_
      rw [Nat.ofDigits_cons, testBit_byte hb, if_pos (List.mem_range.mp hi)]
    have hhigh : ((List.range (8 * bytes.length)).map (8 + ·)).countP (Nat.ofDigits 256 (b :: bytes)).testBit =
        bitCount (8 * bytes.length) (Nat.ofDigits 256 bytes) := by
      rw [List.countP_map]
      refine List.countP_congr fun i _ => ?_
      rw [Function.comp_apply, Nat.ofDigits_cons, testBit_byte hb, if_neg (by omega), Nat.add_sub_cancel_left]
    rw [List.map_cons, List.sum_cons, ← ih fun d hd => hbytes d (by simp [hd]), List.length_cons, bitCount, hrange,
      List.countP_append, hlow, hhigh]

lemma bitCount_byte {b : Nat} (hb : b < 256) :
    addFields 4 0x0f (addFields 2 0x33 (addFields 1 0x55 b)) = bitCount 8 b := by
  have hall : ∀ b : Fin 256, addFields 4 0x0f (addFields 2 0x33 (addFields 1 0x55 b)) = bitCount 8 b := by decide +kernel
  exact hall ⟨b, hb⟩

lemma addFields_lt {s c b : Nat} (hc : c < 128) : addFields s c b < 256 := by
  have h1 : b &&& c ≤ c := Nat.and_le_right
  have h2 : b >>> s &&& c ≤ c := Nat.and_le_right
  unfold addFields
  omega

lemma topByte {n s l : Nat} (q : Nat) (hn : n = 2 ^ 64 * q + (2 ^ 56 * s + l)) (hs : s < 256) (hl : l < 2 ^ 56) :
    n % 2 ^ 64 / 2 ^ 56 = s := by
  omega

lemma sum_bytes {d₀ d₁ d₂ d₃ d₄ d₅ d₆ d₇ : Nat} (h : ∀ d ∈ [d₀, d₁, d₂, d₃, d₄, d₅, d₆, d₇], d ≤ 8) :
    Nat.ofDigits 256 [d₀, d₁, d₂, d₃, d₄, d₅, d₆, d₇] * 0x0101010101010101 % 2 ^ 64 / 2 ^ 56 =
      [d₀, d₁, d₂, d₃, d₄, d₅, d₆, d₇].sum := by
  simp only [List.mem_cons, List.not_mem_nil, or_false, forall_eq_or_imp, forall_eq] at h
  obtain ⟨h₀, h₁, h₂, h₃, h₄, h₅, h₆, h₇⟩ := h
  have hlow : d₀ + 2 ^ 8 * (d₀ + d₁) + 2 ^ 16 * (d₀ + d₁ + d₂) + 2 ^ 24 * (d₀ + d₁ + d₂ + d₃) +
      2 ^ 32 * (d₀ + d₁ + d₂ + d₃ + d₄) + 2 ^ 40 * (d₀ + d₁ + d₂ + d₃ + d₄ + d₅) +
      2 ^ 48 * (d₀ + d₁ + d₂ + d₃ + d₄ + d₅ + d₆) < 2 ^ 56 := by
    omega
  have hsum : [d₀, d₁, d₂, d₃, d₄, d₅, d₆, d₇].sum = d₀ + d₁ + d₂ + d₃ + d₄ + d₅ + d₆ + d₇ := by
    simp only [List.sum_cons, List.sum_nil]
    ring
  rw [hsum]
  refine topByte (d₁ + (1 + 2 ^ 8) * d₂ + (1 + 2 ^ 8 + 2 ^ 16) * d₃ + (1 + 2 ^ 8 + 2 ^ 16 + 2 ^ 24) * d₄ +
    (1 + 2 ^ 8 + 2 ^ 16 + 2 ^ 24 + 2 ^ 32) * d₅ + (1 + 2 ^ 8 + 2 ^ 16 + 2 ^ 24 + 2 ^ 32 + 2 ^ 40) * d₆ +
    (1 + 2 ^ 8 + 2 ^ 16 + 2 ^ 24 + 2 ^ 32 + 2 ^ 40 + 2 ^ 48) * d₇) ?_ (by omega) hlow
  simp only [Nat.ofDigits_cons, Nat.ofDigits_nil]
  ring

lemma exists_bytes {n x : Nat} (hx : x < 256 ^ n) :
    ∃ bytes : List Nat, bytes.length = n ∧ (∀ b ∈ bytes, b < 256) ∧ Nat.ofDigits 256 bytes = x := by
  induction n generalizing x with
  | zero => exact ⟨[], rfl, by simp, by simp only [pow_zero] at hx; simp [Nat.ofDigits]; omega⟩
  | succ n ih =>
    obtain ⟨bytes, hlength, hbytes, hvalue⟩ := ih (x := x / 256) (Nat.div_lt_of_lt_mul (by rwa [← pow_succ']))
    refine ⟨x % 256 :: bytes, by rw [List.length_cons, hlength], ?_, ?_⟩
    · intro b hb
      rcases List.mem_cons.mp hb with rfl | hb
      · exact Nat.mod_lt _ (by norm_num)
      · exact hbytes b hb
    · rw [Nat.ofDigits_cons, hvalue]
      exact Nat.mod_add_div x 256

lemma addFields_bytes {bytes : List Nat} (hbytes : ∀ b ∈ bytes, b < 256) :
    addFields 4 (periodic 0x0f bytes.length) (addFields 2 (periodic 0x33 bytes.length)
      (addFields 1 (periodic 0x55 bytes.length) (Nat.ofDigits 256 bytes))) =
      Nat.ofDigits 256 (bytes.map (bitCount 8)) := by
  have hnext : ∀ {s c : Nat} {bytes : List Nat}, c < 128 → ∀ b ∈ bytes.map (addFields s c), b < 256 := by
    intro s c bytes hc b hb
    obtain ⟨d, -, rfl⟩ := List.mem_map.mp hb
    exact addFields_lt hc
  rw [addFields_ofDigits (by norm_num) (by norm_num) hbytes]
  have hlength : bytes.length = (bytes.map (addFields 1 0x55)).length := (List.length_map _).symm
  rw [hlength, addFields_ofDigits (by norm_num) (by norm_num) (hnext (by norm_num))]
  have hlength : (bytes.map (addFields 1 0x55)).length = ((bytes.map (addFields 1 0x55)).map (addFields 2 0x33)).length :=
    (List.length_map _).symm
  rw [hlength, addFields_ofDigits (by norm_num) (by norm_num) (hnext (by norm_num)), List.map_map, List.map_map]
  congr 1
  exact List.map_congr_left fun b hb => bitCount_byte (hbytes b hb)

/-- The parallel count is the number of the set bits. -/
theorem popcount64 {x : Nat} (hx : x < 2 ^ 64) :
    addFields 4 0x0f0f0f0f0f0f0f0f (addFields 2 0x3333333333333333 (addFields 1 0x5555555555555555 x)) *
      0x0101010101010101 % 2 ^ 64 / 2 ^ 56 = bitCount 64 x := by
  obtain ⟨bytes, hlength, hbytes, rfl⟩ := exists_bytes (n := 8) (x := x) (hx.trans_eq (by norm_num))
  have hsteps := addFields_bytes hbytes
  rw [hlength] at hsteps
  have hcount := bitCount_ofDigits hbytes
  rw [hlength] at hcount
  change addFields 4 (periodic 0x0f 8) (addFields 2 (periodic 0x33 8) (addFields 1 (periodic 0x55 8) _)) * _ % _ / _ = _
  rw [hsteps, hcount]
  have height : ∀ d ∈ bytes.map (bitCount 8), d ≤ 8 := by
    intro d hd
    obtain ⟨b, -, rfl⟩ := List.mem_map.mp hd
    exact List.countP_le_length.trans_eq List.length_range
  obtain ⟨d₀, d₁, d₂, d₃, d₄, d₅, d₆, d₇, hdigits⟩ : ∃ d₀ d₁ d₂ d₃ d₄ d₅ d₆ d₇,
      bytes.map (bitCount 8) = [d₀, d₁, d₂, d₃, d₄, d₅, d₆, d₇] := by
    match bytes, hlength with
    | [b₀, b₁, b₂, b₃, b₄, b₅, b₆, b₇], _ => exact ⟨_, _, _, _, _, _, _, _, rfl⟩
  rw [hdigits] at height ⊢
  exact sum_bytes height

end GitCore.Popcount
